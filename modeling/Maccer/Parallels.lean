import Maccer.Key

/-! What the walks over a key see: the unbroken run of slots of a plain word. -/

namespace Maccer

open Lua

def fillParallels (p : Str) : Nat → List Str → Table Str → Table Str
  | _, [], parwtbl => parwtbl
  | n, form :: forms, parwtbl => fillParallels p (n + 1) forms (parwtbl.insert form (slot p n))

theorem field_fill_outside (p w : Str) (forms : List Str) (n : Nat) (parwtbl : Table Str)
    (absent : w ∉ forms) : field (fillParallels p n forms parwtbl) w = field parwtbl w := by
  induction forms generalizing n parwtbl with
  | nil => rfl
  | cons form forms ih =>
      simp only [List.mem_cons, not_or] at absent
      rw [fillParallels, ih _ _ absent.2]
      exact AList.lookup_insert_ne absent.1

theorem field_fill_inside (p w : Str) (forms : List Str) (n : Nat) (parwtbl : Table Str)
    (present : w ∈ forms) : ∃ i, forms[i]? = some w ∧
      field (fillParallels p n forms parwtbl) w = some (slot p (n + i)) := by
  induction forms generalizing n parwtbl with
  | nil => cases present
  | cons form forms ih =>
      by_cases later : w ∈ forms
      · obtain ⟨i, here, found⟩ := ih (n + 1) (parwtbl.insert form (slot p n)) later
        refine ⟨i + 1, by simpa using here, ?_⟩
        rw [fillParallels, found]
        congr 2
        omega
      · have first : w = form := by simpa [later] using present
        refine ⟨0, by simp [first], ?_⟩
        rw [fillParallels, field_fill_outside p w forms _ _ later, first]
        exact AList.lookup_insert _

def parallels (keytbl : Table Str) (p : Str) : Table Str :=
  fillParallels p 0 (chain keytbl p) ∅

theorem field_parallels_none (keytbl : Table Str) (p w : Str) :
    field (parallels keytbl p) w = none ↔ w ∉ chain keytbl p := by
  constructor
  · intro free present
    obtain ⟨i, _, found⟩ := field_fill_inside p w _ 0 ∅ present
    rw [parallels, found] at free
    cases free
  · intro absent
    rw [parallels, field_fill_outside p w _ 0 ∅ absent]
    rfl

theorem field_parallels (keytbl : Table Str) (p w : Str) (present : w ∈ chain keytbl p) :
    ∃ i, (chain keytbl p)[i]? = some w ∧ field (parallels keytbl p) w = some (slot p i) := by
  simpa [parallels] using field_fill_inside p w _ 0 ∅ present

theorem getparsWalk_eq (keytbl : Table Str) (p : Str) (fuel n : Nat) (form : Str)
    (parwtbl : Table Str) (here : field keytbl (slot p n) = some form)
    (stops : (chainFrom keytbl p fuel n).length < fuel) :
    getparsWalk keytbl p false fuel (slot p n) form n parwtbl =
      (fillParallels p n (chainFrom keytbl p fuel n) parwtbl,
        n + (chainFrom keytbl p fuel n).length,
        slot p (n + (chainFrom keytbl p fuel n).length)) := by
  induction fuel generalizing n form parwtbl with
  | zero => omega
  | succ fuel ih =>
      have next : p ++ decimal (n + 1) = slot p (n + 1) := (slot_pos p (n + 1) (by omega)).symm
      simp only [chainFrom, here, List.length_cons] at stops ⊢
      simp only [getparsWalk, Bool.false_eq_true, if_false, next, fillParallels]
      cases after : field keytbl (slot p (n + 1)) with
      | none =>
          have ended : chainFrom keytbl p fuel (n + 1) = [] := by
            cases fuel with
            | zero => rfl
            | succ fuel => simp [chainFrom, after]
          simp [ended, fillParallels]
      | some later =>
          have shape : n + 1 + (chainFrom keytbl p fuel (n + 1)).length =
              n + ((chainFrom keytbl p fuel (n + 1)).length + 1) := by omega
          simp only []
          rw [ih (n + 1) later _ after (by omega), shape]

/-- `getpars` reports the run of slots of a plain word and the slot after it. -/
theorem getpars_eq (keytbl : Table Str) (p : Str) :
    getpars keytbl p false =
      if chain keytbl p = [] then none
      else some (parallels keytbl p, (chain keytbl p).length, slot p (chain keytbl p).length) := by
  have stops : (chainFrom keytbl p (walkFuel keytbl) 0).length < walkFuel keytbl :=
    Nat.lt_succ_of_le (chainFrom_length_le_keys keytbl p _ 0)
  unfold getpars
  cases first : field keytbl p with
  | none =>
      have ended : chain keytbl p = [] := by simp [chain, chainFrom, first]
      simp [ended]
  | some form =>
      have begun : chain keytbl p ≠ [] := by simp [chain, chainFrom, first]
      rw [if_neg begun]
      have walked := getparsWalk_eq keytbl p (walkFuel keytbl) 0 form ∅ (by simpa using first) stops
      simp only [slot_zero, Nat.zero_add] at walked
      simp only [walked, Bool.false_and, Bool.false_eq_true, if_false]
      rfl

theorem getnextkeyFrom_eq (keytbl : Table Str) (p : Str) (fuel n : Nat)
    (short : (chainFrom keytbl p fuel n).length < fuel) :
    getnextkeyFrom keytbl p fuel (slot p n) n = slot p (n + (chainFrom keytbl p fuel n).length) := by
  induction fuel generalizing n with
  | zero => omega
  | succ fuel ih =>
      simp only [chainFrom] at short ⊢
      rw [getnextkeyFrom]
      cases filled : field keytbl (slot p n) with
      | none => rfl
      | some w =>
          simp only [filled, List.length_cons] at short ⊢
          rw [← slot_pos p (n + 1) (by omega), ih (n + 1) (by omega)]
          congr 1
          omega

theorem getnextkey_eq (keytbl : Table Str) (p : Str) :
    getnextkey keytbl p = slot p (chain keytbl p).length := by
  have short : (chainFrom keytbl p (walkFuel keytbl) 0).length < walkFuel keytbl :=
    Nat.lt_succ_of_le (chainFrom_length_le_keys keytbl p _ 0)
  have walked := getnextkeyFrom_eq keytbl p (walkFuel keytbl) 0 short
  rwa [slot_zero, Nat.zero_add] at walked

theorem chainFrom_more {ν : Type} (t : Table ν) (p : Str) {fuel more n : Nat} (short : (chainFrom t p fuel n).length < fuel)
    (enough : fuel ≤ more) : chainFrom t p more n = chainFrom t p fuel n := by
  induction fuel generalizing more n with
  | zero => omega
  | succ fuel ih =>
      cases more with
      | zero => omega
      | succ more =>
          simp only [chainFrom] at short ⊢
          cases filled : field t (slot p n) with
          | none => rfl
          | some v =>
              simp only [filled, List.length_cons] at short ⊢
              rw [ih (by omega) (by omega)]

theorem keys_parallels (keytbl : Table Str) (p : Str) : (parallels keytbl p).keys.Perm (chain keytbl p).dedup := by
  apply (List.perm_ext_iff_of_nodup (AList.keys_nodup _) (List.nodup_dedup _)).mpr
  intro w
  rw [List.mem_dedup, ← AList.mem_keys]
  have free := (field_parallels_none keytbl p w).not
  rwa [not_not, field, AList.lookup_eq_none, not_not] at free

/-- The two walks over the parallels of a word end at the same free slot, in any table. -/
theorem getpars_getnextkey (keytbl : Table Str) (p form : Str) (stored : field keytbl p = some form) :
    ∃ partbl count, getpars keytbl p false = some (partbl, count, getnextkey keytbl p) ∧
      (∀ fuel, walkFuel keytbl ≤ fuel →
        getparsWalk keytbl p false fuel p form 0 ∅ = (partbl, count, getnextkey keytbl p) ∧
        getnextkeyFrom keytbl p fuel p 0 = getnextkey keytbl p) ∧
      getnextkey keytbl p = slot p count ∧ slot p count ∉ keytbl ∧ (∀ n < count, slot p n ∈ keytbl) ∧
      (∀ w, w ∈ partbl ↔ ∃ n < count, field keytbl (slot p n) = some w) ∧
      (∀ w plainwkey, field partbl w = some plainwkey →
        ∃ n < count, plainwkey = slot p n ∧ field keytbl plainwkey = some w) ∧
      (partbl.keys.length = count ↔
        ∀ m n, m < n → n < count → field keytbl (slot p m) ≠ field keytbl (slot p n)) := by
  have filled : chain keytbl p ≠ [] := by simp [chain, chainFrom, stored]
  have short : (chainFrom keytbl p (walkFuel keytbl) 0).length < walkFuel keytbl :=
    Nat.lt_succ_of_le (chainFrom_length_le_keys keytbl p _ 0)
  have inside (n : Nat) (less : n < (chain keytbl p).length) : field keytbl (slot p n) = (chain keytbl p)[n]? :=
    field_in_chain keytbl p n less
  have forms (w : Str) : w ∈ parallels keytbl p ↔ w ∈ chain keytbl p := by
    rw [AList.mem_keys, (keys_parallels keytbl p).mem_iff, List.mem_dedup]
  refine ⟨parallels keytbl p, (chain keytbl p).length, ?_, fun fuel enough => ?_, getnextkey_eq keytbl p, ?_, ?_, ?_, ?_, ?_⟩
  · rw [getpars_eq, if_neg filled, getnextkey_eq]
  · have same := chainFrom_more keytbl p short enough
    have longer : (chainFrom keytbl p fuel 0).length < fuel := by
      rw [same]
      omega
    have walked := getparsWalk_eq keytbl p fuel 0 form ∅ stored longer
    have counted := getnextkeyFrom_eq keytbl p fuel 0 longer
    rw [same, Nat.zero_add] at walked counted
    rw [getnextkey_eq]
    exact ⟨walked, counted⟩
  · exact AList.lookup_eq_none.mp (field_after_chain keytbl p)
  · intro n less
    have here := inside n less
    rw [List.getElem?_eq_getElem less] at here
    exact mem_of_field here
  · intro w
    rw [forms, List.mem_iff_getElem?]
    constructor
    · intro h
      obtain ⟨n, here⟩ := h
      have less := (List.getElem?_eq_some_iff.mp here).1
      exact ⟨n, less, (inside n less).trans here⟩
    · intro h
      obtain ⟨n, less, here⟩ := h
      exact ⟨n, (inside n less).symm.trans here⟩
  · intro w plainwkey found
    have member : w ∈ chain keytbl p := (forms w).mp (mem_of_field found)
    obtain ⟨n, place, slotted⟩ := field_parallels keytbl p w member
    have less := (List.getElem?_eq_some_iff.mp place).1
    obtain rfl : slot p n = plainwkey := Option.some.inj (slotted.symm.trans found)
    exact ⟨n, less, rfl, (inside n less).trans place⟩
  · rw [(keys_parallels keytbl p).length_eq, (List.dedup_sublist _).length_eq, List.dedup_eq_self,
      List.nodup_iff_getElem?_ne_getElem?]
    constructor
    · intro apart m n less bound
      rw [inside m (less.trans bound), inside n bound]
      exact apart m n less bound
    · intro apart m n less bound
      rw [← inside m (less.trans bound), ← inside n bound]
      exact apart m n less bound

def twiceKey : Table Str := AList.insert (lit "hoc1") (lit "hōc") (AList.insert (lit "hoc") (lit "hōc") ∅)

theorem getpars_getnextkey_hoc : ∃ partbl count, getpars twiceKey (lit "hoc") false =
    some (partbl, count, getnextkey twiceKey (lit "hoc")) ∧ partbl.keys.length ≠ count := by
  obtain ⟨partbl, count, walked, _, next, _, _, _, _, distinct⟩ :=
    getpars_getnextkey twiceKey (lit "hoc") (lit "hōc") (by decide)
  have two : count = 2 := slot_number_injective (lit "hoc") (next.symm.trans (by decide : getnextkey twiceKey (lit "hoc") = slot (lit "hoc") 2))
  refine ⟨partbl, count, walked, fun same => distinct.mp same 0 1 (by omega) (by omega) (by decide)⟩

/-! Removal of a form from its slot. -/

theorem shiftDown_field (p : Str) (count n m : Nat) (keytbl : Table Str) :
    field (shiftDown p count n keytbl) (slot p m) =
      if n ≤ m ∧ m < n + count then field keytbl (slot p (m + 1)) else field keytbl (slot p m) := by
  induction count generalizing n keytbl with
  | zero =>
      have empty : ¬ (n ≤ m ∧ m < n + 0) := by omega
      rw [if_neg empty]
      rfl
  | succ count ih =>
      have next : p ++ decimal (n + 1) = slot p (n + 1) := (slot_pos p (n + 1) (by omega)).symm
      rw [shiftDown, ih, next]
      by_cases inside : n + 1 ≤ m ∧ m < n + 1 + count
      · rw [if_pos inside, if_pos (by omega),
          field_assign_ne _ _ _ _ (slot_ne_of_number p (by omega))]
      · rw [if_neg inside]
        by_cases here : m = n
        · rw [if_pos (by omega), here, field_assign]
        · rw [if_neg (by omega), field_assign_ne _ _ _ _ (slot_ne_of_number p here)]

theorem shiftDown_other (p other : Str) (count n : Nat) (keytbl : Table Str)
    (apart : ∀ m, other ≠ slot p m) :
    field (shiftDown p count n keytbl) other = field keytbl other := by
  induction count generalizing n keytbl with
  | zero => rfl
  | succ count ih => rw [shiftDown, ih, field_assign_ne _ _ _ _ (apart n)]

theorem firstNumber_slot (p : Str) (i : Nat) (plainWord : DigitFree p) :
    firstNumber (slot p i) = i := by
  have front : ∀ b ∈ p, (!isDigit b) = true := by
    intro b member
    simp [plainWord b member]
  by_cases zero : i = 0
  · subst zero
    have gone : p.dropWhile (fun b => !isDigit b) = [] :=
      List.dropWhile_eq_nil_iff.mpr front
    rw [slot_zero, firstNumber, gone]
    rfl
  · have digits : (decimal i).takeWhile isDigit = decimal i :=
      List.takeWhile_eq_self_iff.mpr (decimal_digits i)
    have kept : (decimal i).dropWhile (fun b => !isDigit b) = decimal i := by
      cases shape : decimal i with
      | nil => rfl
      | cons d rest =>
          have digit : isDigit d = true := decimal_digits i d (by simp [shape])
          simp [digit]
    rw [slot_pos p i zero, firstNumber, List.dropWhile_append_of_pos front, kept, digits,
      tonumber_decimal]
    rfl

/-- The slots after a removal of the form in slot `i` with `count` parallels:
later ones move down, and the last one counted is cleared. -/
theorem keyremoveAt_field (keytbl partbl : Table Str) (w p : Str) (i count m : Nat)
    (plainWord : DigitFree p) (found : field partbl w = some (slot p i)) (inside : i < count) :
    field (keyremoveAt keytbl w p partbl count) (slot p m) =
      if m + 1 = count then none
      else if i ≤ m ∧ m < count then field keytbl (slot p (m + 1))
      else field keytbl (slot p m) := by
  simp only [keyremoveAt, found, firstNumber_slot p i plainWord]
  by_cases last : m + 1 = count
  · rw [if_pos last, show count - 1 = m by omega, field_assign]
  · rw [if_neg last, field_assign_ne _ _ _ _ (slot_ne_of_number p (by omega)), shiftDown_field]
    congr 1
    exact propext ⟨fun h => by omega, fun h => by omega⟩

theorem keyremoveAt_other (keytbl partbl : Table Str) (w p other : Str) (count : Nat)
    (apart : ∀ m, other ≠ slot p m) :
    field (keyremoveAt keytbl w p partbl count) other = field keytbl other := by
  unfold keyremoveAt
  split
  · rfl
  · rw [field_assign_ne _ _ _ _ (apart _), shiftDown_other p other _ _ _ apart]

end Maccer
