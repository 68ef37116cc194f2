import Mathlib.Data.List.TakeWhile
import Maccer.Lua.Table

/-! Rows of numbered slots in a table keyed by strings. -/

namespace Lua

variable {ν : Type}

/-! A base word's slots: the word itself, then the word with 1, 2, 3 appended. -/

def slot (p : Str) (n : Nat) : Str := if n = 0 then p else p ++ decimal n

def DigitFree (s : Str) : Prop := ∀ b ∈ s, isDigit b = false

instance (s : Str) : Decidable (DigitFree s) := List.decidableBAll (fun b => isDigit b = false) s

@[simp] theorem slot_zero (p : Str) : slot p 0 = p := rfl

theorem slot_pos (p : Str) (n : Nat) (positive : n ≠ 0) : slot p n = p ++ decimal n :=
  if_neg positive

theorem slot_parts (p : Str) (n : Nat) (plain : DigitFree p) :
    (slot p n).takeWhile (fun b => !isDigit b) = p := by
  have front : ∀ b ∈ p, (!isDigit b) = true := by
    intro b member
    simp [plain b member]
  by_cases zero : n = 0
  · rw [zero, slot_zero]
    exact List.takeWhile_eq_self_iff.mpr front
  · rw [slot_pos p n zero, List.takeWhile_append_of_pos front]
    cases digits : decimal n with
    | nil => exact absurd digits (decimal_ne_nil n)
    | cons d rest =>
        have digit : isDigit d = true := decimal_digits n d (by simp [digits])
        simp [digit]

theorem slot_number_injective (p : Str) {m n : Nat} (same : slot p m = slot p n) : m = n := by
  by_cases left : m = 0 <;> by_cases right : n = 0
  · omega
  · rw [left, slot_zero, slot_pos p n right] at same
    exact absurd (List.append_right_eq_self.mp same.symm) (decimal_ne_nil n)
  · rw [right, slot_zero, slot_pos p m left] at same
    exact absurd (List.append_right_eq_self.mp same) (decimal_ne_nil m)
  · rw [slot_pos p m left, slot_pos p n right] at same
    exact decimal_injective (List.append_cancel_left same)

theorem slot_injective {p q : Str} {m n : Nat} (left : DigitFree p) (right : DigitFree q)
    (same : slot p m = slot q n) : p = q ∧ m = n := by
  have words : p = q := by rw [← slot_parts p m left, same, slot_parts q n right]
  subst words
  exact ⟨rfl, slot_number_injective p same⟩

theorem slot_ne_of_word {p q : Str} (m n : Nat) (left : DigitFree p) (right : DigitFree q)
    (apart : p ≠ q) : slot p m ≠ slot q n :=
  fun same => apart (slot_injective left right same).1

theorem slot_ne_of_number (p : Str) {m n : Nat} (apart : m ≠ n) : slot p m ≠ slot p n :=
  fun same => apart (slot_number_injective p same)

def chainFrom (t : Table ν) (p : Str) : Nat → Nat → List ν
  | 0, _ => []
  | fuel + 1, n =>
      match field t (slot p n) with
      | none => []
      | some v => v :: chainFrom t p fuel (n + 1)

def chain (t : Table ν) (p : Str) : List ν := chainFrom t p (t.keys.length + 1) 0

theorem chainFrom_get (t : Table ν) (p : Str) (fuel n i : Nat) (v : ν)
    (here : (chainFrom t p fuel n)[i]? = some v) : field t (slot p (n + i)) = some v := by
  induction fuel generalizing n i with
  | zero => simp [chainFrom] at here
  | succ fuel ih =>
      unfold chainFrom at here
      cases filled : field t (slot p n) with
      | none => simp [filled] at here
      | some first =>
          simp only [filled] at here
          cases i with
          | zero => simpa [filled] using here
          | succ i =>
              have later := ih (n + 1) i (by simpa using here)
              rwa [Nat.add_right_comm, Nat.add_assoc] at later

theorem chainFrom_stops (t : Table ν) (p : Str) (fuel n : Nat)
    (short : (chainFrom t p fuel n).length < fuel) :
    field t (slot p (n + (chainFrom t p fuel n).length)) = none := by
  induction fuel generalizing n with
  | zero => omega
  | succ fuel ih =>
      simp only [chainFrom] at short ⊢
      cases filled : field t (slot p n) with
      | none => simpa using filled
      | some first =>
          simp only [filled, List.length_cons] at short ⊢
          have later := ih (n + 1) (by omega)
          rwa [Nat.add_right_comm, Nat.add_assoc] at later

theorem chainFrom_length_le_keys (t : Table ν) (p : Str) (fuel n : Nat) :
    (chainFrom t p fuel n).length ≤ t.keys.length := by
  let filled := (List.range (chainFrom t p fuel n).length).map fun i => slot p (n + i)
  have distinct : filled.Nodup := by
    refine List.Nodup.map_on ?_ List.nodup_range
    intro i _ j _ same
    have numbers := slot_number_injective p same
    omega
  have stored : filled ⊆ t.keys := by
    intro k member
    obtain ⟨i, range, rfl⟩ := List.mem_map.mp member
    have bound := List.mem_range.mp range
    have value := chainFrom_get t p fuel n i _ (List.getElem?_eq_getElem bound)
    exact AList.mem_keys.mp (mem_of_field value)
  have count := (List.subperm_of_subset distinct stored).length_le
  simpa [filled] using count

theorem field_of_chain (t : Table ν) (p : Str) (i : Nat) (v : ν)
    (here : (chain t p)[i]? = some v) : field t (slot p i) = some v := by
  simpa using chainFrom_get t p _ 0 i v here

theorem field_after_chain (t : Table ν) (p : Str) :
    field t (slot p (chain t p).length) = none := by
  have short : (chain t p).length < t.keys.length + 1 :=
    Nat.lt_succ_of_le (chainFrom_length_le_keys t p _ 0)
  simpa [chain] using chainFrom_stops t p _ 0 short

theorem field_in_chain (t : Table ν) (p : Str) (i : Nat) (inside : i < (chain t p).length) :
    field t (slot p i) = (chain t p)[i]? := by
  rw [List.getElem?_eq_getElem inside]
  exact field_of_chain t p i _ (List.getElem?_eq_getElem inside)

theorem chain_eq (t : Table ν) (p : Str) (vs : List ν)
    (inside : ∀ i < vs.length, field t (slot p i) = vs[i]?)
    (after : field t (slot p vs.length) = none) : chain t p = vs := by
  have free := field_after_chain t p
  have notShorter : vs.length ≤ (chain t p).length := by
    by_contra shorter
    rw [inside _ (by omega), List.getElem?_eq_getElem (by omega)] at free
    cases free
  have notLonger : (chain t p).length ≤ vs.length := by
    by_contra longer
    rw [field_in_chain t p _ (by omega), List.getElem?_eq_getElem (by omega)] at after
    cases after
  apply List.ext_getElem?
  intro i
  by_cases bound : i < vs.length
  · rw [← field_in_chain t p i (by omega), inside i bound]
  · rw [List.getElem?_eq_none (by omega), List.getElem?_eq_none (by omega)]

theorem mem_chain_iff (t : Table ν) (p : Str) (v : ν) :
    v ∈ chain t p ↔ ∃ i, field t (slot p i) = some v ∧ ∀ j < i, field t (slot p j) ≠ none := by
  constructor
  · intro member
    obtain ⟨i, here⟩ := List.mem_iff_getElem?.mp member
    refine ⟨i, field_of_chain t p i v here, fun j less => ?_⟩
    have bound := (List.getElem?_eq_some_iff.mp here).1
    rw [field_in_chain t p j (by omega), List.getElem?_eq_getElem (by omega)]
    simp
  · rintro ⟨i, here, before⟩
    have inside : i < (chain t p).length := by
      by_contra beyond
      have free := field_after_chain t p
      rcases Nat.lt_or_eq_of_le (Nat.le_of_not_lt beyond) with less | same
      · exact before _ less free
      · rw [same, here] at free
        cases free
    rw [field_in_chain t p i inside] at here
    exact List.mem_of_getElem? here

theorem mem_chain_insert {t : Table ν} {p k : Str} {v w : ν} (free : field t k = none)
    (member : v ∈ chain t p) : v ∈ chain (t.insert k w) p := by
  obtain ⟨i, here, before⟩ := (mem_chain_iff t p v).mp member
  have kept (j : Nat) (filled : field t (slot p j) ≠ none) :
      field (t.insert k w) (slot p j) = field t (slot p j) :=
    field_insert_ne _ _ _ _ fun same => filled (same ▸ free)
  refine (mem_chain_iff _ p v).mpr ⟨i, ?_, fun j less => ?_⟩
  · rw [kept i (by simp [here]), here]
  · rw [kept j (before j less)]
    exact before j less

theorem mem_chain_self (t : Table ν) (p : Str) (v : ν) :
    v ∈ chain (t.insert (slot p (chain t p).length) v) p := by
  refine (mem_chain_iff _ p v).mpr ⟨(chain t p).length, field_insert _ _ _, fun j less => ?_⟩
  rw [field_insert_ne _ _ _ _ (slot_ne_of_number p (by omega)), field_in_chain t p j less,
    List.getElem?_eq_getElem less]
  simp

structure Rows (t : Table ν) (row : Str → List ν) : Prop where
  held : ∀ p n, DigitFree p → field t (slot p n) = (row p)[n]?
  numbered : ∀ k ∈ t, ∃ p n, DigitFree p ∧ k = slot p n

theorem Rows.chain {t : Table ν} {row : Str → List ν} (rows : Rows t row) (p : Str)
    (word : DigitFree p) : chain t p = row p := by
  apply chain_eq
  · intro i _
    exact rows.held p i word
  · rw [rows.held p _ word, List.getElem?_eq_none le_rfl]

theorem Rows.update {t u : Table ν} {row : Str → List ν} (rows : Rows t row) (p : Str)
    (vs : List ν) (word : DigitFree p) (inside : ∀ n, field u (slot p n) = vs[n]?)
    (outside : ∀ k, (∀ n, k ≠ slot p n) → field u k = field t k) :
    Rows u (Function.update row p vs) := by
  constructor
  · intro q n other
    by_cases same : q = p
    · rw [same, inside, Function.update_self]
    · rw [outside _ fun m => slot_ne_of_word n m other word same, rows.held q n other,
        Function.update_of_ne same]
  · intro k stored
    by_cases slotted : ∃ n, k = slot p n
    · obtain ⟨n, rfl⟩ := slotted
      exact ⟨p, n, word, rfl⟩
    · have kept : field u k = field t k := outside k fun n same => slotted ⟨n, same⟩
      refine rows.numbered k (AList.lookup_isSome.mp ?_)
      rw [show AList.lookup k t = field t k from rfl, ← kept]
      exact AList.lookup_isSome.mpr stored

theorem Rows.append {t : Table ν} {row : Str → List ν} (rows : Rows t row) (p : Str) (v : ν)
    (word : DigitFree p) :
    Rows (t.insert (slot p (row p).length) v) (Function.update row p (row p ++ [v])) := by
  apply rows.update p _ word
  · intro n
    by_cases last : n = (row p).length
    · rw [last, List.getElem?_concat_length]
      exact AList.lookup_insert t
    · have other : slot p n ≠ slot p (row p).length := slot_ne_of_number p last
      rw [show field (t.insert (slot p (row p).length) v) (slot p n) = field t (slot p n) from
        AList.lookup_insert_ne other, rows.held p n word]
      by_cases inside : n < (row p).length
      · rw [List.getElem?_append_left inside]
      · rw [List.getElem?_eq_none (by omega), List.getElem?_eq_none (by simp; omega)]
  · intro k apart
    exact AList.lookup_insert_ne (apart _)

end Lua
