import Maccer.Parallels

/-! What the key is for: a dictionary of forms under their plain words. -/

namespace Maccer

open Lua

structure Dictionary where
  forms : Str → List Str
  word : ∀ p, ∀ w ∈ forms p, DigitFree p
  demacronises : ∀ p, ∀ w ∈ forms p, plain w = .ok p
  distinct : ∀ p, (forms p).Nodup

def Represents (keytbl : Table Str) (d : Dictionary) : Prop := Rows keytbl d.forms

def Stored (keytbl : Table Str) (w : Str) : Prop := ∃ k, field keytbl k = some w

instance (keytbl : Table Str) (w : Str) : Decidable (Stored keytbl w) :=
  decidable_of_iff (∃ e ∈ keytbl.entries, e.2 = w) <| by
    constructor
    · rintro ⟨⟨k, v⟩, member, rfl⟩
      exact ⟨k, AList.mem_lookup_iff.mpr member⟩
    · rintro ⟨k, found⟩
      exact ⟨⟨k, w⟩, AList.mem_lookup_iff.mp found, rfl⟩

/-- The word key as `macra.lua` keeps it: plain words with and without a number,
in unbroken runs, each form once and under its own plain word. -/
structure WellFormed (keytbl : Table Str) : Prop where
  numbered : ∀ k ∈ keytbl, ∃ p n, DigitFree p ∧ k = slot p n
  unbroken : ∀ p n, DigitFree p → slot p (n + 1) ∈ keytbl → slot p n ∈ keytbl
  demacronises : ∀ p n w, DigitFree p → field keytbl (slot p n) = some w → plain w = .ok p
  distinct : ∀ k other w, field keytbl k = some w → field keytbl other = some w → k = other

theorem field_eq_none {ν : Type} (t : Table ν) (k : Str) : field t k = none ↔ k ∉ t :=
  AList.lookup_eq_none

theorem plain_digitFree {w p : Str} (same : plain w = .ok p) (word : DigitFree w) : DigitFree p := by
  simp only [plain, Utf8.replace] at same
  split at same
  case isFalse => cases same
  case isTrue whole =>
      have joined : (Utf8.chars w).1.flatten = w := by
        simpa [whole] using Utf8.chars_join w
      cases same
      intro b member
      obtain ⟨c, present, inside⟩ := List.mem_flatMap.mp member
      cases entry : field unicode.macroninvtbl c with
      | none =>
          rw [entry] at inside
          exact word b (by rw [← joined]; exact List.mem_flatten.mpr ⟨c, present, inside⟩)
      | some letter =>
          rw [entry] at inside
          exact plain_letters ⟨c, letter⟩ (AList.mem_lookup_iff.mp entry) b inside

namespace WellFormed

variable {keytbl : Table Str}

theorem filled_below (wf : WellFormed keytbl) (p : Str) (word : DigitFree p) (n k : Nat)
    (stored : slot p (n + k) ∈ keytbl) : slot p n ∈ keytbl := by
  induction k with
  | zero => exact stored
  | succ k ih => exact ih (wf.unbroken p (n + k) word stored)

theorem held (wf : WellFormed keytbl) (p : Str) (n : Nat) (word : DigitFree p) :
    field keytbl (slot p n) = (chain keytbl p)[n]? := by
  by_cases inside : n < (chain keytbl p).length
  · exact field_in_chain keytbl p n inside
  · rw [List.getElem?_eq_none (by omega), field_eq_none]
    intro stored
    have free := (field_eq_none _ _).mp (field_after_chain keytbl p)
    refine free (wf.filled_below p word _ (n - (chain keytbl p).length) ?_)
    rwa [Nat.add_sub_cancel' (by omega)]

theorem plain_of_chain (wf : WellFormed keytbl) {p w : Str} (word : DigitFree p)
    (member : w ∈ chain keytbl p) : plain w = .ok p := by
  obtain ⟨n, here⟩ := List.mem_iff_getElem?.mp member
  exact wf.demacronises p n w word (field_of_chain keytbl p n w here)

theorem chain_nodup (wf : WellFormed keytbl) (p : Str) : (chain keytbl p).Nodup := by
  rw [List.nodup_iff_getElem?_ne_getElem?]
  intro i j less bound same
  have first : field keytbl (slot p i) = some (chain keytbl p)[j] := by
    rw [field_in_chain _ _ _ (by omega), same, List.getElem?_eq_getElem bound]
  have second : field keytbl (slot p j) = some (chain keytbl p)[j] := by
    rw [field_in_chain _ _ _ bound, List.getElem?_eq_getElem bound]
  have equal := slot_number_injective p (wf.distinct _ _ _ first second)
  omega

def dictionary (wf : WellFormed keytbl) : Dictionary where
  forms p := if DigitFree p then chain keytbl p else []
  word p w member := by
    by_contra digits
    simp [digits] at member
  demacronises p w member := by
    by_cases word : DigitFree p
    · exact wf.plain_of_chain word (by simpa [word] using member)
    · simp [word] at member
  distinct p := by
    split
    · exact wf.chain_nodup p
    · exact List.nodup_nil

theorem represents (wf : WellFormed keytbl) : Represents keytbl wf.dictionary where
  held p n word := by simpa [dictionary, word] using wf.held p n word
  numbered := wf.numbered

end WellFormed

namespace Represents

variable {keytbl : Table Str} {d : Dictionary}

theorem chain (rep : Represents keytbl d) (p : Str) (word : DigitFree p) :
    Lua.chain keytbl p = d.forms p :=
  Rows.chain rep p word

theorem field_slot (rep : Represents keytbl d) {k w : Str} (found : field keytbl k = some w) :
    ∃ p n, DigitFree p ∧ k = slot p n ∧ (d.forms p)[n]? = some w := by
  obtain ⟨p, n, word, rfl⟩ := rep.numbered k (mem_of_field found)
  exact ⟨p, n, word, rfl, by rw [← rep.held p n word, found]⟩

theorem wellFormed (rep : Represents keytbl d) : WellFormed keytbl where
  numbered := rep.numbered
  unbroken p n word stored := by
    obtain ⟨w, found⟩ := exists_field stored
    rw [rep.held p (n + 1) word] at found
    have bound := (List.getElem?_eq_some_iff.mp found).1
    refine mem_of_field (v := (d.forms p)[n]) ?_
    rw [rep.held p n word, List.getElem?_eq_getElem]
  demacronises p n w word found := by
    rw [rep.held p n word] at found
    exact d.demacronises p w (List.mem_of_getElem? found)
  distinct k other w left right := by
    obtain ⟨p, m, _, rfl, first⟩ := rep.field_slot left
    obtain ⟨q, n, _, rfl, second⟩ := rep.field_slot right
    have words : p = q := by
      have plains := (d.demacronises p w (List.mem_of_getElem? first)).symm.trans
        (d.demacronises q w (List.mem_of_getElem? second))
      exact Except.ok.inj plains
    subst words
    have bound := (List.getElem?_eq_some_iff.mp first).1
    rw [(List.getElem?_inj bound (d.distinct p)).mp (first.trans second.symm)]

theorem stored_iff (rep : Represents keytbl d) (w : Str) :
    Stored keytbl w ↔ ∃ p, w ∈ d.forms p := by
  constructor
  · rintro ⟨k, found⟩
    obtain ⟨p, n, _, _, here⟩ := rep.field_slot found
    exact ⟨p, List.mem_of_getElem? here⟩
  · rintro ⟨p, member⟩
    obtain ⟨n, here⟩ := List.mem_iff_getElem?.mp member
    exact ⟨slot p n, by rw [rep.held p n (d.word p w member), here]⟩

theorem stored_plain (rep : Represents keytbl d) {w p : Str} (same : plain w = .ok p) :
    Stored keytbl w ↔ w ∈ d.forms p := by
  rw [rep.stored_iff]
  constructor
  · rintro ⟨q, member⟩
    have words := (d.demacronises q w member).symm.trans same
    rwa [← Except.ok.inj words]
  · exact fun member => ⟨p, member⟩

end Represents

def Dictionary.learn (d : Dictionary) (w p : Str) (same : plain w = .ok p) (word : DigitFree p) :
    Dictionary where
  forms := Function.update d.forms p (if w ∈ d.forms p then d.forms p else d.forms p ++ [w])
  word q v member := by
    by_cases here : q = p
    · rwa [here]
    · exact d.word q v (by simpa [here] using member)
  demacronises q v member := by
    by_cases here : q = p
    · subst here
      rw [Function.update_self] at member
      split at member
      · exact d.demacronises q v member
      · rcases List.mem_append.mp member with old | new
        · exact d.demacronises q v old
        · rwa [List.mem_singleton.mp new]
    · exact d.demacronises q v (by simpa [here] using member)
  distinct q := by
    by_cases here : q = p
    · subst here
      rw [Function.update_self]
      split
      · exact d.distinct q
      case isFalse absent =>
          exact List.nodup_append.mpr ⟨d.distinct q, List.nodup_singleton w, by
            rintro v old v' new rfl
            exact absent (List.mem_singleton.mp new ▸ old)⟩
    · rw [Function.update_of_ne here]
      exact d.distinct q

def Dictionary.forget (d : Dictionary) (w p : Str) : Dictionary where
  forms := Function.update d.forms p ((d.forms p).erase w)
  word q v member := by
    by_cases here : q = p
    · subst here
      exact d.word q v (List.mem_of_mem_erase (by simpa using member))
    · exact d.word q v (by simpa [here] using member)
  demacronises q v member := by
    by_cases here : q = p
    · subst here
      exact d.demacronises q v (List.mem_of_mem_erase (by simpa using member))
    · exact d.demacronises q v (by simpa [here] using member)
  distinct q := by
    by_cases here : q = p
    · subst here
      rw [Function.update_self]
      exact (d.distinct q).erase w
    · rw [Function.update_of_ne here]
      exact d.distinct q

theorem Dictionary.mem_learn (d : Dictionary) {w p : Str} (same : plain w = .ok p)
    (word : DigitFree p) (q v : Str) :
    v ∈ (d.learn w p same word).forms q ↔ v ∈ d.forms q ∨ (q = p ∧ v = w) := by
  by_cases here : q = p
  · subst here
    by_cases present : w ∈ d.forms q
    · simp only [learn, Function.update_self, if_pos present, true_and]
      exact ⟨Or.inl, fun either => either.elim id fun equal => equal ▸ present⟩
    · simp [learn, present]
  · simp [learn, here]

theorem Dictionary.mem_forget (d : Dictionary) (w p q v : Str) :
    v ∈ (d.forget w p).forms q ↔ v ∈ d.forms q ∧ (q = p → v ≠ w) := by
  by_cases here : q = p
  · subst here
    simp [forget, (d.distinct q).mem_erase_iff, and_comm]
  · simp [forget, here]

theorem wellFormed_iff (keytbl : Table Str) :
    WellFormed keytbl ↔ ∃ d, Represents keytbl d :=
  ⟨fun wf => ⟨wf.dictionary, wf.represents⟩, fun ⟨_, rep⟩ => rep.wellFormed⟩

/-! What the operations of the source do to the dictionary. -/

def learnForm (keytbl : Table Str) (w p : Str) : Table Str :=
  if w ∈ chain keytbl p then keytbl else keytbl.insert (slot p (chain keytbl p).length) w

theorem Represents.learnForm {keytbl : Table Str} {d : Dictionary} (rep : Represents keytbl d)
    {w p : Str} (same : plain w = .ok p) (word : DigitFree p) :
    Represents (learnForm keytbl w p) (d.learn w p same word) := by
  unfold Maccer.learnForm
  rw [rep.chain p word]
  by_cases present : w ∈ d.forms p
  · have unchanged : (d.learn w p same word).forms = d.forms := by
      simp [Dictionary.learn, present]
    rw [if_pos present, Represents, unchanged]
    exact rep
  · have longer : (d.learn w p same word).forms = Function.update d.forms p (d.forms p ++ [w]) := by
      simp [Dictionary.learn, present]
    rw [if_neg present, Represents, longer]
    exact Rows.append rep p w word

theorem wellFormed_empty : WellFormed ∅ where
  numbered k stored := absurd stored (by simp)
  unbroken p n _ stored := absurd stored (by simp)
  demacronises p n w _ found := absurd (mem_of_field found) (by simp)
  distinct k _ w found _ := absurd (mem_of_field found) (by simp)

theorem WellFormed.learnForm {keytbl : Table Str} (wf : WellFormed keytbl) {w p : Str}
    (same : plain w = .ok p) (word : DigitFree w) : WellFormed (learnForm keytbl w p) :=
  (wf.represents.learnForm same (plain_digitFree same word)).wellFormed

theorem addword_eq (keytbl : Table Str) {w p : Str} (same : plain w = .ok p) :
    addword keytbl w = .ok (learnForm keytbl w p, decide (w ∉ chain keytbl p)) := by
  simp only [addword, same, getpars_eq]
  by_cases empty : chain keytbl p = []
  · simp [empty, learnForm]
  · have positive : (chain keytbl p).length ≠ 0 := by simpa using empty
    by_cases present : w ∈ chain keytbl p
    · simp [empty, learnForm, present, field_parallels_none]
    · simp [empty, learnForm, present, field_parallels_none,
        slot_pos p _ positive]

theorem keyremoveAt_refines {keytbl : Table Str} {d : Dictionary} (rep : Represents keytbl d)
    {w p : Str} (word : DigitFree p) :
    Represents (keyremoveAt keytbl w p (parallels keytbl p) (chain keytbl p).length)
      (d.forget w p) := by
  by_cases present : w ∈ chain keytbl p
  · obtain ⟨i, here, found⟩ := field_parallels keytbl p w present
    have bound := (List.getElem?_eq_some_iff.mp here).1
    refine Rows.update rep p _ word ?_ fun k apart => keyremoveAt_other keytbl _ w p k _ apart
    intro n
    rw [keyremoveAt_field keytbl _ w p i _ n word found bound]
    rw [rep.chain p word] at here bound ⊢
    have position : (d.forms p).idxOf w = i := by
      obtain ⟨_, rfl⟩ := List.getElem?_eq_some_iff.mp here
      exact (d.distinct p).idxOf_getElem i bound
    rw [List.erase_eq_eraseIdx_of_idxOf position, List.getElem?_eraseIdx, rep.held p _ word,
      rep.held p _ word]
    split
    case isTrue last =>
        split
        · omega
        · rw [List.getElem?_eq_none (by omega)]
    case isFalse =>
        split
        · rw [if_neg (by omega)]
        · split
          · rfl
          · rw [List.getElem?_eq_none (by omega), List.getElem?_eq_none (by omega)]
  · have absent := (field_parallels_none keytbl p w).mpr present
    have unchanged : (d.forget w p).forms = d.forms := by
      rw [rep.chain p word] at present
      simp [Dictionary.forget, List.erase_of_not_mem present]
    simp only [keyremoveAt, absent]
    rw [Represents, unchanged]
    exact rep

theorem keyremove_eq (keytbl : Table Str) {w p : Str} (same : plain w = .ok p)
    (known : chain keytbl p ≠ []) :
    keyremove keytbl w =
      .ok (keyremoveAt keytbl w p (parallels keytbl p) (chain keytbl p).length) := by
  simp [keyremove, same, getpars_eq, known]

end Maccer
