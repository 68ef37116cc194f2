import Maccer.Chains
import Maccer.KeyInvariant

/-! One word replaced in the key, whether or not its run stays unbroken. -/

namespace Maccer

open Lua

structure Held (keytbl : Table Str) (w p : Str) (i : Nat) : Prop where
  word : DigitFree p
  same : plain w = .ok p
  here : field keytbl (slot p i) = some w
  before : ∀ j < i, field keytbl (slot p j) ≠ none
  once : ∀ k, field keytbl k = some w → k = slot p i

theorem WellFormed.holds {keytbl : Table Str} (wf : WellFormed keytbl) {w : Str}
    (stored : Stored keytbl w) : ∃ p i, Held keytbl w p i := by
  obtain ⟨p, same, word⟩ : ∃ p, plain w = .ok p ∧ DigitFree p := by
    obtain ⟨p, member⟩ := (wf.represents.stored_iff w).mp stored
    exact ⟨p, wf.dictionary.demacronises p w member, wf.dictionary.word p w member⟩
  have member := (wf.represents.stored_plain same).mp stored
  rw [← wf.represents.chain p word] at member
  obtain ⟨i, here, before⟩ := (mem_chain_iff _ _ _).mp member
  exact ⟨p, i, word, same, here, before, fun k found => wf.distinct _ _ w found here⟩

theorem Held.member {keytbl : Table Str} {w p : Str} {i : Nat} (held : Held keytbl w p i) :
    w ∈ chain keytbl p :=
  (mem_chain_iff _ _ _).mpr ⟨i, held.here, held.before⟩

theorem stored_of_chain {keytbl : Table Str} {w p : Str} (member : w ∈ chain keytbl p) :
    Stored keytbl w := by
  obtain ⟨i, here, _⟩ := (mem_chain_iff _ _ _).mp member
  exact ⟨slot p i, here⟩

/-! The new form is added. -/

theorem learnForm_filled (keytbl : Table Str) (x q : Str) {k w : Str} (found : field keytbl k = some w) :
    field (learnForm keytbl x q) k = some w := by
  unfold learnForm
  split
  · exact found
  · rw [field_insert_ne, found]
    rintro rfl
    rw [field_after_chain] at found
    cases found

theorem learnForm_value (keytbl : Table Str) (x q : Str) {k w : Str}
    (found : field (learnForm keytbl x q) k = some w) : field keytbl k = some w ∨ w = x := by
  unfold learnForm at found
  split at found
  · exact .inl found
  · by_cases here : k = slot q (chain keytbl q).length
    · rw [here, field_insert] at found
      exact .inr (Option.some.inj found).symm
    · rw [field_insert_ne _ _ _ _ here] at found
      exact .inl found

theorem learnForm_stored (keytbl : Table Str) (x q w : Str) :
    Stored (learnForm keytbl x q) w ↔ Stored keytbl w ∨ w = x := by
  constructor
  · rintro ⟨k, found⟩
    exact (learnForm_value keytbl x q found).imp_left fun old => ⟨k, old⟩
  · rintro (⟨k, found⟩ | rfl)
    · exact ⟨k, learnForm_filled keytbl x q found⟩
    · unfold learnForm
      split
      case isTrue member => exact stored_of_chain member
      case isFalse => exact ⟨_, field_insert _ _ _⟩

theorem Held.learnForm {keytbl : Table Str} {w p : Str} {i : Nat} (held : Held keytbl w p i)
    (x q : Str) (apart : w ≠ x) : Held (learnForm keytbl x q) w p i where
  word := held.word
  same := held.same
  here := learnForm_filled keytbl x q held.here
  before j less := by
    obtain ⟨v, found⟩ := Option.ne_none_iff_exists'.mp (held.before j less)
    rw [learnForm_filled keytbl x q found]
    simp
  once k found := held.once k ((learnForm_value keytbl x q found).resolve_right apart)

/-! The old form is removed. -/

section

variable (keytbl partbl : Table Str) (a p : Str) (i n : Nat)

def sourceSlot (i n m : Nat) : Nat := if i ≤ m ∧ m < n then m + 1 else m

theorem keyremoveAt_source (word : DigitFree p) (found : field partbl a = some (slot p i))
    (inside : i < n) (m : Nat) :
    field (keyremoveAt keytbl a p partbl n) (slot p m) =
      if m + 1 = n then none else field keytbl (slot p (sourceSlot i n m)) := by
  rw [keyremoveAt_field keytbl partbl a p i n m word found inside, sourceSlot]
  split
  · rfl
  · split <;> rfl

theorem keyremoveAt_value (word : DigitFree p) (found : field partbl a = some (slot p i))
    (inside : i < n) {k w : Str} (value : field (keyremoveAt keytbl a p partbl n) k = some w) :
    ∃ k', field keytbl k' = some w ∧ ((∀ m, k ≠ slot p m) ∧ k' = k ∨
      ∃ m, k = slot p m ∧ m + 1 ≠ n ∧ k' = slot p (sourceSlot i n m)) := by
  by_cases slotted : ∃ m, k = slot p m
  · obtain ⟨m, rfl⟩ := slotted
    rw [keyremoveAt_source keytbl partbl a p i n word found inside] at value
    split at value
    · cases value
    · exact ⟨_, value, .inr ⟨m, rfl, ‹_›, rfl⟩⟩
  · rw [keyremoveAt_other _ _ _ _ _ _ fun m same => slotted ⟨m, same⟩] at value
    exact ⟨k, value, .inl ⟨fun m same => slotted ⟨m, same⟩, rfl⟩⟩

theorem keyremoveAt_keeps (word : DigitFree p) (found : field partbl a = some (slot p i))
    (inside : i < n) (m : Nat) (other : m ≠ i) :
    field (keyremoveAt keytbl a p partbl n) (slot p (if i < m ∧ m < n then m - 1 else m)) =
      field keytbl (slot p m) := by
  rw [keyremoveAt_source keytbl partbl a p i n word found inside]
  have number : sourceSlot i n (if i < m ∧ m < n then m - 1 else m) = m := by
    unfold sourceSlot
    split <;> split <;> omega
  rw [if_neg, number]
  split <;> omega

theorem keyremoveAt_stored (word : DigitFree p) (found : field partbl a = some (slot p i))
    (inside : i < n) {w : Str} (apart : w ≠ a) (here : field keytbl (slot p i) = some a)
    (stored : Stored keytbl w) : Stored (keyremoveAt keytbl a p partbl n) w := by
  obtain ⟨k, value⟩ := stored
  by_cases slotted : ∃ m, k = slot p m
  · obtain ⟨m, rfl⟩ := slotted
    have other : m ≠ i := by
      rintro rfl
      rw [here] at value
      exact apart (Option.some.inj value).symm
    exact ⟨_, by rw [keyremoveAt_keeps keytbl partbl a p i n word found inside m other, value]⟩
  · exact ⟨k, by rw [keyremoveAt_other _ _ _ _ _ _ fun m same => slotted ⟨m, same⟩, value]⟩

theorem keyremoveAt_gone (found : field partbl a = some (slot p i)) (inside : i < n)
    (held : Held keytbl a p i) : ¬ Stored (keyremoveAt keytbl a p partbl n) a := by
  rintro ⟨k, value⟩
  obtain ⟨k', old, from'⟩ := keyremoveAt_value keytbl partbl a p i n held.word found inside value
  have only := held.once k' old
  rcases from' with ⟨outside, rfl⟩ | ⟨m, rfl, last, rfl⟩
  · exact outside i only
  · have number := slot_number_injective p only
    unfold sourceSlot at number
    split at number <;> omega

theorem Held.keyremoveAt {w q : Str} {j : Nat} (held : Held keytbl w q j) (word : DigitFree p)
    (found : field partbl a = some (slot p i)) (inside : i < n) (apart : w ≠ a)
    (here : field keytbl (slot p i) = some a) (filled : ∀ m < n, field keytbl (slot p m) ≠ none)
    (row : q = p → j < n) :
    ∃ j', Held (keyremoveAt keytbl a p partbl n) w q j' := by
  by_cases same : q = p
  · subst same
    have bound := row rfl
    have other : j ≠ i := by
      rintro rfl
      exact apart (Option.some.inj (held.here.symm.trans here))
    refine ⟨if i < j ∧ j < n then j - 1 else j, word, held.same, ?_, fun m less => ?_, fun k value => ?_⟩
    · rw [keyremoveAt_keeps keytbl partbl a q i n word found inside j other, held.here]
    · have small : m + 1 < n := by split at less <;> omega
      rw [keyremoveAt_source keytbl partbl a q i n word found inside, if_neg (by omega)]
      exact filled _ (by unfold sourceSlot; split <;> omega)
    · obtain ⟨k', old, from'⟩ := keyremoveAt_value keytbl partbl a q i n word found inside value
      have only := held.once k' old
      rcases from' with ⟨outside, rfl⟩ | ⟨m, rfl, last, rfl⟩
      · exact absurd only (outside j)
      · have number := slot_number_injective q only
        congr 1
        unfold sourceSlot at number
        split at number <;> split <;> omega
  · have kept (m : Nat) : field (Maccer.keyremoveAt keytbl a p partbl n) (slot q m) =
        field keytbl (slot q m) :=
      keyremoveAt_other _ _ _ _ _ _ fun m' => slot_ne_of_word m m' held.word word same
    refine ⟨j, held.word, held.same, by rw [kept, held.here], fun m less => ?_, fun k value => ?_⟩
    · rw [kept]
      exact held.before m less
    · obtain ⟨k', old, from'⟩ := keyremoveAt_value keytbl partbl a p i n word found inside value
      have only := held.once k' old
      rcases from' with ⟨_, rfl⟩ | ⟨m, rfl, _, rfl⟩
      · exact only
      · exact absurd only.symm (slot_ne_of_word _ _ held.word word same)

end

/-! Both together, as `replaceword` does them. -/

def replaced (keytbl : Table Str) (orig repl p q : Str) : Table Str :=
  keyremoveAt (addReplacement keytbl repl q) orig p (parallels keytbl p) (chain keytbl p).length

section

variable {keytbl : Table Str} {orig repl p q : Str}

theorem replaced_slots (repl q : Str) (member : orig ∈ chain keytbl p) :
    ∃ i, field (parallels keytbl p) orig = some (slot p i) ∧ i < (chain keytbl p).length ∧
      field (learnForm keytbl repl q) (slot p i) = some orig ∧
      ∀ m < (chain keytbl p).length, field (learnForm keytbl repl q) (slot p m) ≠ none := by
  obtain ⟨i, here, found⟩ := field_parallels keytbl p orig member
  refine ⟨i, found, (List.getElem?_eq_some_iff.mp here).1,
    learnForm_filled _ _ _ (field_of_chain _ _ _ _ here), fun m less => ?_⟩
  have filled := field_in_chain keytbl p m less
  rw [List.getElem?_eq_getElem less] at filled
  rw [learnForm_filled _ _ _ filled]
  simp

theorem replaced_stored (word : DigitFree p) (member : orig ∈ chain keytbl p) {w : Str}
    (apart : w ≠ orig) (stored : Stored keytbl w ∨ w = repl) : Stored (replaced keytbl orig repl p q) w := by
  obtain ⟨i, found, inside, here, _⟩ := replaced_slots repl q member
  rw [replaced, addReplacement_eq]
  exact keyremoveAt_stored _ _ _ _ _ _ word found inside apart here
    ((learnForm_stored keytbl repl q w).mpr stored)

theorem replaced_held (word : DigitFree p) (member : orig ∈ chain keytbl p) {w r : Str} {j : Nat}
    (held : Held keytbl w r j) (apart : w ≠ orig) (apart' : w ≠ repl) :
    ∃ j', Held (replaced keytbl orig repl p q) w r j' := by
  obtain ⟨i, found, inside, here, filled⟩ := replaced_slots repl q member
  rw [replaced, addReplacement_eq]
  refine (held.learnForm repl q apart').keyremoveAt _ _ _ _ _ _ word found inside apart here filled ?_
  rintro rfl
  by_contra beyond
  have free := field_after_chain keytbl r
  rcases Nat.lt_or_eq_of_le (Nat.le_of_not_lt beyond) with less | equal
  · exact held.before _ less free
  · rw [equal, held.here] at free
    cases free

theorem stored_replaced {i : Nat} (held : Held keytbl orig p i) (apart : orig ≠ repl) (w : Str) :
    Stored (replaced keytbl orig repl p q) w ↔ (Stored keytbl w ∧ w ≠ orig) ∨ w = repl := by
  obtain ⟨i', found, inside, here, _⟩ := replaced_slots repl q held.member
  constructor
  · intro stored
    have grown := held.learnForm repl q apart
    have equal : i = i' := slot_number_injective p (grown.once _ here).symm
    subst equal
    rw [replaced, addReplacement_eq] at stored
    have other : w ≠ orig := by
      rintro rfl
      exact keyremoveAt_gone _ _ _ _ _ _ found inside grown stored
    obtain ⟨k, value⟩ := stored
    obtain ⟨k', old, _⟩ := keyremoveAt_value _ _ _ _ _ _ held.word found inside value
    exact ((learnForm_stored keytbl repl q w).mp ⟨k', old⟩).imp_left fun before => ⟨before, other⟩
  · rintro (⟨stored, other⟩ | rfl)
    · exact replaced_stored held.word held.member other (.inl stored)
    · exact replaced_stored held.word held.member (Ne.symm apart) (.inr rfl)

end

end Maccer
