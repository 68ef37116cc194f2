import Maccer.Lua.Literals

/-! Where a search that goes on behind each match finds a word. -/

namespace Lua

variable {α : Type} {word s s' : List α} {i j : Nat}

def Hit (word s : List α) (i : Nat) : Prop :=
  word <+: s.drop i ∧ ∀ j, (less : j < i) → Hit word s j → j + word.length ≤ i
termination_by i

theorem hit_iff : Hit word s i ↔ word <+: s.drop i ∧ ∀ j < i, Hit word s j → j + word.length ≤ i := by
  rw [Hit]

theorem Hit.here (hit : Hit word s i) : word <+: s.drop i := (hit_iff.mp hit).1

theorem Hit.apart (first : Hit word s i) (second : Hit word s j) (less : i < j) : i + word.length ≤ j :=
  (hit_iff.mp second).2 i less first

/-- A word that stands somewhere is found there, unless it has been found before and reaches so far. -/
theorem hit_or_before (here : word <+: s.drop i) : Hit word s i ∨ ∃ j < i, Hit word s j ∧ i < j + word.length := by
  by_cases before : ∃ j < i, Hit word s j ∧ i < j + word.length
  · exact .inr before
  · refine .inl (hit_iff.mpr ⟨here, fun j less hit => ?_⟩)
    exact Nat.le_of_not_lt fun within => before ⟨j, less, hit, within⟩

/-- What is changed in a text does not matter, if the word still stands where it has been found
and stands nowhere else than before. -/
theorem hit_congr (keeps : ∀ i, Hit word s i → word <+: s'.drop i) (adds : ∀ i, word <+: s'.drop i → word <+: s.drop i)
    (i : Nat) : Hit word s' i ↔ Hit word s i := by
  induction i using Nat.strong_induction_on with
  | _ i ih =>
    constructor
    · intro hit
      refine hit_iff.mpr ⟨adds i hit.here, fun j less before => ?_⟩
      exact ((ih j less).mpr before).apart hit less
    · intro hit
      refine hit_iff.mpr ⟨keeps i hit, fun j less before => ?_⟩
      exact ((ih j less).mp before).apart hit less

theorem FirstAt.hit {word s : Str} {k i : Nat} (first : FirstAt word s k i)
    (reached : ∀ j < k, Hit word s j → j + word.length ≤ k) : Hit word s i := by
  refine hit_iff.mpr ⟨first.here, fun j less hit => ?_⟩
  have inside := first.inside
  by_cases before : j < k
  · exact (reached j before hit).trans inside
  · exact absurd hit.here (first.first j (Nat.le_of_not_lt before) less)

end Lua
