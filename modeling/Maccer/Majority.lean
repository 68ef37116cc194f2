import Mathlib.Tactic

/-! The heaviest of a list of choices, and when it outweighs the others. -/

namespace Majority

variable {α : Type} (weight : α → Nat)

def step (state : Option (α × Nat) × Nat) (a : α) : Option (α × Nat) × Nat :=
  let top :=
    match state.1 with
    | none => (a, weight a)
    | some top => if weight a > top.2 then (a, weight a) else top
  (some top, state.2 + weight a)

def total (as : List α) : Nat := (as.map weight).sum

def Outweighs (q : ℚ) (as : List α) (a : α) : Prop :=
  a ∈ as ∧ 0 < total weight as ∧ q ≤ (weight a : ℚ) / total weight as

variable {weight} {as : List α}

theorem foldl_step_some (as : List α) (m : α) (sum : Nat) :
    ∃ m', (m' = m ∨ m' ∈ as) ∧ weight m ≤ weight m' ∧ (∀ a ∈ as, weight a ≤ weight m') ∧
      as.foldl (step weight) (some (m, weight m), sum) = (some (m', weight m'), sum + total weight as) := by
  induction as generalizing m sum with
  | nil => exact ⟨m, .inl rfl, le_rfl, by simp, by simp [total]⟩
  | cons a as ih =>
      have heavier : step weight (some (m, weight m), sum) a =
          (some (if weight a > weight m then (a, weight a) else (m, weight m)), sum + weight a) := rfl
      have added : sum + total weight (a :: as) = sum + weight a + total weight as := by
        simp only [total, List.map_cons, List.sum_cons]
        omega
      rw [List.foldl_cons, heavier, added]
      split
      case isTrue more =>
          obtain ⟨m', member, above, all, folded⟩ := ih a (sum + weight a)
          refine ⟨m', .inr ?_, by omega, fun b here => ?_, folded⟩
          · rcases member with rfl | later
            · exact List.mem_cons_self
            · exact List.mem_cons_of_mem _ later
          · rcases List.mem_cons.mp here with rfl | later
            · exact above
            · exact all b later
      case isFalse less =>
          obtain ⟨m', member, above, all, folded⟩ := ih m (sum + weight a)
          refine ⟨m', member.imp_right (List.mem_cons_of_mem _), above, fun b here => ?_, folded⟩
          rcases List.mem_cons.mp here with rfl | later
          · omega
          · exact all b later

theorem foldl_step (some : as ≠ []) :
    ∃ m ∈ as, (∀ a ∈ as, weight a ≤ weight m) ∧
      as.foldl (step weight) (none, 0) = (.some (m, weight m), total weight as) := by
  obtain ⟨a, as, rfl⟩ := List.exists_cons_of_ne_nil some
  obtain ⟨m, member, above, all, folded⟩ := @foldl_step_some _ weight as a (weight a)
  refine ⟨m, ?_, fun b here => ?_, ?_⟩
  · rcases member with rfl | later
    · exact List.mem_cons_self
    · exact List.mem_cons_of_mem _ later
  · rcases List.mem_cons.mp here with rfl | later
    · exact above
    · exact all b later
  · have first : step weight (none, 0) a = (.some (a, weight a), weight a) := by simp [step]
    rw [List.foldl_cons, first, folded]
    simp [total]

theorem weight_le_total {a : α} (member : a ∈ as) : weight a ≤ total weight as :=
  List.single_le_sum (by simp) _ (List.mem_map.mpr ⟨a, member, rfl⟩)

theorem pair_le_total {a b : α} (first : a ∈ as) (second : b ∈ as) (apart : a ≠ b) :
    weight a + weight b ≤ total weight as := by
  obtain ⟨front, back, rfl⟩ := List.append_of_mem first
  have other : b ∈ front ++ back := by simpa [apart.symm] using second
  have rest := @weight_le_total _ weight _ _ other
  simp only [total, List.map_append, List.map_cons, List.sum_append, List.sum_cons] at rest ⊢
  omega

theorem Outweighs.unique {q : ℚ} (half : 1 / 2 < q) {a b : α} (outweighs : Outweighs weight q as a)
    (member : b ∈ as) (apart : b ≠ a) : weight b < weight a := by
  obtain ⟨present, positive, share⟩ := outweighs
  have both := @pair_le_total _ weight _ _ _ present member apart.symm
  have above : (0 : ℚ) < total weight as := by exact_mod_cast positive
  have more : (total weight as : ℚ) < 2 * weight a := by
    have most : q * total weight as ≤ weight a := (le_div_iff₀ above).mp share
    nlinarith
  have natural : total weight as < 2 * weight a := by exact_mod_cast more
  omega

theorem Outweighs.eq_of_heaviest {q : ℚ} (half : 1 / 2 < q) {a m : α}
    (outweighs : Outweighs weight q as a) (member : m ∈ as)
    (heaviest : ∀ b ∈ as, weight b ≤ weight m) : a = m := by
  by_contra apart
  have less := outweighs.unique half member (Ne.symm apart)
  have most := heaviest a outweighs.1
  omega

theorem total_perm {bs : List α} (perm : as.Perm bs) : total weight as = total weight bs :=
  (perm.map weight).sum_eq

theorem outweighs_perm {q : ℚ} {bs : List α} (perm : as.Perm bs) (a : α) :
    Outweighs weight q as a ↔ Outweighs weight q bs a := by
  rw [Outweighs, Outweighs, perm.mem_iff, total_perm perm]

end Majority
