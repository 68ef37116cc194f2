import Mathlib.Algebra.BigOperators.Group.Finset.Basic
import Maccer.Ledger

/-! Ledgers in which what stood at one form is transferred to another. -/

namespace Ledger

variable {Form Source : Type} [DecidableEq Form]

def transfer (l : Ledger Form Source) (orig repl : Form) : Ledger Form Source where
  forms := insert repl (l.forms \ {orig})
  frequency := Function.update (Function.update l.frequency repl (l.frequency repl + l.frequency orig)) orig 0
  headers := Function.update (Function.update l.headers repl (l.headers repl ∪ l.headers orig)) orig ∅

def Totals (l : Ledger Form Source) (total : Nat) : Prop :=
  ∃ forms : Finset Form, (∀ w, w ∈ forms ↔ w ∈ l.forms) ∧ ∑ w ∈ forms, l.frequency w = total

structure Sourced (l : Ledger Form Source) (listed : Set Source) : Prop where
  blank : ∀ w, w ∉ l.forms → l.frequency w = 0 ∧ l.headers w = ∅
  met : ∀ w, 0 < l.frequency w ↔ (l.headers w).Nonempty
  within : ∀ w, l.headers w ⊆ listed

/-! One entry and one transfer, form by form. -/

theorem record_here (l : Ledger Form Source) (entry : Source × Form) :
    (l.record entry).frequency entry.2 = l.frequency entry.2 + 1 ∧
      (l.record entry).headers entry.2 = insert entry.1 (l.headers entry.2) :=
  ⟨Function.update_self _ _ _, Function.update_self _ _ _⟩

theorem record_other (l : Ledger Form Source) (entry : Source × Form) {w : Form} (other : w ≠ entry.2) :
    (l.record entry).frequency w = l.frequency w ∧ (l.record entry).headers w = l.headers w :=
  ⟨Function.update_of_ne other _ _, Function.update_of_ne other _ _⟩

theorem transfer_orig (l : Ledger Form Source) (orig repl : Form) :
    (l.transfer orig repl).frequency orig = 0 ∧ (l.transfer orig repl).headers orig = ∅ :=
  ⟨Function.update_self _ _ _, Function.update_self _ _ _⟩

theorem transfer_repl (l : Ledger Form Source) {orig repl : Form} (apart : orig ≠ repl) :
    (l.transfer orig repl).frequency repl = l.frequency repl + l.frequency orig ∧
      (l.transfer orig repl).headers repl = l.headers repl ∪ l.headers orig :=
  ⟨(Function.update_of_ne apart.symm _ _).trans (Function.update_self _ _ _),
    (Function.update_of_ne apart.symm _ _).trans (Function.update_self _ _ _)⟩

theorem transfer_other (l : Ledger Form Source) {orig repl w : Form} (left : w ≠ orig) (right : w ≠ repl) :
    (l.transfer orig repl).frequency w = l.frequency w ∧ (l.transfer orig repl).headers w = l.headers w :=
  ⟨(Function.update_of_ne left _ _).trans (Function.update_of_ne right _ _),
    (Function.update_of_ne left _ _).trans (Function.update_of_ne right _ _)⟩

/-! The meetings of all forms. -/

omit [DecidableEq Form] in
theorem Totals.unique {l : Ledger Form Source} {total total' : Nat} (totals : l.Totals total)
    (totals' : l.Totals total') : total = total' := by
  obtain ⟨forms, members, sum⟩ := totals
  obtain ⟨forms', members', sum'⟩ := totals'
  have same : forms = forms' := Finset.ext fun w => (members w).trans (members' w).symm
  rw [← sum, ← sum', same]

theorem sum_without {f : Form → Nat} (s : Finset Form) (w : Form) (blank : w ∉ s → f w = 0) :
    ∑ v ∈ s, f v = f w + ∑ v ∈ s.erase w, f v := by
  by_cases member : w ∈ s
  · exact (Finset.add_sum_erase s f member).symm
  · rw [blank member, Finset.erase_eq_of_notMem member, Nat.zero_add]

theorem Totals.record {l : Ledger Form Source} {total : Nat} (totals : l.Totals total)
    (blank : ∀ w, w ∉ l.forms → l.frequency w = 0) (entry : Source × Form) : (l.record entry).Totals (total + 1) := by
  obtain ⟨forms, members, sum⟩ := totals
  have others : ∑ v ∈ forms.erase entry.2, (l.record entry).frequency v = ∑ v ∈ forms.erase entry.2, l.frequency v :=
    Finset.sum_congr rfl fun v member => (l.record_other entry (Finset.ne_of_mem_erase member)).1
  refine ⟨insert entry.2 forms, fun w => ?_, ?_⟩
  · rw [Finset.mem_insert, members]
    rfl
  · calc
      _ = (l.record entry).frequency entry.2 + ∑ v ∈ forms.erase entry.2, (l.record entry).frequency v := by
        rw [sum_without _ entry.2 fun absent => absurd (Finset.mem_insert_self _ _) absent, Finset.erase_insert_eq_erase]
      _ = l.frequency entry.2 + ∑ v ∈ forms.erase entry.2, l.frequency v + 1 := by
          rw [(l.record_here entry).1, others]
          omega
      _ = total + 1 := by
        rw [← sum_without forms entry.2 fun absent => blank _ fun known => absent ((members _).mpr known), sum]

theorem Totals.transfer {l : Ledger Form Source} {total : Nat} (totals : l.Totals total)
    (blank : ∀ w, w ∉ l.forms → l.frequency w = 0) {orig repl : Form} (apart : orig ≠ repl) :
    (l.transfer orig repl).Totals total := by
  obtain ⟨forms, members, sum⟩ := totals
  have empty (w : Form) (absent : w ∉ forms) : l.frequency w = 0 := blank w fun known => absent ((members w).mpr known)
  have others : ∑ v ∈ (forms.erase orig).erase repl, (l.transfer orig repl).frequency v =
      ∑ v ∈ (forms.erase orig).erase repl, l.frequency v := by
    apply Finset.sum_congr rfl
    intro v member
    have ⟨notRepl, member⟩ := Finset.mem_erase.mp member
    exact (l.transfer_other (Finset.ne_of_mem_erase member) notRepl).1
  refine ⟨insert repl (forms.erase orig), fun w => ?_, ?_⟩
  · rw [Finset.mem_insert, Finset.mem_erase, members, and_comm]
    rfl
  · calc
      _ = (l.transfer orig repl).frequency repl +
          ∑ v ∈ (forms.erase orig).erase repl, (l.transfer orig repl).frequency v := by
        rw [sum_without _ repl fun absent => absurd (Finset.mem_insert_self _ _) absent, Finset.erase_insert_eq_erase]
      _ = l.frequency orig + (l.frequency repl + ∑ v ∈ (forms.erase orig).erase repl, l.frequency v) := by
        rw [(l.transfer_repl apart).1, others]
        omega
      _ = l.frequency orig + ∑ v ∈ forms.erase orig, l.frequency v := by
        rw [sum_without (forms.erase orig) repl fun absent => ?_]
        exact empty repl fun member => absent (Finset.mem_erase.mpr ⟨apart.symm, member⟩)
      _ = total := by rw [← sum_without forms orig (empty orig), sum]

theorem Sourced.record {l : Ledger Form Source} {listed : Set Source} (sourced : l.Sourced listed)
    {entry : Source × Form} (header : entry.1 ∈ listed) : (l.record entry).Sourced listed := by
  refine ⟨fun w absent => ?_, fun w => ?_, fun w => ?_⟩
  · have other : w ≠ entry.2 := fun same => absent (.inl same)
    rw [(l.record_other entry other).1, (l.record_other entry other).2]
    exact sourced.blank w fun known => absent (.inr known)
  · by_cases same : w = entry.2
    · rw [same, (l.record_here entry).1, (l.record_here entry).2]
      exact iff_of_true (Nat.succ_pos _) (Set.insert_nonempty _ _)
    · rw [(l.record_other entry same).1, (l.record_other entry same).2]
      exact sourced.met w
  · by_cases same : w = entry.2
    · rw [same, (l.record_here entry).2]
      exact Set.insert_subset header (sourced.within _)
    · rw [(l.record_other entry same).2]
      exact sourced.within w

theorem Sourced.transfer {l : Ledger Form Source} {listed : Set Source} (sourced : l.Sourced listed)
    {orig repl : Form} (apart : orig ≠ repl) : (l.transfer orig repl).Sourced listed := by
  refine ⟨fun w absent => ?_, fun w => ?_, fun w => ?_⟩
  · by_cases left : w = orig
    · rw [left]
      exact l.transfer_orig orig repl
    · have right : w ≠ repl := fun same => absent (.inl same)
      rw [(l.transfer_other left right).1, (l.transfer_other left right).2]
      exact sourced.blank w fun known => absent (.inr ⟨known, left⟩)
  · by_cases left : w = orig
    · rw [left, (l.transfer_orig orig repl).1, (l.transfer_orig orig repl).2]
      exact iff_of_false (lt_irrefl 0) Set.not_nonempty_empty
    · by_cases right : w = repl
      · rw [right, (l.transfer_repl apart).1, (l.transfer_repl apart).2, Set.union_nonempty, ← sourced.met,
          ← sourced.met]
        omega
      · rw [(l.transfer_other left right).1, (l.transfer_other left right).2]
        exact sourced.met w
  · by_cases left : w = orig
    · rw [left, (l.transfer_orig orig repl).2]
      exact Set.empty_subset _
    · by_cases right : w = repl
      · rw [right, (l.transfer_repl apart).2]
        exact Set.union_subset (sourced.within _) (sourced.within _)
      · rw [(l.transfer_other left right).2]
        exact sourced.within w

theorem Sourced.recordAll {l : Ledger Form Source} {listed : Set Source} (sourced : l.Sourced listed)
    (met : List (Source × Form)) (headers : ∀ entry ∈ met, entry.1 ∈ listed) : (l.recordAll met).Sourced listed := by
  induction met generalizing l with
  | nil => exact sourced
  | cons entry met ih => exact ih (sourced.record (headers entry (by simp))) fun e member => headers e (by simp [member])

theorem Totals.recordAll {l : Ledger Form Source} {total : Nat} (totals : l.Totals total)
    (blank : ∀ w, w ∉ l.forms → l.frequency w = 0) (met : List (Source × Form)) :
    (l.recordAll met).Totals (total + met.length) := by
  induction met generalizing l total with
  | nil => exact totals
  | cons entry met ih =>
      have blank' : ∀ w, w ∉ (l.record entry).forms → (l.record entry).frequency w = 0 := by
        intro w absent
        have other : w ≠ entry.2 := fun same => absent (.inl same)
        rw [(l.record_other entry other).1]
        exact blank w fun known => absent (.inr known)
      have later := ih (totals.record blank entry) blank'
      rw [Nat.add_assoc, Nat.add_comm 1] at later
      exact later

omit [DecidableEq Form] in
theorem Sourced.mono {l : Ledger Form Source} {listed more : Set Source} (sourced : l.Sourced listed)
    (subset : listed ⊆ more) : l.Sourced more :=
  ⟨sourced.blank, sourced.met, fun w => (sourced.within w).trans subset⟩

end Ledger
