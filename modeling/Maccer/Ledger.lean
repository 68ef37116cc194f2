import Mathlib.Data.Set.Insert
import Mathlib.Data.List.Perm.Basic
import Mathlib.Data.List.Count

/-! Ledgers: how often each form has been met, and in which sources. -/

@[ext]
structure Ledger (Form Source : Type) where
  forms : Set Form
  frequency : Form → Nat
  headers : Form → Set Source

namespace Ledger

variable {Form Source : Type} [DecidableEq Form]

def record (l : Ledger Form Source) (met : Source × Form) : Ledger Form Source where
  forms := insert met.2 l.forms
  frequency := Function.update l.frequency met.2 (l.frequency met.2 + 1)
  headers := Function.update l.headers met.2 (insert met.1 (l.headers met.2))

def recordAll (l : Ledger Form Source) (met : List (Source × Form)) : Ledger Form Source :=
  met.foldl record l

theorem mem_forms_recordAll (l : Ledger Form Source) (met : List (Source × Form)) (w : Form) :
    w ∈ (l.recordAll met).forms ↔ w ∈ l.forms ∨ w ∈ met.map Prod.snd := by
  induction met generalizing l with
  | nil => simp [recordAll]
  | cons first met ih =>
      rw [recordAll, List.foldl_cons, ← recordAll, ih]
      simp only [record, Set.mem_insert_iff, List.map_cons, List.mem_cons]
      tauto

theorem frequency_recordAll [BEq Form] [LawfulBEq Form] (l : Ledger Form Source)
    (met : List (Source × Form)) (w : Form) :
    (l.recordAll met).frequency w = l.frequency w + (met.map Prod.snd).count w := by
  induction met generalizing l with
  | nil => simp [recordAll]
  | cons first met ih =>
      rw [recordAll, List.foldl_cons, ← recordAll, ih]
      by_cases here : w = first.2
      · subst here
        simp only [record, Function.update_self, List.map_cons, List.count_cons_self]
        omega
      · simp [record, here, List.count_cons_of_ne (Ne.symm here)]

theorem mem_headers_recordAll (l : Ledger Form Source) (met : List (Source × Form)) (w : Form)
    (h : Source) : h ∈ (l.recordAll met).headers w ↔ h ∈ l.headers w ∨ (h, w) ∈ met := by
  induction met generalizing l with
  | nil => simp [recordAll]
  | cons first met ih =>
      rw [recordAll, List.foldl_cons, ← recordAll, ih]
      by_cases here : w = first.2
      · subst here
        simp only [record, Function.update_self, Set.mem_insert_iff, List.mem_cons, Prod.ext_iff,
          and_true]
        tauto
      · simp [record, here, Prod.ext_iff]

theorem recordAll_perm (l : Ledger Form Source) {met other : List (Source × Form)}
    (same : met.Perm other) : l.recordAll met = l.recordAll other := by
  ext w h
  · rw [mem_forms_recordAll, mem_forms_recordAll, (same.map Prod.snd).mem_iff]
  · rw [frequency_recordAll, frequency_recordAll, (same.map Prod.snd).count_eq]
  · rw [mem_headers_recordAll, mem_headers_recordAll, same.mem_iff]

theorem recordAll_append (l : Ledger Form Source) (met more : List (Source × Form)) :
    l.recordAll (met ++ more) = (l.recordAll met).recordAll more :=
  List.foldl_append

end Ledger
