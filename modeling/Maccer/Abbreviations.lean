import Maccer.Guessing

/-! Possible abbreviations among the parallels of a word. -/

namespace Maccer

open Lua

theorem parallels_count {keytbl : Table Str} {p : Str} (distinct : (chain keytbl p).Nodup) :
    (parallels keytbl p).keys.length = (chain keytbl p).length := by
  have same : (parallels keytbl p).keys.Perm (chain keytbl p) := by
    refine (List.perm_ext_iff_of_nodup (AList.keys_nodup _) distinct).mpr fun w => ?_
    have absent := (field_eq_none (parallels keytbl p) w).symm.trans (field_parallels_none keytbl p w)
    exact AList.mem_keys.symm.trans (not_iff_not.mp absent)
  exact same.length_eq

theorem getpars_ordinary (keytbl : Table Str) (p : Str) (ordinary : p ≠ lit ".") :
    getpars keytbl p true = getpars keytbl p false := by
  have other : (subFrom p (p.length - 1) == lit ".") = false := by
    rw [beq_eq_false_iff_ne]
    exact fun period => ordinary (lastTwo_period period)
  simp only [getpars, other, Bool.and_false]

theorem chain_period {keytbl : Table Str} (wf : WellFormed keytbl) (stored : chain keytbl (lit ".") ≠ []) :
    chain keytbl (lit ".") = [lit "."] := by
  have word : DigitFree (lit ".") := by decide
  have only : ∀ w ∈ chain keytbl (lit "."), w = lit "." := fun w member =>
    plain_period (wf.plain_of_chain word member)
  have repeated := List.eq_replicate_of_mem only
  have distinct := wf.chain_nodup (lit ".")
  rw [repeated, List.nodup_replicate] at distinct
  have positive := List.length_pos_iff.mpr stored
  have single : (chain keytbl (lit ".")).length = 1 := by omega
  rw [repeated, single]
  rfl

theorem plain_empty {w : Str} (same : plain w = .ok []) : w = [] := by
  obtain ⟨ws, _, rfl, plains, joined⟩ := plain_chars same
  cases ws with
  | nil => rfl
  | cons c ws =>
      have filled := plains.ne_nil (List.mem_cons_self ..)
      rw [List.map_cons, List.flatten_cons] at joined
      exact absurd (List.append_eq_nil_iff.mp joined.symm).1 filled

theorem getpars_period {keytbl : Table Str} (wf : WellFormed keytbl) (stored : chain keytbl (lit ".") ≠ [])
    (empty : chain keytbl [] ≠ []) :
    ∃ partbl nextkey, getpars keytbl (lit ".") true = some (partbl, 2, nextkey) ∧ partbl.keys.length = 1 := by
  have whole := chain_period wf stored
  have first : field keytbl (lit ".") = some (lit ".") := by
    have here := field_in_chain keytbl (lit ".") 0 (by simp [whole])
    simpa [whole] using here
  have second : field keytbl (lit "." ++ decimal 1) = none := by
    have after := field_after_chain keytbl (lit ".")
    rw [whole] at after
    exact after
  have blank : field keytbl [] = some [] := by
    have positive := List.length_pos_iff.mpr empty
    have here := field_in_chain keytbl [] 0 positive
    rw [List.getElem?_eq_getElem positive, slot_zero] at here
    have same := wf.plain_of_chain (p := []) (by simp [DigitFree]) (List.getElem_mem positive)
    rw [here, plain_empty same]
  have period : (subFrom (lit ".") ((lit ".").length - 1) == lit ".") = true := by decide
  have before : sub (lit ".") 1 ((lit ".").length - 1) = [] := by decide
  refine ⟨AList.insert (lit ".") [] (AList.insert (lit ".") (lit ".") ∅), lit "." ++ decimal 1, ?_, ?_⟩
  · simp only [getpars, first, period, Bool.true_and, if_true, before, blank, walkFuel, getparsWalk,
      Nat.zero_add, second]
    rfl
  · rw [AList.keys_insert, List.length_cons]
    rfl

theorem getpars_blank {keytbl : Table Str} (stored : chain keytbl (lit ".") ≠ [])
    (blank : field keytbl [] = none) (distinct : (chain keytbl (lit ".")).Nodup) :
    getpars keytbl (lit ".") true =
      some (parallels keytbl (lit "."), (parallels keytbl (lit ".")).keys.length, []) := by
  have walked := getpars_eq keytbl (lit ".")
  rw [if_neg stored] at walked
  have period : (subFrom (lit ".") ((lit ".").length - 1) == lit ".") = true := by decide
  have before : sub (lit ".") 1 ((lit ".").length - 1) = [] := by decide
  unfold getpars at walked ⊢
  cases first : field keytbl (lit ".") with
  | none =>
      rw [first] at walked
      cases walked
  | some form =>
      rw [first] at walked
      simp only [Bool.false_and, Bool.false_eq_true, if_false, Option.some.injEq] at walked
      simp only [walked, period, Bool.true_and, if_true, before, blank, parallels_count distinct]

/-- What `getpars` is to return for a word that may be an abbreviation: the forms of the
word, and those of the word without its period with a period after them. -/
def AbbreviationsFound (keytbl : Table Str) (q : Str) : Prop :=
  ∃ partbl parcount nextkey, getpars keytbl (q ++ lit ".") true = some (partbl, parcount, nextkey) ∧
    (∀ w, w ∈ partbl ↔ w ∈ chain keytbl (q ++ lit ".") ∨ ∃ f ∈ chain keytbl q, w = f ++ lit ".") ∧
    parcount = partbl.keys.length

/-- The forms without the period are not looked at: `getpars` returns what it is to return
just when they bring nothing new. -/
theorem getpars_abbreviations (keytbl : Table Str) (wf : WellFormed keytbl) (q : Str)
    (stored : chain keytbl (q ++ lit ".") ≠ []) :
    AbbreviationsFound keytbl q ↔ (∀ f ∈ chain keytbl q, f ++ lit "." ∈ chain keytbl (q ++ lit ".")) ∧
      (q = [] → chain keytbl [] = []) := by
  have found (w : Str) : w ∈ parallels keytbl (q ++ lit ".") ↔ w ∈ chain keytbl (q ++ lit ".") :=
    not_iff_not.mp ((field_eq_none _ w).symm.trans (field_parallels_none keytbl _ w))
  by_cases period : q = [] ∧ chain keytbl [] ≠ []
  · obtain ⟨rfl, empty⟩ := period
    obtain ⟨partbl, nextkey, ran, count⟩ := getpars_period wf stored empty
    have broken : ¬ AbbreviationsFound keytbl [] := by
      rintro ⟨partbl', parcount, nextkey', ran', _, count'⟩
      rw [List.nil_append, ran, Option.some.injEq, Prod.mk.injEq, Prod.mk.injEq] at ran'
      obtain ⟨rfl, rfl, _⟩ := ran'
      omega
    exact iff_of_false broken fun holds => empty (holds.2 rfl)
  · have returned : ∃ nextkey, getpars keytbl (q ++ lit ".") true =
        some (parallels keytbl (q ++ lit "."), (parallels keytbl (q ++ lit ".")).keys.length, nextkey) := by
      by_cases alone : q = []
      · subst alone
        have blank : field keytbl [] = none := by
          have empty : chain keytbl [] = [] := not_not.mp fun filled => period ⟨rfl, filled⟩
          simpa [empty] using field_after_chain keytbl []
        exact ⟨_, getpars_blank stored blank (wf.chain_nodup _)⟩
      · have ordinary : q ++ lit "." ≠ lit "." := fun same => alone (List.append_left_eq_self.mp same)
        refine ⟨slot (q ++ lit ".") (chain keytbl (q ++ lit ".")).length, ?_⟩
        rw [getpars_ordinary _ _ ordinary, getpars_eq, if_neg stored, parallels_count (wf.chain_nodup _)]
    obtain ⟨nextkey, ran⟩ := returned
    have second : q = [] → chain keytbl [] = [] := fun same =>
      not_not.mp fun filled => period ⟨same, filled⟩
    constructor
    · rintro ⟨partbl, parcount, nextkey', ran', forms, _⟩
      rw [ran, Option.some.injEq, Prod.mk.injEq] at ran'
      obtain ⟨rfl, _⟩ := ran'
      exact ⟨fun f member => (found _).mp ((forms _).mpr (.inr ⟨f, member, rfl⟩)), second⟩
    · intro holds
      refine ⟨_, _, nextkey, ran, fun w => ?_, rfl⟩
      rw [found]
      refine ⟨.inl, ?_⟩
      rintro (present | ⟨f, member, rfl⟩)
      · exact present
      · exact holds.1 f member

def abbreviationKey : Table Str := learnForm (learnForm ∅ (lit "i.") (lit "i.")) (lit "ī") (lit "i")

theorem abbreviationKey_wellFormed : WellFormed abbreviationKey :=
  (wellFormed_empty.learnForm (by decide) (by decide)).learnForm (by decide) (by decide)

theorem getpars_abbreviations_known :
    AbbreviationsFound (learnForm abbreviationKey (lit "ī.") (lit "i.")) (lit "i") :=
  (getpars_abbreviations _ (abbreviationKey_wellFormed.learnForm (by decide) (by decide)) (lit "i")
    (by decide)).mpr ⟨by decide, by decide⟩

/-- `ī` is not taken into account for `i.`. -/
theorem getpars_abbreviation_missed :
    ¬ ∀ (keytbl : Table Str) (q : Str), WellFormed keytbl → DigitFree q →
      chain keytbl (q ++ lit ".") ≠ [] → AbbreviationsFound keytbl q := by
  intro claim
  obtain ⟨partbl, parcount, nextkey, ran, forms, _⟩ :=
    claim abbreviationKey (lit "i") abbreviationKey_wellFormed (by decide) (by decide)
  have keys : (getpars abbreviationKey (lit "i" ++ lit ".") true).map (fun pars => pars.1.keys) =
      some [lit "i."] := by decide
  rw [ran, Option.map_some, Option.some.injEq] at keys
  have present := (forms (lit "ī.")).mpr (.inr ⟨lit "ī", by decide, by decide⟩)
  rw [AList.mem_keys, keys] at present
  exact absurd present (by decide)

end Maccer
