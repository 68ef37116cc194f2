import Maccer.WebTrimming

/-! The scanning loop of `mac-web.lua`, as a run of passes over a text that changes. -/

namespace Maccer

open Lua

theorem findRun_span {inside : UInt8 → Bool} {text : Str} {init wstart wend : Int} (first : 1 ≤ init)
    (found : findRun inside text init = some (wstart, wend)) :
    init ≤ wstart ∧ wstart ≤ wend ∧ wend ≤ text.length := by
  have start : searchStart text init = min (init - 1).toNat text.length := by
    rw [searchStart, if_neg (by omega)]
  obtain ⟨⟨from', stop⟩, run, same⟩ := Option.map_eq_some_iff.mp found
  rw [runFrom] at run
  simp only [Option.ite_none_left_eq_some, Option.some.injEq, Prod.mk.injEq] at run
  obtain ⟨filled, rfl, rfl⟩ := run
  simp only [Prod.mk.injEq] at same
  generalize ((text.drop (searchStart text init)).takeWhile fun b => !inside b).length = gap at filled same
  have bound := (List.takeWhile_sublist inside (l := text.drop (searchStart text init + gap))).length_le
  rw [List.length_drop] at bound
  omega

theorem sub_span {text : Str} {wstart wend : Int} (first : 1 ≤ wstart) (last : wend ≤ text.length)
    (span : wstart ≤ wend + 1) : ((sub text wstart wend).length : Int) = wend - wstart + 1 := by
  rw [sub_of_toNat _ _ _ first (by omega), List.length_drop, List.length_take]
  omega

theorem subFrom_length {text : Str} {i : Int} (first : 1 ≤ i) (last : i ≤ text.length + 1) :
    ((subFrom text i).length : Int) = text.length + 1 - i := by
  rw [show i = ((i - 1).toNat : Int) + 1 by omega, subFrom_succ, List.length_drop]
  omega

namespace Tables

variable (t : Tables)

/-- A word put into the text leaves at least as much behind the place of the next search as there was behind the word.
-/
theorem spliceWord_rest {text w : Str} {wstart wend : Int} {marked : Marked} (first : 1 ≤ wstart)
    (last : wend ≤ text.length) (span : wend = wstart + w.length - 1) (filled : w ≠ []) :
    wend < (t.spliceWord text wstart wend w marked).2 ∧
      ((t.spliceWord text wstart wend w marked).1.length : Int) + 1 -
        (t.spliceWord text wstart wend w marked).2 ≤ text.length - wend := by
  have long := List.length_pos_iff.mpr filled
  have period : marked.periodchar = 0 ∨ marked.periodchar = 1 := by
    rw [Marked.periodchar]
    split
    · exact .inr rfl
    · exact .inl rfl
  have front := @sub_span text 1 (wstart - 1) le_rfl (by omega) (by omega)
  have back := @subFrom_length text (wend + 1 - marked.periodchar) (by omega) (by omega)
  simp only [spliceWord, List.length_append, Nat.cast_add, front, back]
  generalize marked.periodchar = periodchar at period
  split <;> omega

/-! Passes of the loop. -/

/-- Whether the position is one that `getcommentset` sets. -/
def InComment (text : Str) (wstart : Int) : Prop :=
  ∃ commentstbl, getcommentset text = .ok commentstbl ∧
    commentstbl.any (fun r => r.1 ≤ wstart && wstart ≤ r.2) = true

/-- A pass: the text and the place from which it is searched, the token that is found, and
the text and the place that the pass leaves. -/
structure Pass where
  text : Str
  init : Int
  wstart : Int
  wend : Int
  text' : Str
  init' : Int

/-- What `macronize` does in one pass, for as long as it takes to handle the word. -/
def Pass.Ran (hascomments : Bool) (p : Pass) : Prop :=
  findRun isWebLetter p.text p.init = some (p.wstart, p.wend) ∧
    ∃ fuel, t.macronizePass (t.web fuel) false hascomments fuel p.text p.wstart p.wend = .ok (p.text', p.init')

def Pass.Alone (hascomments : Bool) (p : Pass) : Prop :=
  t.Lone (sub p.text p.wstart p.wend) ∧ ¬ (hascomments = true ∧ InComment p.text p.wstart)

inductive Scan (hascomments : Bool) : Str → Int → List Pass → Prop
  | stop (text : Str) (init : Int) : Scan hascomments text init []
  | pass (p : Pass) (passes : List Pass) (ran : p.Ran t hascomments)
      (later : Scan hascomments p.text' p.init' passes) : Scan hascomments p.text p.init (p :: passes)

theorem webToken_progress {fuel fuel' : Nat} {text text' : Str} {wstart wend init' : Int} (first : 1 ≤ wstart)
    (span : wstart ≤ wend) (last : wend ≤ text.length)
    (ran : t.macronizeToken (t.web fuel) false fuel' text wstart wend = .ok (text', init')) :
    wstart ≤ init' ∧ (wstart < init' ↔ ¬ t.Lone (sub text wstart wend)) ∧
      (wstart < init' → (text'.length : Int) - init' < text.length - wstart) := by
  have size := sub_span first last (by omega)
  have filled : sub text wstart wend ≠ [] := List.ne_nil_of_length_pos (by omega)
  obtain ⟨⟨word, wstart', wend', isinvalid⟩, ignored, ran⟩ := bind_eq_ok.mp ran
  obtain ⟨trimmed, trim, ignored⟩ := bind_eq_ok.mp ignored
  simp only [run_pure, Except.ok.injEq, Prod.mk.injEq] at ignored
  obtain ⟨rfl, rfl, rfl, rfl⟩ := ignored
  have ends := t.webIgnorechars_span trim (by omega) filled
  cases word : trimmed.w with
  | none =>
      rw [word] at ends ran
      simp only [run_pure, Except.ok.injEq, Prod.mk.injEq] at ends ran
      obtain ⟨rfl, rfl⟩ := ran
      refine ⟨ends.1, ?_, fun _ => by omega⟩
      rw [← ends.2]
      omega
  | some w =>
      rw [word] at ends ran
      simp only at ends ran
      by_cases empty : w = []
      · rw [if_pos empty] at ran
        simp only [run_pure, Except.ok.injEq, Prod.mk.injEq] at ran
        obtain ⟨rfl, rfl⟩ := ran
        exact ⟨by omega, ⟨fun _ => ends.1, fun _ => by omega⟩, fun _ => by omega⟩
      · rw [if_neg empty] at ran
        obtain ⟨marked, _, ran⟩ := bind_eq_ok.mp ran
        simp only [run_pure, Except.ok.injEq] at ran
        obtain ⟨after, before, within⟩ := ends.2.2 empty
        have rest := @spliceWord_rest t text w _ _ marked (by omega) (by omega) before empty
        rw [ran] at rest
        simp only at rest
        exact ⟨by omega, ⟨fun _ => ends.1, fun _ => by omega⟩, fun _ => by omega⟩

/-- A pass goes on behind the start of its token unless that is one character to ignore,
and then there is less of the text left. -/
theorem pass_progress {hascomments : Bool} {p : Pass} (ran : p.Ran t hascomments) (first : 1 ≤ p.init) :
    1 ≤ p.init' ∧ (p.wstart < p.init' ↔ ¬ p.Alone t hascomments) ∧
      (p.wstart < p.init' → (p.text'.length : Int) - p.init' < p.text.length - p.init) := by
  obtain ⟨found, fuel, ran⟩ := ran
  obtain ⟨after, span, last⟩ := findRun_span first found
  have token (outside : ¬ (hascomments = true ∧ InComment p.text p.wstart))
      (ran : t.macronizeToken (t.web fuel) false fuel p.text p.wstart p.wend = .ok (p.text', p.init')) :
      1 ≤ p.init' ∧ (p.wstart < p.init' ↔ ¬ p.Alone t hascomments) ∧
        (p.wstart < p.init' → (p.text'.length : Int) - p.init' < p.text.length - p.init) := by
    obtain ⟨back, progress, fewer⟩ := t.webToken_progress (by omega) span last ran
    have same : p.Alone t hascomments ↔ t.Lone (sub p.text p.wstart p.wend) :=
      ⟨fun alone => alone.1, fun lone => ⟨lone, outside⟩⟩
    exact ⟨by omega, by rw [same, progress], fun strict => by
      have := fewer strict
      omega⟩
  rw [macronizePass] at ran
  cases hascomments with
  | false => exact token (by simp) ran
  | true =>
      rw [if_pos rfl] at ran
      obtain ⟨commentstbl, comments, ran⟩ := bind_eq_ok.mp ran
      cases inside : commentstbl.any (fun r => r.1 ≤ p.wstart && p.wstart ≤ r.2) with
      | false =>
          rw [inside] at ran
          refine token (fun ⟨_, commentstbl', comments', inside'⟩ => ?_) ran
          obtain rfl := Except.ok.inj (comments.symm.trans comments')
          rw [inside] at inside'
          cases inside'
      | true =>
          rw [inside, if_pos rfl] at ran
          obtain ⟨same, next⟩ := Prod.mk.inj (Except.ok.inj ran)
          rw [← same, ← next]
          have commented : InComment p.text p.wstart := ⟨commentstbl, comments, inside⟩
          exact ⟨by omega, ⟨fun _ alone => alone.2 ⟨rfl, commented⟩, fun _ => by omega⟩, fun _ => by omega⟩

/-! Runs of the loop. -/

theorem scan_progress {hascomments : Bool} {text : Str} {init : Int} {passes : List Pass}
    (scan : t.Scan hascomments text init passes) (first : 1 ≤ init) :
    ∀ p ∈ passes, (p.wstart < p.init' ↔ ¬ p.Alone t hascomments) := by
  induction scan with
  | stop text init => simp
  | pass p passes ran later ih =>
      obtain ⟨next, progress, _⟩ := t.pass_progress ran first
      intro q member
      rcases List.mem_cons.mp member with rfl | old
      · exact progress
      · exact ih next q old

theorem scan_length {hascomments : Bool} {text : Str} {init : Int} {passes : List Pass}
    (scan : t.Scan hascomments text init passes) (first : 1 ≤ init)
    (progress : ∀ p ∈ passes, p.wstart < p.init') : passes.length ≤ (text.length + 1 - init).toNat := by
  induction scan with
  | stop text init => simp
  | pass p passes ran later ih =>
      obtain ⟨next, _, fewer⟩ := t.pass_progress ran first
      have rest := ih next fun q member => progress q (by simp [member])
      have less := fewer (progress p (by simp))
      obtain ⟨after, span, last⟩ := findRun_span first ran.1
      rw [List.length_cons]
      omega

/-- In a run of the loop over a text every pass goes on behind the start of its token just
when no token is a single character to ignore; the loop then ends after as many passes as
the text has bytes. -/
theorem webScan_ends (hascomments : Bool) (text : Str) (passes : List Pass)
    (scan : t.Scan hascomments text 1 passes) :
    ((∀ p ∈ passes, p.wstart < p.init') ↔ ∀ p ∈ passes, ¬ p.Alone t hascomments) ∧
      ((∀ p ∈ passes, ¬ p.Alone t hascomments) → passes.length ≤ text.length) := by
  have each := t.scan_progress scan le_rfl
  have progress : (∀ p ∈ passes, p.wstart < p.init') ↔ ∀ p ∈ passes, ¬ p.Alone t hascomments :=
    forall₂_congr each
  refine ⟨progress, fun alone => ?_⟩
  have short := t.scan_length scan le_rfl (progress.mpr alone)
  omega

def etPass : Pass := ⟨lit "et et", 1, 1, 2, lit "✖et et", 6⟩

def etPass' : Pass := ⟨lit "✖et et", 6, 7, 8, lit "✖et ✖et", 12⟩

theorem webScan_ends_et : (∀ p ∈ [etPass, etPass'], ¬ p.Alone quoteTables false) ∧
    [etPass, etPass'].length ≤ (lit "et et").length := by
  have ran : etPass.Ran quoteTables false := ⟨by decide, 9, by decide⟩
  have ran' : etPass'.Ran quoteTables false := ⟨by decide, 9, by decide⟩
  have ends := quoteTables.webScan_ends false (lit "et et") [etPass, etPass']
    (.pass etPass _ ran (.pass etPass' [] ran' (.stop _ _)))
  have progress : ∀ p ∈ [etPass, etPass'], p.wstart < p.init' := by
    intro p member
    cases List.mem_pair.mp member with
    | inl first => exact first ▸ by decide
    | inr second => exact second ▸ by decide
  exact ⟨ends.1.mp progress, ends.2 (ends.1.mp progress)⟩

def quotePass : Pass := ⟨lit "»", 1, 1, 2, lit "»", 1⟩

theorem webScan_quote :
    ¬ ∀ (t : Tables) (hascomments : Bool) (text : Str) (passes : List Pass), Utf8.Valid text →
      t.Scan hascomments text 1 passes → ∀ p ∈ passes, p.wstart < p.init' := by
  intro claim
  have ran : quotePass.Ran quoteTables false := ⟨by decide, 9, by decide⟩
  have progress := claim quoteTables false (lit "»") [quotePass] ⟨[lit "»"], by decide, by decide⟩
    (.pass quotePass [] ran (.stop _ _)) quotePass (by simp)
  exact absurd progress (by decide)

end Tables

end Maccer
