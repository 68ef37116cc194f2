import Maccer.WebScan
import Maccer.Lua.Halts

/-! The scanning loop of `mac.lua`: whatever `macra.ignorechars` returns, a pass leaves less of the text than it found. -/

namespace Maccer

open Lua

theorem Utf8.len_halts (s : Str) : Halts (Utf8.len s) := Halts.ite (halts_ok _) halts_raised

theorem Utf8.sub_halts (s : Str) (i j : Int) : Halts (Utf8.sub s i j) := by
  unfold Utf8.sub
  dsimp only
  have cut {x y z : Str} {a b c : Prop} [Decidable a] [Decidable b] [Decidable c] :
      Halts (if a then pure x else if b then pure y else if c then pure z else throw .raised : Run Str) :=
    Halts.ite (halts_ok _) (Halts.ite (halts_ok _) (Halts.ite (halts_ok _) halts_raised))
  exact Halts.ite cut (Halts.bind (len_halts s) fun l _ => cut)

theorem Utf8.replace_halts (s : Str) (mapping : Str → Option Str) : Halts (Utf8.replace s mapping) :=
  Halts.ite (halts_ok _) halts_raised

namespace Tables

variable (t : Tables)

/-- A right end before the first character: the word is given up, and its span is not empty. -/
theorem trimOnce_zero {cs : List Str} (decodes : Utf8.Decodes cs) (filled : cs ≠ []) (wstart wend : Int)
    (userabbrev : Bool) (slack : wstart + cs.flatten.length - 1 ≤ wend) :
    ∃ e, t.trimOnce cs.flatten ⟨some cs.flatten, wstart, wend, 0, userabbrev⟩ = .ok (e, true) ∧ e.w = none ∧
      e.wstart = wstart ∧ wstart ≤ e.wend ∧ e.wend ≤ wend := by
  obtain ⟨left, rest, rfl⟩ := List.exists_cons_of_ne_nil filled
  have first := Utf8.sub_char decodes (i := 0) rfl
  have whole := Utf8.sub_from decodes 0
  simp only [Nat.cast_zero, zero_add] at first whole
  have long := List.length_pos_iff.mpr (decodes.ne_nil List.mem_cons_self)
  have size : left.length ≤ (left :: rest).flatten.length := by
    rw [List.flatten_cons, List.length_append]
    omega
  cases good : t.ignores (left :: rest).flatten with
  | false =>
      simp only [trimOnce, first, Utf8.sub_zero decodes, run_bind_ok, run_pure, good, Bool.not_false, if_true,
        if_pos (by omega : (0 : Int) < 1)]
      have filled : ¬ wend < wstart := by omega
      rw [if_neg filled]
      exact ⟨_, rfl, rfl, rfl, not_lt.mp filled, le_rfl⟩
  | true =>
      simp only [trimOnce, first, Utf8.sub_zero decodes, run_bind_ok, run_pure, good, Bool.not_true,
        Bool.false_eq_true, if_false, if_pos (by omega : (0 : Int) - 1 - 1 < 1)]
      rw [show (0 : Int) - 1 = -1 by rfl, whole]
      refine ⟨_, rfl, rfl, rfl, ?_, ?_⟩
      all_goals
        dsimp only
        split <;> omega

/-- Whatever the loop over the ends of a word makes of them: its span never grows, and it stays as long as the word.
-/
theorem trimEnds_span (fuel : Nat) (cs : List Str) (decodes : Utf8.Decodes cs) (filled : cs ≠ []) (p : Nat)
    (inside : p ≤ cs.length) (enough : p < fuel) (wstart wend : Int) (userabbrev : Bool)
    (slack : wstart + cs.flatten.length - 1 ≤ wend) :
    ∃ e, t.trimEnds fuel ⟨some cs.flatten, wstart, wend, p, userabbrev⟩ = .ok e ∧ wstart ≤ e.wstart ∧ e.wend ≤ wend ∧
      e.wstart ≤ e.wend ∧ ∀ w, e.w = some w → w ≠ [] ∧ e.wstart + w.length - 1 ≤ e.wend := by
  induction fuel generalizing cs p wstart wend userabbrev with
  | zero => omega
  | succ fuel ih =>
      obtain ⟨left, rest, rfl⟩ := List.exists_cons_of_ne_nil filled
      cases p with
      | zero =>
          obtain ⟨e, pass, gone, same, first, last⟩ := t.trimOnce_zero decodes filled wstart wend userabbrev slack
          exact ⟨e, t.trimEnds_step pass, same.ge, last, same.le.trans first, by simp [gone]⟩
      | succ p =>
          obtain ⟨right, here⟩ : ∃ right, (left :: rest)[p]? = some right :=
            ⟨_, List.getElem?_eq_getElem (by omega)⟩
          have head : (left :: rest)[0]? = some left := rfl
          have long := List.length_pos_iff.mpr (decodes.ne_nil (List.mem_cons_self (a := left)))
          have whole : (left :: rest).flatten.length = left.length + rest.flatten.length := by
            rw [List.flatten_cons, List.length_append]
          have front : ((left :: rest).take p).flatten.length + right.length ≤ (left :: rest).flatten.length := by
            obtain ⟨within, same⟩ := List.getElem?_eq_some_iff.mp here
            have parts := congrArg (fun ds : List Str => ds.flatten.length)
              (List.take_append_drop (p + 1) (left :: rest))
            simp only [List.take_succ_eq_append_getElem within, same, List.flatten_append, List.flatten_singleton,
              List.length_append] at parts
            omega
          rw [List.length_cons] at inside
          cases good : t.ignores right with
          | false =>
              cases keep : t.ignores left with
              | false =>
                  have pass := t.trimOnce_inner decodes head here wstart wend userabbrev keep good
                  refine ⟨_, t.trimEnds_step pass, le_rfl, le_rfl, by dsimp only; omega, ?_⟩
                  intro w same
                  obtain rfl := Option.some.inj same
                  exact ⟨List.ne_nil_of_length_pos (by omega), slack⟩
              | true =>
                  have more : rest ≠ [] := by
                    rintro rfl
                    obtain rfl : p = 0 := by simpa using inside
                    rw [Option.some.inj here, good] at keep
                    cases keep
                  have pass := t.trimOnce_left decodes head here wstart wend userabbrev keep good
                  obtain ⟨e, run, first, last, kept⟩ := ih rest decodes.2 more p (by omega) (by omega)
                    (wstart + left.length) wend (userabbrev || left == lit "@") (by omega)
                  exact ⟨e, (t.trimEnds_step pass).trans run, by omega, last, kept⟩
          | true =>
              by_cases room : 2 ≤ p
              · have size : ((left :: rest).take p).length = p := by
                  rw [List.length_take, List.length_cons]
                  omega
                cases keep : t.ignores left with
                | false =>
                    have pass := t.trimOnce_right decodes head here wstart wend userabbrev keep good room
                    obtain ⟨e, run, first, last, kept⟩ := ih ((left :: rest).take p) (decodes.take p)
                      (List.ne_nil_of_length_pos (by omega)) (p - 1) (by omega) (by omega) wstart (wend - right.length)
                      userabbrev (by omega)
                    rw [Nat.cast_sub (by omega), Nat.cast_one] at run
                    exact ⟨e, (t.trimEnds_step pass).trans run, first, by omega, kept⟩
                | true =>
                    have shape : (left :: rest).take p = left :: ((left :: rest).take p).drop 1 := by
                      obtain ⟨q, rfl⟩ : ∃ q, p = q + 1 := ⟨p - 1, by omega⟩
                      rfl
                    have cut := congrArg (fun ds : List Str => ds.flatten.length) shape
                    simp only [List.flatten_cons (l := left), List.length_append] at cut
                    have pass := t.trimOnce_both decodes head here wstart wend userabbrev keep good room
                    obtain ⟨e, run, first, last, kept⟩ := ih (((left :: rest).take p).drop 1) ((decodes.take p).drop 1)
                      (List.ne_nil_of_length_pos (by rw [List.length_drop]; omega)) (p - 2)
                      (by rw [List.length_drop]; omega) (by omega) (wstart + left.length) (wend - right.length)
                      (userabbrev || left == lit "@") (by omega)
                    rw [Nat.cast_sub (by omega)] at run
                    exact ⟨e, (t.trimEnds_step pass).trans run, by omega, by omega, kept⟩
              · have pass := t.trimOnce_gone decodes head here wstart wend userabbrev good (by omega)
                refine ⟨_, t.trimEnds_step pass, le_rfl, ?_, ?_, nofun⟩
                all_goals
                  dsimp only
                  split <;> omega

theorem cutAtPeriod_span {w : Str} {wstart wend : Int} (span : wend = wstart + w.length - 1) :
    (cutAtPeriod w wstart wend).1.head? = w.head? ∧
      (cutAtPeriod w wstart wend).2 = wstart + (cutAtPeriod w wstart wend).1.length - 1 ∧
      (cutAtPeriod w wstart wend).2 ≤ wend := by
  unfold cutAtPeriod
  split
  · rename_i dot found
    split
    · rename_i middle
      rw [dotpos, Option.map_eq_some_iff] at found
      obtain ⟨i, found, rfl⟩ := found
      have inside := (List.findIdx?_eq_some_iff_findIdx_eq.mp found).1
      simp only [sub_first, List.length_take]
      refine ⟨?_, by omega, by omega⟩
      rw [List.head?_take, if_neg (Nat.succ_ne_zero i)]
    · exact ⟨rfl, span, le_rfl⟩
  · exact ⟨rfl, span, le_rfl⟩

theorem findIgnored_halts (w : Str) (igs : List Str) : Halts (findIgnored w igs) := by
  induction igs with
  | nil => exact halts_ok _
  | cons ig igs ih =>
      unfold findIgnored
      exact Halts.bind (find_halts w ig 1) fun found _ => Halts.ite (halts_ok _) ih

theorem checkAbbrev_halts (w : Str) (wend : Int) (userabbrev middlefound : Bool) :
    Halts (t.checkAbbrev w wend userabbrev middlefound) := by
  unfold checkAbbrev
  exact Halts.ite (halts_ok _) (Halts.ite
    (Halts.bind (Utf8.sub_halts w 1 1) fun _ _ => Halts.ite (halts_ok _) (halts_ok _)) (halts_ok _))

theorem trimEnds_word {w : Str} {posright : Nat} (len : Utf8.len w = .ok posright) (filled : w ≠ []) (wstart wend : Int)
    (slack : wstart + w.length - 1 ≤ wend) :
    ∃ e, t.trimEnds (posright + 2) ⟨some w, wstart, wend, posright, false⟩ = .ok e ∧ wstart ≤ e.wstart ∧
      e.wend ≤ wend ∧ e.wstart ≤ e.wend ∧ ∀ w', e.w = some w' → w' ≠ [] ∧ e.wstart + w'.length - 1 ≤ e.wend := by
  have whole : (Utf8.chars w).2 = [] := by
    by_contra left
    rw [Utf8.len, if_neg left] at len
    cases len
  obtain ⟨cs, decodes, rfl⟩ := Utf8.exists_decodes whole
  obtain rfl := Except.ok.inj ((Utf8.len_decodes decodes).symm.trans len)
  have some : cs ≠ [] := by
    rintro rfl
    exact filled rfl
  exact t.trimEnds_span (cs.length + 2) cs decodes some cs.length le_rfl (by omega) wstart wend false slack

/-- The parts of a token that `macra.ignorechars` has left before its loop. -/
theorem beforeLoop_span {w w' : Str} {wstart wend wend' : Int} (span : wend = wstart + w.length - 1) (filled : w ≠ [])
    (ran : t.dropLastPeriod (cutAtPeriod (dropPeriods w wstart wend).1 (dropPeriods w wstart wend).2.1
      (dropPeriods w wstart wend).2.2).1 (cutAtPeriod (dropPeriods w wstart wend).1 (dropPeriods w wstart wend).2.1
      (dropPeriods w wstart wend).2.2).2 = .ok (w', wend')) :
    wstart ≤ (dropPeriods w wstart wend).2.1 ∧ (w' = [] → wstart ≤ wend') ∧
      (w' ≠ [] → wend' = (dropPeriods w wstart wend).2.1 + w'.length - 1 ∧ wend' ≤ wend) := by
  have dropped := dropPeriods_span w wstart wend span filled
  generalize dropPeriods w wstart wend = first at dropped ran ⊢
  obtain ⟨w₁, wstart₁, wend₁⟩ := first
  obtain ⟨head, after, _, _, gone, kept⟩ := dropped
  obtain ⟨_, shift, less, empty⟩ := t.dropLastPeriod_span ran
  refine ⟨after, ?_⟩
  dsimp only at shift less empty ⊢
  by_cases periods : w₁ = []
  · subst periods
    have none' : cutAtPeriod [] wstart₁ wend₁ = ([], wend₁) := rfl
    rw [none'] at shift less ran
    have := gone rfl
    have same : (Except.ok ([], wend₁) : Run (Str × Int)) = .ok (w', wend') := ran
    obtain ⟨rfl, rfl⟩ := Prod.mk.inj (Except.ok.inj same)
    exact ⟨fun _ => by omega, fun other => absurd rfl other⟩
  · obtain ⟨last, span₁⟩ := kept periods
    obtain ⟨begins, span₂, less₂⟩ := cutAtPeriod_span (last ▸ span₁)
    refine ⟨fun none' => ?_, fun _ => by omega⟩
    rcases empty none' with cut | cut
    · rw [cut] at begins
      exact absurd (List.head?_eq_none_iff.mp begins.symm) periods
    · rw [cut] at begins
      exact absurd begins.symm head

/-- On a token `macra.ignorechars` returns or raises. -/
theorem ignorechars_halts {w : Str} {wstart wend : Int} (span : wend = wstart + w.length - 1) (filled : w ≠ [])
    (abbrevcheck : Bool) : Halts (t.ignorechars w wstart wend abbrevcheck) := by
  unfold ignorechars
  dsimp only
  refine Halts.bind ?_ fun cut second => Halts.bind (Utf8.len_halts _) fun posright len => ?_
  · unfold dropLastPeriod
    exact Halts.ite (Halts.bind (Utf8.len_halts _) fun _ _ => Halts.bind (Utf8.sub_halts _ _ _) fun _ _ =>
      Halts.ite (halts_ok _) (halts_ok _)) (halts_ok _)
  · by_cases none' : cut.1 = []
    · rw [if_pos none']
      exact halts_ok _
    · rw [if_neg none']
      obtain ⟨_, _, kept⟩ := @beforeLoop_span t w cut.1 wstart wend cut.2 span filled second
      obtain ⟨e, run, _⟩ := t.trimEnds_word len none' _ cut.2 (kept none').1.ge
      rw [run, run_bind_ok]
      cases e.w with
      | none => exact halts_ok _
      | some w' =>
          exact Halts.bind (findIgnored_halts _ _) fun middlefound _ =>
            Halts.ite (Halts.bind (t.checkAbbrev_halts _ _ _ _) fun _ _ => halts_ok _) (halts_ok _)

/-- The end that `macra.ignorechars` returns is not before the token, and that of a word not before the word's. -/
theorem ignorechars_span {w : Str} {wstart wend : Int} {trimmed : Trimmed}
    (ran : t.ignorechars w wstart wend false = .ok trimmed) (span : wend = wstart + w.length - 1) (filled : w ≠ []) :
    wstart ≤ trimmed.wend ∧ ∀ w', trimmed.w = some w' → w' ≠ [] → wstart ≤ trimmed.wstart ∧
      trimmed.wstart + w'.length - 1 ≤ trimmed.wend ∧ trimmed.wend ≤ wend := by
  rw [ignorechars] at ran
  dsimp only at ran
  obtain ⟨⟨w₂, wend₂⟩, second, ran⟩ := bind_eq_ok.mp ran
  obtain ⟨after, empty, kept⟩ := t.beforeLoop_span span filled second
  obtain ⟨posright, len, ran⟩ := bind_eq_ok.mp ran
  dsimp only at len ran
  by_cases none' : w₂ = []
  · rw [if_pos none'] at ran
    rw [← Except.ok.inj ran]
    exact ⟨empty none', fun w' same other => absurd (Option.some.inj same ▸ none') other⟩
  · rw [if_neg none'] at ran
    obtain ⟨span₂, less⟩ := kept none'
    obtain ⟨e, run, first, last, long, word⟩ := t.trimEnds_word len none' _ wend₂ span₂.ge
    rw [run, run_bind_ok] at ran
    cases kept : e.w with
    | none =>
        rw [kept] at ran
        rw [← Except.ok.inj ran]
        exact ⟨by dsimp only; omega, fun w' same => absurd same (Option.some_ne_none w').symm⟩
    | some w' =>
        rw [kept] at ran
        obtain ⟨middlefound, _, ran⟩ := bind_eq_ok.mp ran
        rw [← Except.ok.inj (show Except.ok _ = Except.ok trimmed from ran)]
        obtain ⟨_, slack⟩ := word w' kept
        refine ⟨by dsimp only; omega, fun v same _ => ?_⟩
        obtain rfl := Option.some.inj same
        exact ⟨by dsimp only; omega, slack, by dsimp only; omega⟩

theorem periodchar_cases (marked : Marked) : marked.periodchar = 0 ∨ marked.periodchar = 1 := by
  rw [Marked.periodchar]
  split
  · exact .inr rfl
  · exact .inl rfl

/-- A word put into the text leaves no more behind the place of the next search than there was behind the word. -/
theorem spliceWord_less {text w : Str} {wstart wend : Int} {marked : Marked} (first : 1 ≤ wstart)
    (last : wend ≤ text.length) (slack : wstart + w.length - 1 ≤ wend) (filled : w ≠ []) :
    wend < (t.spliceWord text wstart wend w marked).2 ∧
      ((t.spliceWord text wstart wend w marked).1.length : Int) + 1 -
        (t.spliceWord text wstart wend w marked).2 ≤ text.length - wend := by
  have long := List.length_pos_iff.mpr filled
  have period := periodchar_cases marked
  have front := @sub_span text 1 (wstart - 1) le_rfl (by omega) (by omega)
  have back := @subFrom_length text (wend + 1 - marked.periodchar) (by omega) (by omega)
  simp only [spliceWord, List.length_append, Nat.cast_add, front, back]
  generalize marked.periodchar = periodchar at period
  split <;> omega

/-- A token of the text: the next search begins behind its start, and has less of the text before it. -/
theorem desktopToken_progress {fuel fuel' : Nat} {overwrite : Bool} {text text' : Str} {wstart wend init' : Int}
    (first : 1 ≤ wstart) (span : wstart ≤ wend) (last : wend ≤ text.length)
    (ran : t.macronizeToken (t.desktop fuel) overwrite fuel' text wstart wend = .ok (text', init')) :
    wstart < init' ∧ (text'.length : Int) - init' < text.length - wstart := by
  have size := sub_span first last (by omega)
  have filled : sub text wstart wend ≠ [] := List.ne_nil_of_length_pos (by omega)
  obtain ⟨⟨word, wstart', wend', isinvalid⟩, ignored, ran⟩ := bind_eq_ok.mp ran
  obtain ⟨trimmed, trim, ignored⟩ := bind_eq_ok.mp ignored
  simp only [run_pure, Except.ok.injEq, Prod.mk.injEq] at ignored
  obtain ⟨rfl, rfl, rfl, rfl⟩ := ignored
  obtain ⟨ends, within⟩ := t.ignorechars_span trim (by omega) filled
  have skipped (ran : (.ok (text, trimmed.wend + 1) : Run (Str × Int)) = .ok (text', init')) :
      wstart < init' ∧ (text'.length : Int) - init' < text.length - wstart := by
    obtain ⟨rfl, rfl⟩ := Prod.mk.inj (Except.ok.inj ran)
    omega
  cases word : trimmed.w with
  | none =>
      rw [word] at ran
      exact skipped ran
  | some w =>
      rw [word] at ran
      dsimp only at ran
      by_cases empty : w = []
      · rw [if_pos empty] at ran
        exact skipped ran
      · rw [if_neg empty] at ran
        obtain ⟨marked, _, ran⟩ := bind_eq_ok.mp ran
        obtain ⟨after, slack, before⟩ := within w word empty
        have rest := @spliceWord_less t text w _ _ marked (by omega) (by omega) slack empty
        rw [Except.ok.inj (show Except.ok _ = Except.ok (text', init') from ran)] at rest
        dsimp only at rest
        omega

end Tables

end Maccer
