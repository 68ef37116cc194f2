import Maccer.Setupsubs

/-! A line that `setupsubs` cannot interpret, and the entries that come after it. -/

namespace Maccer

open Lua

inductive Lacking (line : Str) : Prop
  | sides (missing : sides line = .ok none)
  | original (origfull repl : Str) (found : sides line = .ok (some [origfull, repl]))
      (missing : leftSide origfull = .ok none)

def Gives (u : Unicode) (line : Str) : Prop :=
  ∃ line' entry reports, readLine line = .ok (.entry line') ∧ readEntry u line' = .ok (some entry, reports)

def Insertable (hash : HashOrder) (s : Subs) (line : Str) : Prop :=
  (pairs hash s.constanttbl).foldlM (fun _ constant => insertValues s.started line constant) () = .ok ()

instance (hash : HashOrder) (s : Subs) (line : Str) : Decidable (Insertable hash s line) :=
  inferInstanceAs (Decidable (_ = _))

theorem note_returns (line : Str) : ∃ note, lmatch line (lit "%(([^%)]+)") = .ok note := by
  have here (i : Nat) : ∃ found, matchAt line (lit "%(([^%)]+)") i = .ok found := by
    rw [matchAt, show (lit "%(([^%)]+)").length = 10 by decide,
      show lit "%(([^%)]+)" = [37, 40, 40, 91, 94, 37, 41, 93, 43, 41] by decide,
      matchHere_escape line 10 i [] 40 _ (by decide) (by decide)]
    split
    case isFalse => exact ⟨none, rfl⟩
    case isTrue =>
      rw [matchHere_open line 9 (i + 1) [] _ (by decide),
        matchHere_plus line 8 (i + 1) _ (fun b => !inSet b [37, 41]) 91 [94, 37, 41, 93, 43, 41] [41]
          (by decide) (by decide) fun b => rfl]
      split
      case isFalse => exact ⟨none, rfl⟩
      case isTrue =>
        apply maxExpand_returns
        intro j
        rw [matchHere_close, matchHere_nil]
        exact ⟨_, rfl⟩
  obtain ⟨found, searched⟩ := searchFrom_returns _ (line.length - searchStart line 1 + 1) (searchStart line 1) here
  have found : findPattern line (lit "%(([^%)]+)") 1 = .ok found := by
    rw [← searched, show lit "%(([^%)]+)" = [37, 40, 40, 91, 94, 37, 41, 93, 43, 41] by decide]
    rfl
  exact ⟨_, by rw [lmatch, found]; rfl⟩

theorem readEntry_lacking (u : Unicode) {line : Str} (lacking : Lacking line)
    {result : Option Entry × List Report} (ran : readEntry u line = .ok result) :
    sides line = .ok none := by
  cases lacking with
  | sides missing => exact missing
  | original origfull repl found missing =>
      obtain ⟨note, _, ran⟩ := bind_eq_ok.mp ran
      rw [found, run_bind_ok] at ran
      obtain ⟨⟨repl', reports⟩, _, ran⟩ := bind_eq_ok.mp ran
      simp only [missing, run_bind_ok] at ran
      cases ran

/-! One line. -/

theorem setupEntry_eq_ok {hash : HashOrder} {u : Unicode} {s next : Subs} {line : Str} :
    setupEntry hash u s line = .ok next ↔ Insertable hash s line ∧ ∃ entry reports,
      readEntry u line = .ok (entry, reports) ∧ next = { s with
        i := s.i + 1
        started := true
        entries := s.entries ++ (entry.map fun entry => (s.i, entry)).toList
        reports := s.reports ++ reports } := by
  constructor
  · intro ran
    obtain ⟨_, inserted, ran⟩ := bind_eq_ok.mp ran
    obtain ⟨⟨entry, reports⟩, read, ran⟩ := bind_eq_ok.mp ran
    exact ⟨inserted, entry, reports, read, (Except.ok.inj ran).symm⟩
  · rintro ⟨inserted, entry, reports, read, rfl⟩
    rw [setupEntry, inserted, run_bind_ok, read]
    rfl

theorem insertValues_started {started : Bool} {line : Str} {constant : Str × List Str}
    (ran : insertValues started line constant = .ok ()) : insertValues true line constant = .ok () := by
  cases started with
  | true => exact ran
  | false =>
      obtain ⟨found, read, ran⟩ := bind_eq_ok.mp ran
      rw [insertValues, read, run_bind_ok]
      split at ran
      case isFalse absent => exact if_neg absent
      case isTrue present =>
        rw [if_pos present]
        generalize constant.2 = values at ran
        cases values with
        | nil => rfl
        | cons value values =>
            rw [List.foldlM_cons] at ran
            obtain ⟨_, step, _⟩ := bind_eq_ok.mp ran
            obtain ⟨_, _, raised⟩ := bind_eq_ok.mp step
            cases raised

theorem Insertable.started {hash : HashOrder} {s s' : Subs} {line : Str} (inserted : Insertable hash s line)
    (same : s'.constanttbl = s.constanttbl) (started : s'.started = true) : Insertable hash s' line := by
  unfold Insertable at inserted ⊢
  rw [same, started]
  generalize pairs hash s.constanttbl = constants at inserted
  induction constants with
  | nil => rfl
  | cons constant constants ih =>
      rw [List.foldlM_cons] at inserted ⊢
      obtain ⟨_, first, rest⟩ := bind_eq_ok.mp inserted
      rw [insertValues_started first, run_bind_ok]
      exact ih rest

/-! Two runs, the second of them one index ahead. -/

structure Ahead (s s' : Subs) : Prop where
  index : s'.i = s.i + 1
  constants : s'.constanttbl = s.constanttbl
  started : s'.started = true

def later (entry : Nat × Entry) : Nat × Entry := (entry.1 + 1, entry.2)

section

variable {hash : HashOrder} {u : Unicode}

theorem setupLine_ahead {s s' next : Subs} {line : Str} (ahead : Ahead s s')
    (ran : setupLine hash u s line = .ok next) :
    ∃ next' new, setupLine hash u s' line = .ok next' ∧ Ahead next next' ∧
      next.entries = s.entries ++ new ∧ next'.entries = s'.entries ++ new.map later ∧
      s'.reports ⊆ next'.reports ∧ (new ≠ [] ↔ Gives u line) := by
  obtain ⟨kind, read, ran⟩ := bind_eq_ok.mp ran
  have other (apart : ∀ line', kind ≠ .entry line') : ¬ Gives u line := by
    rintro ⟨line', _, _, read', _⟩
    rw [read] at read'
    exact apart line' (Except.ok.inj read')
  rw [setupLine, read, run_bind_ok]
  cases kind with
  | blank =>
      obtain rfl := Except.ok.inj ran
      exact ⟨s', [], rfl, ahead, by simp, by simp, List.Subset.refl _, by simpa using other (by simp)⟩
  | constant constant values =>
      obtain rfl := Except.ok.inj ran
      refine ⟨_, [], rfl, ⟨ahead.index, ?_, ahead.started⟩, by simp, by simp, List.Subset.refl _,
        by simpa using other (by simp)⟩
      exact congrArg (AList.insert constant values) ahead.constants
  | refused constant =>
      obtain rfl := Except.ok.inj ran
      exact ⟨_, [], rfl, ⟨ahead.index, ahead.constants, ahead.started⟩, by simp, by simp,
        List.subset_append_left _ _, by simpa using other (by simp)⟩
  | entry line' =>
      obtain ⟨inserted, entry, reports, readEntry', rfl⟩ := setupEntry_eq_ok.mp ran
      refine ⟨_, (entry.map fun entry => (s.i, entry)).toList, setupEntry_eq_ok.mpr
        ⟨inserted.started ahead.constants ahead.started, entry, reports, readEntry', rfl⟩,
        ⟨by rw [ahead.index], ahead.constants, rfl⟩, rfl, ?_, List.subset_append_left _ _, ?_⟩
      · cases entry with
        | none => rfl
        | some entry => simp [later, ahead.index]
      · cases entry with
        | none =>
            refine iff_of_false (by simp) ?_
            rintro ⟨line'', entry, reports', read', gives⟩
            rw [read] at read'
            obtain rfl := ListLine.entry.inj (Except.ok.inj read')
            rw [readEntry'] at gives
            cases gives
        | some entry => exact iff_of_true (by simp) ⟨line', entry, reports, read, readEntry'⟩

theorem setupLines_ahead (lines : List Str) {s s' next : Subs} (ahead : Ahead s s')
    (ran : lines.foldlM (setupLine hash u) s = .ok next) :
    ∃ next' new, lines.foldlM (setupLine hash u) s' = .ok next' ∧
      next.entries = s.entries ++ new ∧ next'.entries = s'.entries ++ new.map later ∧
      s'.reports ⊆ next'.reports ∧ (new ≠ [] ↔ ∃ line ∈ lines, Gives u line) := by
  induction lines generalizing s s' with
  | nil =>
      obtain rfl := Except.ok.inj ran
      exact ⟨s', [], rfl, by simp, by simp, List.Subset.refl _, by simp⟩
  | cons line lines ih =>
      rw [List.foldlM_cons] at ran ⊢
      obtain ⟨middle, first, ran⟩ := bind_eq_ok.mp ran
      obtain ⟨middle', new, first', ahead', entries, entries', reports, gives⟩ := setupLine_ahead ahead first
      obtain ⟨next', more, rest', later', later'', reports', gives'⟩ := ih ahead' ran
      refine ⟨next', new ++ more, ?_, ?_, ?_, List.Subset.trans reports reports', ?_⟩
      · rw [first', run_bind_ok, rest']
      · rw [later', entries, List.append_assoc]
      · rw [later'', entries', List.map_append, List.append_assoc]
      · rw [Ne, List.append_eq_nil_iff, not_and_or, ← Ne, ← Ne, gives, gives']
        simp

/-! The entries stand at increasing indices, all of them below the next one. -/

structure Ordered (s : Subs) : Prop where
  below : ∀ entry ∈ s.entries, entry.1 < s.i
  increasing : s.entries.Pairwise fun one next => one.1 < next.1

theorem setupEntry_ordered {s next : Subs} {line : Str} (ordered : Ordered s)
    (ran : setupEntry hash u s line = .ok next) : Ordered next := by
  obtain ⟨_, entry, reports, _, rfl⟩ := setupEntry_eq_ok.mp ran
  constructor
  · intro other member
    cases List.mem_append.mp member with
    | inl before => exact Nat.lt_succ_of_lt (ordered.below other before)
    | inr new =>
        obtain ⟨_, _, rfl⟩ := Option.map_eq_some_iff.mp (Option.mem_toList.mp new)
        exact Nat.lt_succ_self s.i
  · refine List.pairwise_append.mpr ⟨ordered.increasing, ?_, fun one before other new => ?_⟩
    · cases entry with
      | none => exact List.Pairwise.nil
      | some entry => exact List.pairwise_singleton _ _
    · obtain ⟨_, _, rfl⟩ := Option.map_eq_some_iff.mp (Option.mem_toList.mp new)
      exact ordered.below one before

theorem setupLine_ordered {s next : Subs} {line : Str} (ordered : Ordered s)
    (ran : setupLine hash u s line = .ok next) : Ordered next := by
  obtain ⟨kind, _, ran⟩ := bind_eq_ok.mp ran
  cases kind with
  | blank => cases ran; exact ordered
  | constant => cases ran; exact ⟨ordered.below, ordered.increasing⟩
  | refused => cases ran; exact ⟨ordered.below, ordered.increasing⟩
  | entry => exact setupEntry_ordered ordered ran

theorem setupLines_ordered (lines : List Str) {s next : Subs} (ordered : Ordered s)
    (ran : lines.foldlM (setupLine hash u) s = .ok next) : Ordered next := by
  induction lines generalizing s with
  | nil => cases ran; exact ordered
  | cons line lines ih =>
      rw [List.foldlM_cons] at ran
      obtain ⟨middle, first, ran⟩ := bind_eq_ok.mp ran
      exact ih (setupLine_ordered ordered first) ran

theorem start_ordered : Ordered Subs.start where
  below _ member := absurd member List.not_mem_nil
  increasing := List.Pairwise.nil

end

theorem lookup_later {before new : List (Nat × Entry)}
    (increasing : (before ++ new).Pairwise fun one next => one.1 < next.1) (filled : new ≠ []) :
    ∃ i entry, (before ++ new).lookup i = some entry ∧ (before ++ new.map later).lookup i = none := by
  obtain ⟨⟨i, entry⟩, new, rfl⟩ := List.exists_cons_of_ne_nil filled
  obtain ⟨_, after, apart⟩ := List.pairwise_append.mp increasing
  have absent : before.lookup i = none := by
    rw [List.lookup_eq_none_iff]
    intro other member
    have less : other.1 < i := apart other member (i, entry) List.mem_cons_self
    exact bne_iff_ne.mpr less.ne'
  refine ⟨i, entry, ?_, ?_⟩
  · rw [List.lookup_append, absent, List.lookup_cons_self, Option.none_or]
  · rw [List.lookup_append, absent, Option.none_or, List.lookup_eq_none_iff]
    intro other member
    obtain ⟨old, found, rfl⟩ := List.mem_map.mp member
    have least : i ≤ old.1 := by
      cases List.mem_cons.mp found with
      | inl first => rw [first]
      | inr rest => exact Nat.le_of_lt (List.rel_of_pairwise_cons after rest)
    exact bne_iff_ne.mpr (Nat.lt_succ_of_le least).ne

def past (s : Subs) (line : Str) : Subs :=
  { s with
    i := s.i + 1
    started := true
    entries := s.entries ++ []
    reports := s.reports ++ [.unreadable line] }

theorem setupsubs_inserted {hash : HashOrder} {u : Unicode} {text text' : Str} {pre post : List Str}
    {bad line : Str} {subs s : Subs} (lines : listLines text = .ok (pre ++ post))
    (lines' : listLines text' = .ok (pre ++ bad :: post)) (read : readLine bad = .ok (.entry line))
    (missing : sides line = .ok none) (ran : setupsubs hash u text = .ok subs)
    (before : pre.foldlM (setupLine hash u) Subs.start = .ok s) (inserted : Insertable hash s line) :
    ∃ subs' new, setupsubs hash u text' = .ok subs' ∧ Report.unreadable line ∈ subs'.reports ∧
      subs.entries = s.entries ++ new ∧ subs'.entries = s.entries ++ new.map later ∧
      (new ≠ [] ↔ ∃ line ∈ post, Gives u line) := by
  obtain ⟨note, noted⟩ := note_returns line
  have unread : readEntry u line = .ok (none, [.unreadable line]) := by
    rw [readEntry, noted, run_bind_ok, missing]
    rfl
  have step : setupLine hash u s bad = .ok (past s line) := by
    rw [setupLine, read, run_bind_ok]
    exact setupEntry_eq_ok.mpr ⟨inserted, none, _, unread, rfl⟩
  have after : post.foldlM (setupLine hash u) s = .ok subs := by
    rw [setupsubs, lines, run_bind_ok, List.foldlM_append, before, run_bind_ok] at ran
    exact ran
  obtain ⟨subs', new, rest, entries, entries', reports, gives⟩ :=
    setupLines_ahead post (show Ahead s (past s line) from ⟨rfl, rfl, rfl⟩) after
  refine ⟨subs', new, ?_, reports (by simp [past]), entries, ?_, gives⟩
  · rw [setupsubs, lines', run_bind_ok, List.foldlM_append, before, run_bind_ok, List.foldlM_cons, step,
      run_bind_ok, rest]
  · rw [entries', past, List.append_nil]

/-- An uninterpretable line costs only itself just when nothing after it gives an entry: the
index advances past it. One whose left side is missing only between its modifiers raises, and
so may a constant that stands in it. -/
theorem setupsubs_badLine {hash : HashOrder} {u : Unicode} {text text' : Str} {pre post : List Str}
    {bad line : Str} {subs : Subs} (lines : listLines text = .ok (pre ++ post))
    (lines' : listLines text' = .ok (pre ++ bad :: post)) (read : readLine bad = .ok (.entry line))
    (lacking : Lacking line) (ran : setupsubs hash u text = .ok subs) :
    (∃ subs', setupsubs hash u text' = .ok subs' ∧ Report.unreadable line ∈ subs'.reports ∧
      subs'.origtbl = subs.origtbl ∧ subs'.repltbl = subs.repltbl ∧ subs'.modtbl = subs.modtbl ∧
      subs'.notetbl = subs.notetbl) ↔
    sides line = .ok none ∧ (∀ later ∈ post, ¬ Gives u later) ∧
      ∃ s, pre.foldlM (setupLine hash u) Subs.start = .ok s ∧ Insertable hash s line := by
  constructor
  · intro h
    obtain ⟨subs', ran', _, origs, _⟩ := h
    rw [setupsubs, lines', run_bind_ok, List.foldlM_append] at ran'
    obtain ⟨s, before, after⟩ := bind_eq_ok.mp ran'
    rw [List.foldlM_cons] at after
    obtain ⟨_, step, after⟩ := bind_eq_ok.mp after
    rw [setupLine, read, run_bind_ok] at step
    obtain ⟨inserted, _, _, readBad, _⟩ := setupEntry_eq_ok.mp step
    have missing := readEntry_lacking u lacking readBad
    refine ⟨missing, ?_, s, before, inserted⟩
    obtain ⟨other, new, ran'', _, entries, entries', gives⟩ :=
      setupsubs_inserted lines lines' read missing ran before inserted
    obtain rfl : other = subs' := by
      rw [setupsubs, lines', run_bind_ok, List.foldlM_append] at ran''
      exact Except.ok.inj (ran''.symm.trans ran')
    by_contra found
    push Not at found
    have filled := gives.mpr found
    have ordered : Ordered subs := by
      rw [setupsubs, lines, run_bind_ok] at ran
      exact setupLines_ordered _ start_ordered ran
    obtain ⟨i, entry, present, absent⟩ := lookup_later (entries ▸ ordered.increasing) filled
    have same := congrFun origs i
    rw [Subs.origtbl, Subs.origtbl, entries, entries', present, absent] at same
    cases same
  · intro h
    obtain ⟨missing, silent, s, before, inserted⟩ := h
    obtain ⟨subs', new, ran', report, entries, entries', gives⟩ :=
      setupsubs_inserted lines lines' read missing ran before inserted
    have empty : new = [] := by
      by_contra filled
      obtain ⟨later, member, given⟩ := gives.mp filled
      exact silent later member given
    have same : subs'.entries = subs.entries := by rw [entries', entries, empty]; rfl
    refine ⟨subs', ran', report, ?_, ?_, ?_, ?_⟩ <;> funext i
    · rw [Subs.origtbl, Subs.origtbl, same]
    · rw [Subs.repltbl, Subs.repltbl, same]
    · rw [Subs.modtbl, Subs.modtbl, same]
    · rw [Subs.notetbl, Subs.notetbl, same]

def oneRule : Subs := ⟨2, ∅, true, [(1, ⟨lit "a", lit "b", none, none⟩)], []⟩

theorem setupLine_oneRule : setupLine .stored unicode Subs.start (lit "a=b") = .ok oneRule := by
  rw [setupLine, show readLine (lit "a=b") = .ok (.entry (lit "a=b")) by decide, run_bind_ok]
  exact setupEntry_eq_ok.mpr ⟨by decide, some ⟨lit "a", lit "b", none, none⟩, [], by decide +kernel, rfl⟩

theorem setupsubs_oneRule : setupsubs .stored unicode (lit "a=b") = .ok oneRule := by
  rw [setupsubs, show listLines (lit "a=b") = .ok [lit "a=b"] by decide, run_bind_ok, List.foldlM_cons,
    setupLine_oneRule]
  rfl

theorem setupsubs_badLine_last :
    ∃ subs', setupsubs .stored unicode (lit "a=b\nfoo") = .ok subs' ∧
      Report.unreadable (lit "foo") ∈ subs'.reports ∧ subs'.origtbl = oneRule.origtbl ∧
      subs'.repltbl = oneRule.repltbl ∧ subs'.modtbl = oneRule.modtbl ∧ subs'.notetbl = oneRule.notetbl := by
  have lines : listLines (lit "a=b") = .ok ([lit "a=b"] ++ []) := by decide
  have lines' : listLines (lit "a=b\nfoo") = .ok ([lit "a=b"] ++ lit "foo" :: []) := by decide
  exact (setupsubs_badLine lines lines' (by decide) (.sides (by decide)) setupsubs_oneRule).mpr
    ⟨by decide, fun _ member => absurd member List.not_mem_nil, oneRule, by
      rw [List.foldlM_cons, setupLine_oneRule]
      rfl, by decide⟩

/-- The rule that follows the line is at the second index. -/
theorem setupsubs_badLine_first :
    ¬ ∀ (hash : HashOrder) (u : Unicode) (text text' : Str) (pre post : List Str) (bad line : Str) (subs : Subs),
      listLines text = .ok (pre ++ post) → listLines text' = .ok (pre ++ bad :: post) →
      readLine bad = .ok (.entry line) → Lacking line → setupsubs hash u text = .ok subs →
      ∃ subs', setupsubs hash u text' = .ok subs' ∧ Report.unreadable line ∈ subs'.reports ∧
        subs'.origtbl = subs.origtbl ∧ subs'.repltbl = subs.repltbl ∧ subs'.modtbl = subs.modtbl ∧
        subs'.notetbl = subs.notetbl := by
  intro claim
  have lines : listLines (lit "a=b") = .ok ([] ++ [lit "a=b"]) := by decide
  have lines' : listLines (lit "foo\na=b") = .ok ([] ++ lit "foo" :: [lit "a=b"]) := by decide
  obtain ⟨subs', ran, _, origs, _⟩ := claim .stored unicode _ _ _ _ _ (lit "foo") oneRule lines lines'
    (by decide) (.sides (by decide)) setupsubs_oneRule
  obtain ⟨other, new, ran', _, entries, entries', _⟩ := setupsubs_inserted lines lines' (by decide) (by decide)
    setupsubs_oneRule rfl
    (show Insertable .stored Subs.start (lit "foo") by decide)
  obtain rfl : other = subs' := Except.ok.inj (ran'.symm.trans ran)
  obtain rfl : oneRule.entries = new := entries
  have same := congrFun origs 1
  rw [Subs.origtbl, entries'] at same
  exact absurd same (by decide)

end Maccer
