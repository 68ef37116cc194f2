import Maccer.Cleanup
import Maccer.CommentMarks
import Maccer.RepairsFile

/-! What Repair Key makes of the lists, whatever the user has entered in them. -/

namespace Maccer

open Lua

namespace Repairs

/-- Words are added, and every replacement of the history is kept. -/
structure Later (s s' : Repairs) : Prop where
  added : s.addtbl <+: s'.addtbl
  kept : s'.autotbl = s.autotbl

theorem Later.refl (s : Repairs) : Later s s := ⟨List.prefix_rfl, rfl⟩

theorem Later.trans {s₁ s₂ s₃ : Repairs} (first : Later s₁ s₂) (second : Later s₂ s₃) : Later s₁ s₃ :=
  ⟨first.added.trans second.added, second.kept.trans first.kept⟩

theorem foldlM_later {α : Type} {read : Repairs → α → Run Repairs} {lines : List α}
    (each : ∀ line ∈ lines, ∀ s s', read s line = .ok s' → Later s s') {s s' : Repairs}
    (ran : lines.foldlM read s = .ok s') : Later s s' := by
  induction lines generalizing s with
  | nil =>
      obtain rfl := Except.ok.inj ran
      exact Later.refl s
  | cons line lines ih =>
      obtain ⟨next, step, rest⟩ := bind_eq_ok.mp (List.foldlM_cons.symm.trans ran)
      exact (each line List.mem_cons_self s next step).trans
        (ih (fun l member => each l (List.mem_cons_of_mem _ member)) rest)

/-! One line. -/

theorem manadd_later {s s' : Repairs} {entry : Str} (ran : manadd s entry = .ok s') : Later s s' := by
  obtain ⟨found, _, ran⟩ := bind_eq_ok.mp ran
  cases found with
  | none =>
      obtain rfl := Except.ok.inj ran
      exact Later.refl s
  | some addw =>
      obtain rfl := Except.ok.inj ran
      exact ⟨List.prefix_append _ _, rfl⟩

theorem readcustom_later {s s' : Repairs} {line : Str} (ran : readcustom s line = .ok s') : Later s s' := by
  unfold readcustom at ran
  obtain ⟨found, _, ran⟩ := bind_eq_ok.mp ran
  split at ran
  · obtain rfl := Except.ok.inj ran
    exact ⟨List.prefix_rfl, rfl⟩
  · obtain ⟨less, _, ran⟩ := bind_eq_ok.mp ran
    obtain ⟨equals, _, ran⟩ := bind_eq_ok.mp ran
    split at ran
    · obtain rfl := Except.ok.inj ran
      exact Later.refl s
    · obtain ⟨added, _, ran⟩ := bind_eq_ok.mp ran
      cases added with
      | none =>
          obtain rfl := Except.ok.inj ran
          exact Later.refl s
      | some addw =>
          obtain rfl := Except.ok.inj ran
          exact ⟨List.prefix_append _ _, rfl⟩

theorem readmulti_later {t : Tables} {fuel : Nat} {LONG_PERF_SUBJ : Bool} {s s' : Repairs} {entry : Str}
    (ran : readmulti t fuel LONG_PERF_SUBJ s entry = .ok s') : Later s s' := by
  unfold readmulti at ran
  obtain ⟨choices, _, ran⟩ := bind_eq_ok.mp ran
  obtain ⟨multiw, _, ran⟩ := bind_eq_ok.mp ran
  split at ran
  case isTrue =>
    obtain rfl := Except.ok.inj ran
    exact Later.refl s
  case isFalse =>
    cases choices with
    | none =>
        obtain ⟨w, _, ran⟩ := bind_eq_ok.mp ran
        obtain rfl := Except.ok.inj ran
        exact ⟨List.prefix_rfl, rfl⟩
    | some choices =>
        obtain ⟨replw, _, ran⟩ := bind_eq_ok.mp ran
        cases replw with
        | none => exact manadd_later ran
        | some replw =>
            obtain ⟨w, _, ran⟩ := bind_eq_ok.mp ran
            obtain ⟨session, _, ran⟩ := bind_eq_ok.mp ran
            have later := manadd_later ran
            exact ⟨later.added, later.kept⟩

theorem readentry_later {comment pattern : Str} {fixed : List Str → Run Str}
    {repair : Repairs → Str → Str → Run Repairs}
    (each : ∀ s s' origw replw, repair s origw replw = .ok s' → Later s s') {s s' : Repairs} {line : Str}
    (ran : readentry comment pattern fixed repair s line = .ok s') : Later s s' := by
  unfold readentry at ran
  split at ran
  case isTrue =>
    obtain rfl := Except.ok.inj ran
    exact Later.refl s
  case isFalse =>
    obtain ⟨found, _, ran⟩ := bind_eq_ok.mp ran
    split at ran
    · obtain ⟨manual, _, ran⟩ := bind_eq_ok.mp ran
      obtain ⟨replw, _, ran⟩ := bind_eq_ok.mp ran
      cases replw with
      | none =>
          have later := manadd_later ran
          exact ⟨later.added, later.kept⟩
      | some replw =>
          obtain ⟨next, repaired, ran⟩ := bind_eq_ok.mp ran
          exact (each s next _ replw repaired).trans (manadd_later ran)
    · obtain rfl := Except.ok.inj ran
      exact Later.refl s

theorem repairInKey_later {s s' : Repairs} {origw replw : Str} (ran : repairInKey s origw replw = .ok s') :
    Later s s' := by
  obtain ⟨key, _, ran⟩ := bind_eq_ok.mp ran
  obtain rfl := Except.ok.inj ran
  exact ⟨List.prefix_rfl, rfl⟩

theorem setrepl_later {s s' : Repairs} {origw replw : Str}
    (ran : (pure (s.setrepl origw replw) : Run Repairs) = .ok s') : Later s s' := by
  obtain rfl := Except.ok.inj ran
  exact ⟨List.prefix_rfl, rfl⟩

theorem readabv_later {s s' : Repairs} {line : Str} (ran : readabv s line = .ok s') : Later s s' := by
  refine readentry_later (fun s s' origw replw step => ?_) ran
  have later := repairInKey_later step
  exact ⟨later.added, later.kept⟩

theorem readenc_later {t : Tables} {s s' : Repairs} {line : Str} (ran : readenc t s line = .ok s') : Later s s' := by
  refine readentry_later (fun s s' origw replw step => ?_) ran
  have later := repairInKey_later step
  exact ⟨later.added, later.kept⟩

theorem readprf_later {LONG_PERF_SUBJ : Bool} {s s' : Repairs} {line : Str} (ran : readprf LONG_PERF_SUBJ s line = .ok s') :
    Later s s' :=
  readentry_later (fun _ _ _ _ => setrepl_later) ran

theorem readhid_later {s s' : Repairs} {line : Str} (ran : readhid s line = .ok s') : Later s s' :=
  readentry_later (fun _ _ _ _ => setrepl_later) ran

theorem readorth_later {s s' : Repairs} {line : Str} (ran : readorth s line = .ok s') : Later s s' :=
  readentry_later (fun _ _ _ _ => setrepl_later) ran

theorem readambline_later {s s' : Repairs} {line : Str} (ran : readambline s line = .ok s') : Later s s' := by
  obtain ⟨fixes, _, ran⟩ := bind_eq_ok.mp ran
  have later := manadd_later ran
  exact ⟨later.added, later.kept⟩

/-! The patterns of the words of the history have a tab in front of the word. -/

theorem lmatch_tab {line rest : Str} (untabbed : 9 ∉ line) (once : isMark rest.head? = false) :
    lmatch line (lit "%)\t" ++ rest) = .ok none := by
  have shape : lit "%)\t" ++ rest = 37 :: 41 :: 9 :: rest := by
    rw [show lit "%)\t" = [37, 41, 9] by decide]
    rfl
  rw [shape]
  refine lmatch_none (by simp) fun i => ?_
  rw [matchAt, matchHere_escape line _ i [] 41 (9 :: rest) (by decide) rfl]
  split
  · rw [List.length_cons, List.length_cons, matchHere_literal line _ (i + 1) [] 9 rest (by decide) once, if_neg]
    exact fun tab => untabbed (List.mem_of_getElem? tab)
  · rfl

theorem firstMatch_tab {line rest : Str} (untabbed : 9 ∉ line) (once : isMark rest.head? = false) :
    firstMatch line (lit "%)\t" ++ rest) = .ok none := by
  rw [firstMatch, lmatch_tab untabbed once]
  rfl

theorem readauto_later {fixed : Str → Run Str} {s s' : Repairs} {line : Str}
    (ran : readauto fixed s line = .ok s') : Later s s' := by
  unfold readauto at ran
  split at ran
  case isTrue =>
    obtain rfl := Except.ok.inj ran
    exact Later.refl s
  case isFalse =>
    obtain ⟨manreplw, _, ran⟩ := bind_eq_ok.mp ran
    obtain ⟨w, _, ran⟩ := bind_eq_ok.mp ran
    obtain ⟨s₁, first, ran⟩ := bind_eq_ok.mp ran
    obtain ⟨s₂, second, ran⟩ := bind_eq_ok.mp ran
    obtain ⟨s₃, third, ran⟩ := bind_eq_ok.mp ran
    have replaced : Later s s₁ := by
      cases manreplw with
      | none =>
          obtain rfl := Except.ok.inj first
          exact Later.refl s
      | some manreplw =>
          obtain ⟨w, _, rfl⟩ := map_eq_ok.mp first
          exact ⟨List.prefix_rfl, rfl⟩
    have cleared : Later s₁ s₂ := by
      split at second
      · obtain ⟨w, _, rfl⟩ := map_eq_ok.mp second
        exact ⟨List.prefix_rfl, rfl⟩
      · obtain ⟨w, _, rfl⟩ := map_eq_ok.mp second
        exact Later.refl s₁
    exact (replaced.trans cleared).trans ((manadd_later third).trans (manadd_later ran))

theorem lmatch_autorepl {line : Str} (untabbed : 9 ∉ line) :
    lmatch line (wordIn "%)\t" "[ ]*%->[ ]*" ++ wordIn "" "") = .ok none := by
  rw [wordIn, List.append_assoc, List.append_assoc, List.append_assoc, List.append_assoc]
  exact lmatch_tab untabbed rfl

/-- A replacement of the history is not found, so neither is it made nor cancelled. -/
theorem readautorepl_unread (s : Repairs) {line : Str} (untabbed : 9 ∉ line) {s' : Repairs}
    (ran : readautorepl s line = .ok s') : s' = s ∨ manadd s line = .ok s' := by
  unfold readautorepl at ran
  split at ran
  case isTrue =>
    obtain rfl := Except.ok.inj ran
    exact .inl rfl
  case isFalse =>
    obtain ⟨manreplw, _, ran⟩ := bind_eq_ok.mp ran
    rw [lmatch_autorepl untabbed, run_bind_ok] at ran
    exact .inr ran

/-- A word that is to be left alone is not found, so an x in front of it raises. -/
theorem readok_unread (s : Repairs) {line : Str} (untabbed : 9 ∉ line) :
    readok s line = if line.take 1 = lit "x" then .error .raised else manadd s line := by
  have missing : firstMatch line (wordIn "%)\t" "") = .ok none := by
    rw [wordIn, List.append_assoc, List.append_assoc, List.append_assoc]
    exact firstMatch_tab untabbed rfl
  rw [readok, missing, run_bind_ok]
  rfl

theorem readautorepl_later {s s' : Repairs} {line : Str} (untabbed : 9 ∉ line) (ran : readautorepl s line = .ok s') :
    Later s s' := by
  rcases readautorepl_unread s untabbed ran with rfl | added
  · exact Later.refl s'
  · exact manadd_later added

theorem readok_later {s s' : Repairs} {line : Str} (untabbed : 9 ∉ line) (ran : readok s line = .ok s') : Later s s' := by
  rw [readok_unread s untabbed] at ran
  split at ran
  case isTrue => cases ran
  case isFalse => exact manadd_later ran

/-! The sections. -/

theorem decomment_subset {text d : Str} (bare : decomment text = .ok d) : d ⊆ text := by
  rw [decomment_cuts] at bare
  obtain ⟨marks, _, rfl⟩ := map_eq_ok.mp bare
  exact keep_subset marks text

theorem sections_untabbed {cleanstr : Str} {sectionstbl : List Str} (ran : sections cleanstr = .ok sectionstbl) :
    ∀ str ∈ sectionstbl, 9 ∉ str := by
  obtain ⟨parts, _, ran⟩ := bind_eq_ok.mp ran
  intro str member
  obtain ⟨part, _, cleaned⟩ := mem_mapM ran member
  have untabbed := cleanup_untabbed part.1 false
  dsimp only at cleaned
  split at cleaned
  · exact fun tab => untabbed (decomment_subset cleaned tab)
  · obtain rfl := Except.ok.inj cleaned
    exact untabbed

theorem line_untabbed {str line : Str} (untabbed : 9 ∉ str) (member : line ∈ str.splitOn 10) : 9 ∉ line := by
  intro tab
  have joined := mem_lines (b := 9) (by decide) (str.splitOn 10)
  rw [List.intercalate_splitOn 10] at joined
  exact untabbed (joined.mpr ⟨line, member, tab⟩)

section Sections

variable {sectionstbl : List Str} (untabbed : ∀ str ∈ sectionstbl, 9 ∉ str)
include untabbed

theorem readLines_later {read : Repairs → Str → Run Repairs}
    (each : ∀ line, 9 ∉ line → ∀ s s', read s line = .ok s' → Later s s') {i : Nat} {s s' : Repairs}
    (ran : readLines sectionstbl i read s = .ok s') : Later s s' := by
  obtain ⟨str, found, ran⟩ := bind_eq_ok.mp ran
  have member : str ∈ sectionstbl := by
    cases here : sectionstbl[i - 1]? with
    | none =>
        rw [here] at found
        cases found
    | some other =>
        rw [here] at found
        obtain rfl := Except.ok.inj found
        exact List.mem_of_getElem? here
  exact foldlM_later (fun line among => each line (line_untabbed (untabbed str member) among)) ran

theorem readhistory_later {t : Tables} {issue : Issue} {s s' : Repairs}
    (ran : readhistory t sectionstbl s issue = .ok s') : Later s s' := by
  obtain ⟨next, first, ran⟩ := bind_eq_ok.mp ran
  have made : Later s next := by
    apply readLines_later untabbed ?_ first
    intro line clean s s' step
    cases issue with
    | ABV | ENC => exact readauto_later step
    | PRF | HID | ORTH | AMB => exact readautorepl_later clean step
  exact made.trans (readLines_later untabbed (fun line clean s s' step => readok_later clean step) ran)

end Sections

/-- After the custom replacements, what has been added and what is replaced again is kept. -/
theorem loadrepairsfile_parts {t : Tables} {fuel : Nat} {LONG_PERF_SUBJ : Bool} {file : Str} {s s' : Repairs}
    (ran : loadrepairsfile t fuel LONG_PERF_SUBJ file s = .ok s') :
    ∃ sectionstbl custom, sections (hyphened (readutf8 file)) = .ok sectionstbl ∧
      readLines sectionstbl 1 readcustom s = .ok custom ∧ Later custom s' := by
  unfold loadrepairsfile at ran
  rw [hyphens2macs_eq, run_bind_ok] at ran
  obtain ⟨sectionstbl, cleaned, ran⟩ := bind_eq_ok.mp ran
  obtain ⟨custom, first, ran⟩ := bind_eq_ok.mp ran
  obtain ⟨str, _, ran⟩ := bind_eq_ok.mp ran
  obtain ⟨entries, _, ran⟩ := bind_eq_ok.mp ran
  obtain ⟨multi, entered, ran⟩ := bind_eq_ok.mp ran
  obtain ⟨abv, third, ran⟩ := bind_eq_ok.mp ran
  obtain ⟨enc, fourth, ran⟩ := bind_eq_ok.mp ran
  obtain ⟨prf, fifth, ran⟩ := bind_eq_ok.mp ran
  obtain ⟨hid, sixth, ran⟩ := bind_eq_ok.mp ran
  obtain ⟨orth, seventh, ran⟩ := bind_eq_ok.mp ran
  obtain ⟨amb, eighth, ran⟩ := bind_eq_ok.mp ran
  have untabbed := sections_untabbed cleaned
  have each {read : Repairs → Str → Run Repairs} (later : ∀ s s' line, read s line = .ok s' → Later s s') {i : Nat}
      {s s' : Repairs} (ran : readLines sectionstbl i read s = .ok s') : Later s s' :=
    readLines_later untabbed (fun line _ s s' step => later s s' line step) ran
  have lists : Later custom prf :=
    (foldlM_later (fun _ _ _ _ => readmulti_later) entered).trans
      ((each (fun _ _ _ => readabv_later) third).trans
        ((each (fun _ _ _ => readenc_later) fourth).trans (each (fun _ _ _ => readprf_later) fifth)))
  have lists' : Later prf amb :=
    (each (fun _ _ _ => readhid_later) sixth).trans
      ((each (fun _ _ _ => readorth_later) seventh).trans (each (fun _ _ _ => readambline_later) eighth))
  have history : Later amb s' := foldlM_later (fun _ _ _ _ => readhistory_later untabbed) ran
  exact ⟨sectionstbl, custom, cleaned, first, lists.trans (lists'.trans history)⟩

/-- In no file that is read an x takes a replacement out of the history. -/
theorem loadrepairsfile_later {t : Tables} {fuel : Nat} {LONG_PERF_SUBJ : Bool} {file : Str} {s s' : Repairs}
    (ran : loadrepairsfile t fuel LONG_PERF_SUBJ file s = .ok s') : Later s s' := by
  obtain ⟨sectionstbl, custom, cleaned, first, later⟩ := loadrepairsfile_parts ran
  exact (readLines_later (sections_untabbed cleaned) (fun _ _ _ _ => readcustom_later) first).trans later

/-! The section of custom replacements. -/

theorem split_front {front rest : Str} (free : 95 ∉ front) {parts : List Str}
    (ran : split (front ++ DIVIDER ++ rest) DIVIDER = .ok parts) : ∃ later, parts = front :: later := by
  have first : FirstAt DIVIDER (front ++ DIVIDER ++ rest) 0 front.length := by
    refine ⟨Nat.zero_le _, ?_, fun j _ less starts => ?_⟩
    · rw [List.append_assoc, List.drop_left]
      exact List.prefix_append _ _
    · rw [List.append_assoc, List.drop_append_of_le_length less.le, List.drop_eq_getElem_cons less, divider_shape] at starts
      have same : 95 = front[j] := (List.cons_prefix_cons.mp starts).1
      exact free (same ▸ List.getElem_mem less)
  have found := find_literal_first (by decide) (by decide) first
  rw [Nat.cast_zero, Int.zero_add] at found
  rw [split, splitFrom, found, run_bind_ok] at ran
  obtain ⟨later, _, ran⟩ := bind_eq_ok.mp ran
  obtain rfl := Except.ok.inj ran
  rw [Int.add_sub_cancel, sub_first, List.append_assoc, List.take_left]
  exact ⟨later, rfl⟩

theorem sections_front {front rest : Str} (free : 95 ∉ front) {sectionstbl : List Str}
    (ran : sections (front ++ DIVIDER ++ rest) = .ok sectionstbl) :
    ∃ d, decomment (cleanup front false false) = .ok d ∧ sectionstbl[0]? = some d := by
  obtain ⟨parts, cut, ran⟩ := bind_eq_ok.mp ran
  obtain ⟨later, rfl⟩ := split_front free cut
  rw [List.zipIdx_cons, List.mapM_cons] at ran
  obtain ⟨d, bare, ran⟩ := bind_eq_ok.mp ran
  obtain ⟨others, _, ran⟩ := bind_eq_ok.mp ran
  obtain rfl := Except.ok.inj ran
  exact ⟨d, bare, rfl⟩

/-- A line of letters is left where comments and blanks are taken out. -/
theorem custom_line {lines : List Str} (flat : ∀ l ∈ lines, 10 ∉ l)
    (apart : ∀ l ∈ lines, Without 47 42 (spaces false (blanks l))) {line : Str} (member : line ∈ lines)
    (clean : spaces false (blanks line) = line) (filled : line ≠ []) (plain : Without 47 47 line) :
    ∃ d, decomment (cleanup ([10].intercalate lines) false false) = .ok d ∧ line ∈ d.splitOn 10 := by
  have some' : lines ≠ [] := List.ne_nil_of_mem member
  have cleaned : cleanup ([10].intercalate lines) false false =
      [10].intercalate ((lines.map fun l => spaces false (blanks l)).filter (· ≠ [])) := by
    rw [cleanup_lines, List.splitOn_intercalate 10 flat some']
    rfl
  have kept : line ∈ (lines.map fun l => spaces false (blanks l)).filter (· ≠ []) :=
    List.mem_filter.mpr ⟨List.mem_map.mpr ⟨line, member, clean⟩, by simpa using filled⟩
  have flat' : ∀ l ∈ (lines.map fun l => spaces false (blanks l)).filter (· ≠ []), 10 ∉ l :=
    fun l among => flat_cleanLines false false lines flat l (List.mem_of_mem_filter among)
  have without : Without 47 42 ([10].intercalate ((lines.map fun l => spaces false (blanks l)).filter (· ≠ []))) := by
    refine (without_lines _ fun l among => by simpa using (List.mem_filter.mp among).2).mpr
      ⟨fun l among => ?_, fun newline => absurd newline (by decide), fun newline => absurd newline (by decide)⟩
    obtain ⟨l, present, rfl⟩ := List.mem_map.mp (List.mem_of_mem_filter among)
    exact apart l present
  refine ⟨_, (congrArg decomment cleaned).trans (decomment_eq _ without.noMulti), ?_⟩
  rw [intercalate_map stripComments_line rfl _ flat',
    List.splitOn_intercalate 10 (fun l among => ?_) (List.ne_nil_of_mem (List.mem_map_of_mem kept))]
  · exact List.mem_map.mpr ⟨line, kept, stripComments_without line plain⟩
  · obtain ⟨l, present, rfl⟩ := List.mem_map.mp among
    exact fun newline => flat' l present (mem_stripComments newline)

theorem readcustom_example (s : Repairs) :
    readcustom s (lit "Example:") = .ok { s with addtbl := s.addtbl ++ [lit "Example"] } := by
  have plain : lmatch (lit "Example:") (wordIn "" "[ ]*>[ ]*(.+)") = .ok none := by decide +kernel
  have less : contains (lit "Example:") (lit "<") = .ok false := by decide +kernel
  have equals : contains (lit "Example:") (lit "=") = .ok false := by decide +kernel
  have word : firstMatch (lit "Example:") (wordIn "" "") = .ok (some (lit "Example")) := by decide +kernel
  rw [readcustom, plain, run_bind_ok]
  dsimp only
  rw [less, run_bind_ok, equals, run_bind_ok, word]
  rfl

theorem custom_example {lines : List Str} (member : lit "Example:" ∈ lines) {s s' : Repairs}
    (ran : lines.foldlM readcustom s = .ok s') : ∃ added, s.addtbl ++ added ++ [lit "Example"] <+: s'.addtbl := by
  obtain ⟨front, back, rfl⟩ := List.append_of_mem member
  rw [List.foldlM_append] at ran
  obtain ⟨s₁, first, ran⟩ := bind_eq_ok.mp ran
  rw [List.foldlM_cons, readcustom_example, run_bind_ok] at ran
  obtain ⟨added, before⟩ := (foldlM_later (fun _ _ _ _ => readcustom_later) first).added
  exact ⟨added, before ▸ (foldlM_later (fun _ _ _ _ => readcustom_later) ran).added⟩

/-! What the user enters. -/

/-- A line with an entry of a list. -/
def isEntry (line : Str) : Bool :=
  [lit "\t? ", lit "x\t? ", lit "x\t?? ", lit "\t(auto)\t", lit "\t(OK)\t"].any (·.isPrefixOf line)

/-- An x is put in front of the entries that are chosen, where there is none. -/
def markLines (chosen : Nat → Bool) : Nat → List Str → List Str
  | _, [] => []
  | n, line :: lines =>
      if isEntry line then
        (if chosen n ∧ line.head? ≠ some 120 then 120 :: line else line) :: markLines chosen (n + 1) lines
      else line :: markLines chosen n lines

def marked (chosen : Nat → Bool) (file : Str) : Str := [10].intercalate (markLines chosen 0 (file.splitOn 10))

variable {chosen : Nat → Bool}

theorem markLines_front {lines : List Str} (outside : ∀ line ∈ lines, isEntry line = false) (n : Nat) (rest : List Str) :
    markLines chosen n (lines ++ rest) = lines ++ markLines chosen n rest := by
  induction lines with
  | nil => rfl
  | cons line lines ih =>
      rw [List.cons_append, markLines, outside line List.mem_cons_self, if_neg Bool.false_ne_true,
        ih fun l member => outside l (List.mem_cons_of_mem line member), List.cons_append]

theorem markLines_ne_nil {lines : List Str} (filled : lines ≠ []) (n : Nat) : markLines chosen n lines ≠ [] := by
  obtain ⟨line, lines, rfl⟩ := List.exists_cons_of_ne_nil filled
  rw [markLines]
  split
  · exact List.cons_ne_nil _ _
  · exact List.cons_ne_nil _ _

theorem intercalate_unlines (lines : List Str) (line : Str) {later : List Str} (filled : later ≠ []) :
    [10].intercalate (lines ++ line :: later) = unlines lines ++ line ++ 10 :: [10].intercalate later := by
  obtain ⟨next, later, rfl⟩ := List.exists_cons_of_ne_nil filled
  induction lines with
  | nil => exact intercalate_lines line next later
  | cons first lines ih =>
      rw [List.cons_append, List.intercalate_cons_of_ne_nil (by simp), ih, unlines_cons]
      simp only [List.append_assoc, List.cons_append, List.nil_append]

/-- The marks leave the file as it is up to the first divider. -/
theorem marked_front {lines : List Str} (flat : ∀ line ∈ lines, 10 ∉ line)
    (outside : ∀ line ∈ lines, isEntry line = false) (rest : Str) :
    ∃ rest', marked chosen (unlines lines ++ DIVIDER ++ 10 :: rest) =
      unlines lines ++ DIVIDER ++ 10 :: rest' := by
  have divider : 10 ∉ DIVIDER := by decide
  have outside' : isEntry DIVIDER = false := by decide
  rw [marked, List.append_assoc, splitOn_unlines flat, List.splitOn_append_cons_self_of_not_mem divider,
    markLines_front outside, markLines, outside',
    if_neg Bool.false_ne_true, intercalate_unlines _ _ (markLines_ne_nil (List.splitOn_ne_nil 10 rest) 0)]
  exact ⟨_, rfl⟩

theorem hyphened_unlines {lines : List Str} (rest : Str) :
    hyphened (unlines lines ++ DIVIDER ++ 10 :: rest) = unlines (lines.map hyphened) ++ DIVIDER ++ 10 :: hyphened rest := by
  induction lines with
  | nil =>
      have plain : hyphened DIVIDER = DIVIDER := hyphened_plain (by decide)
      exact (hyphened_newline DIVIDER rest).trans (by rw [plain]; rfl)
  | cons line lines ih =>
      rw [unlines_cons, List.append_assoc, List.append_assoc, List.cons_append, hyphened_newline, ← List.append_assoc, ih,
        List.map_cons, unlines_cons]
      simp only [List.append_assoc, List.cons_append]

/-- A line of the instructions that cannot be taken for anything else. -/
structure Quiet (line : Str) : Prop where
  flat : 10 ∉ line
  divider : 95 ∉ line
  comment : 42 ∉ line ∨ 45 ∉ line ∧ Without 47 42 (spaces false (blanks line))

theorem Quiet.hyphened {line : Str} (quiet : Quiet line) :
    10 ∉ hyphened line ∧ 95 ∉ hyphened line ∧ Without 47 42 (spaces false (blanks (hyphened line))) := by
  have absent : ∀ pair ∈ hyphenPairs, 10 ∉ pair.2 ∧ 95 ∉ pair.2 ∧ 42 ∉ pair.2 := by decide
  refine ⟨fun inside => ?_, fun inside => ?_, ?_⟩
  · exact quiet.flat (mem_hyphened (by decide) (fun pair member => (absent pair member).1) inside)
  · exact quiet.divider (mem_hyphened (by decide) (fun pair member => (absent pair member).2.1) inside)
  · rcases quiet.comment with free | ⟨plain, without⟩
    · refine without_of_not_mem_right fun star => ?_
      obtain ⟨b, inside, same⟩ := List.mem_map.mp (List.mem_of_mem_filter star)
      split at same
      case isTrue => cases same
      case isFalse =>
        subst same
        exact free (mem_hyphened (by decide) (fun pair member => (absent pair member).2.2) inside)
    · rwa [hyphened_plain plain]

def introLines (date : Str) : List Str := Results.repairsIntro date ++ Results.customIntro ++ [[]]

theorem introLines_undated : ∀ line ∈ introLines [], Quiet line ∧ isEntry line = false := by
  have checked : ∀ line ∈ introLines [],
      (10 ∉ line ∧ 95 ∉ line ∧ (42 ∉ line ∨ 45 ∉ line ∧ Without 47 42 (spaces false (blanks line)))) ∧
        isEntry line = false := by
    rw [introLines, Results.repairsIntro, Results.customIntro, Results.SECTIONS, SECTION, LINE]
    repeat rw [lit_chars]
    decide +kernel
  intro line member
  obtain ⟨⟨flat, divider, comment⟩, outside⟩ := checked line member
  exact ⟨⟨flat, divider, comment⟩, outside⟩

theorem introLines_quiet {date : Str} (dated : 10 ∉ date ∧ 42 ∉ date ∧ 95 ∉ date) :
    ∀ line ∈ introLines date, Quiet line ∧ isEntry line = false := by
  obtain ⟨newline, star, low⟩ := dated
  have shape : introLines date = lit "// REPAIRS" :: (lit "// Generated by Analyze Key on " ++ date ++ lit ".") ::
      (introLines []).drop 2 := rfl
  have free : [10, 42, 95].all fun b => decide (b ∉ lit "// Generated by Analyze Key on " ∧ b ∉ lit ".") := by decide
  have generated (b : UInt8) (listed : b ∈ [10, 42, 95]) (apart : b ∉ date) :
      b ∉ lit "// Generated by Analyze Key on " ++ date ++ lit "." := by
    have outer := of_decide_eq_true (List.all_eq_true.mp free b listed)
    rw [List.mem_append, List.mem_append]
    rintro ((front | inside) | back)
    · exact outer.1 front
    · exact apart inside
    · exact outer.2 back
  intro line member
  rw [shape, List.mem_cons, List.mem_cons] at member
  rcases member with rfl | rfl | later
  · exact introLines_undated _ List.mem_cons_self
  · exact ⟨⟨generated 10 (by decide) newline, generated 95 (by decide) low, .inl (generated 42 (by decide) star)⟩, rfl⟩
  · exact introLines_undated line (List.mem_of_mem_drop later)

theorem introLines_hyphened {date : Str} (dated : 10 ∉ date ∧ 42 ∉ date ∧ 95 ∉ date) :
    ∀ line ∈ (introLines date).map hyphened ++ [[]],
      10 ∉ line ∧ 95 ∉ line ∧ Without 47 42 (spaces false (blanks line)) := by
  intro line member
  rcases List.mem_append.mp member with front | last
  · obtain ⟨l, among, rfl⟩ := List.mem_map.mp front
    exact (introLines_quiet dated l among).1.hyphened
  · obtain rfl := List.mem_singleton.mp last
    exact ⟨List.not_mem_nil, List.not_mem_nil, .nil⟩

/-- The heading of the example is the one line of the instructions that is no comment. -/
theorem introLines_example {date : Str} (dated : 10 ∉ date ∧ 42 ∉ date ∧ 95 ∉ date) :
    ∃ d, decomment (cleanup (unlines ((introLines date).map hyphened)) false false) = .ok d ∧
      lit "Example:" ∈ d.splitOn 10 := by
  have each := introLines_hyphened dated
  have listed : lit "Example:" ∈ introLines date :=
    List.mem_append_left _ (List.mem_append_left _ (by simp [Results.repairsIntro]))
  have present : lit "Example:" ∈ (introLines date).map hyphened ++ [[]] :=
    List.mem_append_left _ (List.mem_map.mpr ⟨lit "Example:", listed, hyphened_plain (by decide)⟩)
  rw [unlines_intercalate]
  exact custom_line (fun line member => (each line member).1) (fun line member => (each line member).2.2) present
    (by decide) (by decide) (by decide)

theorem introLines_divider {date : Str} (dated : 10 ∉ date ∧ 42 ∉ date ∧ 95 ∉ date) :
    95 ∉ unlines ((introLines date).map hyphened) := by
  intro inside
  obtain ⟨line, member, within⟩ := List.mem_flatMap.mp inside
  rcases List.mem_append.mp within with here | newline
  · exact (introLines_hyphened dated line (List.mem_append_left _ member)).2.1 here
  · cases List.mem_singleton.mp newline

theorem marked_intro {date : Str} (dated : 10 ∉ date ∧ 42 ∉ date ∧ 95 ∉ date) (rest : Str) :
    ∃ rest', readutf8 (marked chosen (bom ++ unlines (introLines date) ++ DIVIDER ++ 10 :: rest)) =
      unlines (introLines date) ++ DIVIDER ++ 10 :: rest' := by
  obtain ⟨lines, shape⟩ : ∃ lines, introLines date = lit "// REPAIRS" :: lines := ⟨_, rfl⟩
  have withBom : bom ++ unlines (introLines date) = unlines ((bom ++ lit "// REPAIRS") :: lines) := by
    rw [shape, unlines_cons, unlines_cons, List.append_assoc]
  have unchanged : ∀ line ∈ (bom ++ lit "// REPAIRS") :: lines, 10 ∉ line ∧ isEntry line = false := by
    intro line member
    rcases List.mem_cons.mp member with rfl | later
    · decide
    · obtain ⟨quiet, outside⟩ := introLines_quiet dated line (shape ▸ List.mem_cons_of_mem _ later)
      exact ⟨quiet.flat, outside⟩
  obtain ⟨rest', same⟩ := @marked_front chosen _ (fun line member => (unchanged line member).1)
    (fun line member => (unchanged line member).2) rest
  refine ⟨rest', ?_⟩
  rw [withBom, same, ← withBom, List.append_assoc, List.append_assoc, readutf8_bom, List.append_assoc]

/-- The heading of the example is taken for a new word, whatever is listed after the instructions and whatever the user
marks there. -/
theorem loadrepairsfile_example {date : Str} (dated : 10 ∉ date ∧ 42 ∉ date ∧ 95 ∉ date) {rest : Str} {t : Tables}
    {fuel : Nat} {LONG_PERF_SUBJ : Bool} {s s' : Repairs}
    (ran : loadrepairsfile t fuel LONG_PERF_SUBJ
      (marked chosen (bom ++ unlines (introLines date) ++ DIVIDER ++ 10 :: rest)) s = .ok s') :
    ∃ added, s.addtbl ++ added ++ [lit "Example"] <+: s'.addtbl := by
  obtain ⟨rest', text⟩ := @marked_intro chosen date dated rest
  obtain ⟨sectionstbl, custom, cleaned, read, later⟩ := loadrepairsfile_parts ran
  rw [text, hyphened_unlines] at cleaned
  obtain ⟨d, bare, first⟩ := sections_front (introLines_divider dated) cleaned
  obtain ⟨d', bare', kept⟩ := introLines_example dated
  obtain rfl := Except.ok.inj (bare.symm.trans bare')
  obtain ⟨str, found, ran⟩ := bind_eq_ok.mp read
  rw [Nat.sub_self, first] at found
  obtain rfl := Except.ok.inj found
  obtain ⟨added, example'⟩ := custom_example kept ran
  exact ⟨added, example'.trans later.added⟩

/-! What the user can expect of the file. -/

inductive Entry where
  | multi (w : Str)
  | new (issue : Issue) (w : Str)
  | auto (issue : Issue) (w : Str)
  | ok (issue : Issue) (w : Str)
  deriving DecidableEq, Repr

/-- The entries of the file in their order. -/
def entries (REPAIR_ORTH : Bool) (r : Results) : List Entry :=
  let shown := issues.filter fun issue => issue ≠ .ORTH ∨ REPAIR_ORTH = true
  (sortedpairs r.MULTI).map (fun e => .multi e.1) ++ shown.flatMap (fun issue => (r.new issue).map (.new issue)) ++
    shown.flatMap (fun issue => (r.auto issue).map (.auto issue)) ++
    shown.flatMap fun issue => (r.ok issue).map (.ok issue)

/-- The entries that are written with an x. -/
def premarked (r : Results) : Entry → Bool
  | .new .ABV _ => true
  | .new .ENC w => decide (w ∈ r.ENC_DOUBT)
  | .new .HID w => decide (w ∈ r.HID_DOUBT)
  | _ => false

/-- The word of an entry is found again, with its replacement, and so is the x in front of it. -/
def Recovered (LONG_PERF_SUBJ : Bool) (r : Results) (s s' : Repairs) (x : Bool) : Entry → Prop
  | .multi _ => True
  | .new .ABV w => if x then .str w ∈ s'.fixes.oktbl else w ∈ s'.abvtbl
  | .new .ENC w => if x then .str w ∈ s'.fixes.oktbl else w ∈ s'.enctbl
  | .new .PRF w =>
      if x then .str w ∈ s'.fixes.oktbl
      else (field s'.fixes.repltbl w).map .ok = some (fixprf LONG_PERF_SUBJ w)
  | .new .HID w => if x then .str w ∈ s'.fixes.oktbl else field s'.fixes.repltbl w = field r.HID_REPL w
  | .new .ORTH w => if x then .str w ∈ s'.fixes.oktbl else field s'.fixes.repltbl w = field r.ORTH_REPL w
  | .new .AMB _ => True
  | .auto _ w => if x then w ∉ s'.autotbl else field s'.fixes.repltbl w = field s.autotbl w
  | .ok _ w => .str w ∈ s'.fixes.oktbl ↔ x = false

/-- The file is read back as it was written, with an x in front of the entries that are chosen. -/
def ReadBack (t : Tables) (REPAIR_ORTH LONG_PERF_SUBJ : Bool) (date : Str) (chosen : Nat → Bool) (r : Results) (s : Repairs) :
    Prop :=
  ∃ file fuel s', r.writerepairsfile REPAIR_ORTH LONG_PERF_SUBJ date = .ok file ∧
    loadrepairsfile t fuel LONG_PERF_SUBJ (marked chosen file) s = .ok s' ∧
    (∀ n e, (entries REPAIR_ORTH r)[n]? = some e →
      Recovered LONG_PERF_SUBJ r s s' (chosen n || premarked r e) e) ∧
    s'.addtbl = s.addtbl

variable {REPAIR_ORTH LONG_PERF_SUBJ : Bool} {date : Str}

theorem writerepairsfile_front {r : Results} {file : Str}
    (written : r.writerepairsfile REPAIR_ORTH LONG_PERF_SUBJ date = .ok file) :
    ∃ rest, file = bom ++ unlines (introLines date) ++ DIVIDER ++ 10 :: rest := by
  obtain ⟨multi, _, written⟩ := bind_eq_ok.mp written
  obtain ⟨new, _, written⟩ := bind_eq_ok.mp written
  obtain ⟨auto, _, written⟩ := bind_eq_ok.mp written
  obtain rfl := Except.ok.inj written
  have newline : lit "\n" = [10] := by decide
  refine ⟨unlines Results.multiIntro ++ (Results.multiNote ++ (multi.flatten ++ (new.flatten ++ (auto.flatten ++
    (issues.map (r.okSection REPAIR_ORTH)).flatten)))), ?_⟩
  rw [introLines, unlines_append (Results.repairsIntro date ++ Results.customIntro), newline]
  simp only [List.append_assoc]
  rfl

/-- A word is added that the user has not entered. -/
theorem addtbl_changed (dated : 10 ∉ date ∧ 42 ∉ date ∧ 95 ∉ date) {r : Results} {file : Str}
    (written : r.writerepairsfile REPAIR_ORTH LONG_PERF_SUBJ date = .ok file) {t : Tables} {fuel : Nat} {s s' : Repairs}
    (ran : loadrepairsfile t fuel LONG_PERF_SUBJ (marked chosen file) s = .ok s') : s'.addtbl ≠ s.addtbl := by
  obtain ⟨rest, rfl⟩ := writerepairsfile_front written
  obtain ⟨added, longer⟩ := loadrepairsfile_example dated ran
  intro same
  have size := longer.length_le
  rw [same, List.length_append, List.length_append, List.length_singleton] at size
  omega

/-- Whatever `analyze` has found and whatever the user marks, the file is not read back as it was written. -/
theorem repairsfile_unread (t : Tables) (dated : 10 ∉ date ∧ 42 ∉ date ∧ 95 ∉ date) (r : Results) (s : Repairs) :
    ¬ ReadBack t REPAIR_ORTH LONG_PERF_SUBJ date chosen r s := by
  rintro ⟨file, fuel, s', written, ran, -, added⟩
  exact addtbl_changed dated written ran added

def noResults : Results := ⟨∅, fun _ => [], fun _ => [], fun _ => [], ∅, ∅, ∅, ∅, ∅, ∅, ∅⟩

def usqueResults : Results := { noResults with ok := fun issue => if issue = .HID then [lit "ūsque"] else [] }

def noRepairs : Repairs := ⟨⟨Key.empty, ∅⟩, ⟨∅, ∅⟩, ∅, ∅, ∅, []⟩

/-- An x is put in front of the one word that is to be left alone. -/
theorem repairsfile_unread_usque :
    ¬ ReadBack Tables.empty true false (lit "01/10/15 20:03:17") (fun n => n == 0) usqueResults noRepairs :=
  repairsfile_unread Tables.empty (by decide) usqueResults noRepairs

theorem repairsfile_empty : ¬ ∀ (t : Tables) (REPAIR_ORTH LONG_PERF_SUBJ : Bool) (date : Str) (chosen : Nat → Bool)
    (r : Results) (s : Repairs), 10 ∉ date ∧ 42 ∉ date ∧ 95 ∉ date →
    ReadBack t REPAIR_ORTH LONG_PERF_SUBJ date chosen r s := by
  intro claim
  have dated : 10 ∉ lit "01/10/15 20:03:17" ∧ 42 ∉ lit "01/10/15 20:03:17" ∧ 95 ∉ lit "01/10/15 20:03:17" := by decide
  obtain ⟨file, fuel, s', written, ran, -, added⟩ :=
    claim Tables.empty true false (lit "01/10/15 20:03:17") (fun _ => false) noResults noRepairs dated
  exact addtbl_changed dated written ran added

end Repairs

end Maccer
