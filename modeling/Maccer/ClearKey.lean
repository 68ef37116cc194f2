import Maccer.Lua.Runs
import Maccer.Additions

/-! `clearkey.lua`: the key without the forms that come from sources. -/

namespace Maccer

open Lua

def COLUMNS : Str := lit "[^\t\n]+\t[^\t\n]+\t[^\n]+"

/-- The loop of `clearkey.lua`: what the pattern finds is cut out with the newline behind it. -/
def cutLines : Nat → Str → Int → Run Str
  | 0, _, _ => throw .running
  | fuel + 1, keystr, init => do
      match ← find keystr COLUMNS init with
      | none => return keystr
      | some (linestart, lineend) =>
          cutLines fuel (sub keystr 1 (linestart - 1) ++ subFrom keystr (lineend + 2)) linestart

/-- `clearkey.lua` on the contents of `key.txt`: what it writes there. -/
def clearkey (file : Str) : Run Str := do
  let keystr := readutf8 file
  let keystr :=
    match ← find keystr DIVIDER 1 with
    | some (_, divend) => subFrom keystr (divend + 1)
    | none => keystr
  let keystr ← cutLines (keystr.length + 1) keystr 1
  return bom ++ cleanup keystr true true

/-! The lines that are cut. -/

inductive Columns : Str → Prop where
  | three (w freq letters : Str) (some : w ≠ [] ∧ freq ≠ [] ∧ letters ≠ [])
      (noTab : 9 ∉ w ∧ 9 ∉ freq) (flat : 10 ∉ w ∧ 10 ∉ freq ∧ 10 ∉ letters) :
      Columns (w ++ 9 :: (freq ++ 9 :: letters))

def inColumn (b : UInt8) : Bool := b != 9 && b != 10

def inLast (b : UInt8) : Bool := b != 10

theorem matchAt_columns {s line back : Str} {i : Nat} (columns : Columns line) (here : s.drop i = line ++ 10 :: back) :
    matchAt s COLUMNS i = .ok (some (i + line.length, [])) := by
  obtain ⟨w, freq, letters, ⟨filled, filled', filledLast⟩, ⟨noTab, noTab'⟩, flat, flat', flatLast⟩ := columns
  have inside (word : Str) (tabs : 9 ∉ word) (lines : 10 ∉ word) : ∀ b ∈ word, inColumn b = true := by
    intro b member
    have tab : b ≠ 9 := fun same => tabs (same ▸ member)
    have newline : b ≠ 10 := fun same => lines (same ▸ member)
    simp [inColumn, tab, newline]
  have last : ∀ b ∈ letters, inLast b = true := by
    intro b member
    have newline : b ≠ 10 := fun same => flatLast (same ▸ member)
    simp [inLast, newline]
  have shape : COLUMNS = 91 :: [94, 9, 10, 93, 43, 9, 91, 94, 9, 10, 93, 43, 9, 91, 94, 10, 93, 43] := by decide
  have noTabInside : inColumn 9 = false := by decide
  rw [List.append_assoc, List.cons_append, List.append_assoc, List.cons_append] at here
  -- the three columns, each behind the tab that ends the one before
  have tab := drop_behind here
  have second := @drop_behind _ _ [9] _ tab
  have tab' := drop_behind second
  have third := @drop_behind _ _ [9] _ tab'
  have length : (w ++ 9 :: (freq ++ 9 :: letters)).length = w.length + 1 + freq.length + 1 + letters.length := by
    simp only [List.length_append, List.length_cons]
    omega
  have ended : matchHere s 16 [91, 94, 10, 93, 43] (i + w.length + 1 + freq.length + 1) [] =
      .ok (some (i + w.length + 1 + freq.length + 1 + letters.length, [])) := by
    refine matchHere_run 15 _ [] inLast 91 [94, 10, 93, 43] [] (by decide) (by decide) ?_ third filledLast last
      (by simp [inLast]) (matchHere_nil s 14 _ [])
    exact fun b => (single_except b 10 [43]).trans (by rw [inLast, bne, beq_eq_decide, decide_not])
  have middle : matchHere s 18 [91, 94, 9, 10, 93, 43, 9, 91, 94, 10, 93, 43] (i + w.length + 1) [] =
      .ok (some (i + w.length + 1 + freq.length + 1 + letters.length, [])) := by
    refine matchHere_run 17 _ [] inColumn 91 _ [9, 91, 94, 10, 93, 43] (by decide) (by decide) ?_ second filled'
      (inside freq noTab' flat') (by simp [noTabInside]) ?_
    · exact fun b => single_except_both b 9 10 _ (by decide)
    · rw [matchHere_literal s 16 _ [] 9 _ (by decide) (by decide), if_pos]
      · exact ended
      · rw [← List.head?_drop, tab']
        rfl
  have first : matchHere s 20 (91 :: [94, 9, 10, 93, 43, 9, 91, 94, 9, 10, 93, 43, 9, 91, 94, 10, 93, 43]) i [] =
      .ok (some (i + w.length + 1 + freq.length + 1 + letters.length, [])) := by
    refine matchHere_run 19 _ [] inColumn 91 _ [9, 91, 94, 9, 10, 93, 43, 9, 91, 94, 10, 93, 43] (by decide) (by decide)
      ?_ here filled (inside w noTab flat) (by simp [noTabInside]) ?_
    · exact fun b => single_except_both b 9 10 _ (by decide)
    · rw [matchHere_literal s 18 _ [] 9 _ (by decide) (by decide), if_pos]
      · exact middle
      · rw [← List.head?_drop, tab]
        rfl
  have total : i + w.length + 1 + freq.length + 1 + letters.length =
      i + (w.length + 1 + freq.length + 1 + letters.length) := by omega
  rw [matchAt, shape, length, ← total]
  exact first

theorem matchAt_untabbed {s : Str} (line back : Str) {i : Nat} (noTab : 9 ∉ line) (flat : 10 ∉ line)
    (here : s.drop i = line ++ back) (ended : ∀ b ∈ back.head?, b = 10) : matchAt s COLUMNS i = .ok none := by
  have shape : COLUMNS = 91 :: [94, 9, 10, 93, 43, 9, 91, 94, 9, 10, 93, 43, 9, 91, 94, 10, 93, 43] := by decide
  rw [matchAt, shape]
  refine matchHere_run_none 18 i [] inColumn 91 9 _ [91, 94, 9, 10, 93, 43, 9, 91, 94, 10, 93, 43] (by decide) (by decide)
    ?_ (by decide) (by decide) (by decide) here ?_ ?_
  · exact fun b => single_except_both b 9 10 _ (by decide)
  · intro b member
    have tab : b ≠ 9 := fun same => noTab (same ▸ member)
    have newline : b ≠ 10 := fun same => flat (same ▸ member)
    simp [inColumn, tab, newline]
  · intro b first
    rw [ended b first]
    decide

def Cuttable (line : Str) : Prop := 10 ∉ line ∧ (9 ∈ line → Columns line)

theorem Columns.tab {line : Str} (columns : Columns line) : 9 ∈ line := by
  cases columns
  simp

theorem cutLines_run (done : Str) (lines : List Str) (cuttable : ∀ line ∈ lines, Cuttable line) (fuel : Nat)
    (enough : (lines.filter (9 ∈ ·)).length < fuel) :
    cutLines fuel (done ++ unlines lines) (done.length + 1) = .ok (done ++ unlines (lines.filter (9 ∉ ·))) := by
  have magic : hasPattern COLUMNS = true := by decide
  have free : COLUMNS.head? ≠ some 94 := by decide
  induction lines generalizing done fuel with
  | nil =>
      obtain ⟨fuel, rfl⟩ := Nat.exists_eq_add_of_lt enough
      have absent : find (done ++ unlines []) COLUMNS (done.length + 1) = .ok none := by
        apply find_none magic free (by simp)
        intro j after
        refine matchAt_untabbed [] [] (by simp) (by simp) ?_ (by simp)
        simp [unlines, after]
      rw [cutLines, absent]
      rfl
  | cons line lines ih =>
      have later := fun l (member : l ∈ lines) => cuttable l (List.mem_cons_of_mem line member)
      obtain ⟨flat, columns⟩ := cuttable line List.mem_cons_self
      have shape : done ++ unlines (line :: lines) = done ++ (line ++ 10 :: unlines lines) := by rw [unlines_cons]
      have here : (done ++ (line ++ 10 :: unlines lines)).drop done.length = line ++ 10 :: unlines lines := List.drop_left
      obtain ⟨fuel, rfl⟩ := Nat.exists_eq_add_of_lt enough
      by_cases tab : 9 ∈ line
      · have found := find_first magic free le_rfl (by simp) (matchAt_columns (columns tab) here) rfl
          fun k above below => absurd above (Nat.not_le_of_lt below)
        have front : sub (done ++ (line ++ 10 :: unlines lines)) 1 ((done.length : Int) + 1 - 1) = done := by
          rw [Int.add_sub_cancel, sub_first, List.take_left]
        have back : subFrom (done ++ (line ++ 10 :: unlines lines)) (((done.length + line.length : Nat) : Int) + 2) =
            unlines lines := by
          have place : ((done.length + line.length : Nat) : Int) + 2 = ((done.length + line.length + 1 : Nat) : Int) + 1 := by
            omega
          rw [place, subFrom_succ]
          exact @drop_behind _ _ [10] _ (drop_behind here)
        have cut : (line :: lines).filter (9 ∉ ·) = lines.filter (9 ∉ ·) := by simp [tab]
        have one : ((line :: lines).filter (9 ∈ ·)).length = (lines.filter (9 ∈ ·)).length + 1 := by simp [tab]
        rw [shape, cutLines, found, run_bind_ok]
        simp only [front, back]
        rw [cut]
        exact ih done later _ (by omega)
      · have skipped : find (done ++ (line ++ 10 :: unlines lines)) COLUMNS (done.length + 1) =
            find (done ++ (line ++ 10 :: unlines lines)) COLUMNS ((done ++ line ++ [10]).length + 1) := by
          refine find_skip magic free (by simp) (by simp) fun k above below => ?_
          obtain ⟨m, rfl⟩ := Nat.exists_eq_add_of_le above
          have within : m ≤ line.length := by
            simp only [List.length_append, List.length_cons, List.length_nil] at below
            omega
          refine matchAt_untabbed (line.drop m) (10 :: unlines lines)
            (fun member => tab (List.mem_of_mem_drop member)) (fun member => flat (List.mem_of_mem_drop member)) ?_ (by simp)
          rw [← List.drop_drop, here, List.drop_append_of_le_length within]
        have kept : (line :: lines).filter (9 ∉ ·) = line :: lines.filter (9 ∉ ·) := by simp [tab]
        have same : ((line :: lines).filter (9 ∈ ·)).length = (lines.filter (9 ∈ ·)).length := by simp [tab]
        have joined : done ++ (line ++ 10 :: unlines lines) = done ++ line ++ [10] ++ unlines lines := by simp
        have rest := ih (done ++ line ++ [10]) later ((line :: lines |>.filter (9 ∈ ·)).length + fuel + 1) (by omega)
        rw [shape, kept, cutLines, skipped, ← cutLines, joined, rest, unlines_cons]
        simp

/-! The file of a saved key. -/

/-- A key of words whose counted forms have headers, all registered, none of which has the divider. -/
structure Clearable (key : Key) : Prop where
  wellFormed : WellFormed key.keytbl
  letters : ∀ w, Stored key.keytbl w → w ≠ [] ∧ ∀ b ∈ w, isLetter b = true
  counted : ∀ w, Stored key.keytbl w → 0 < key.freq w →
    (∃ h, h ∈ key.headers w) ∧ ∀ h ∈ key.headers w, h ∈ key.headersbynumtbl
  divider : ∀ h ∈ key.headersbynumtbl, ¬ DIVIDER <:+: h

theorem indexFrom_number (registered : List Str) (num : Nat) (t : Table Nat) {h : Str} (listed : h ∈ registered) :
    ∃ i, field (indexFrom registered (num + 1) t) h = some (i + 1) := by
  induction registered generalizing num t with
  | nil => cases listed
  | cons first registered ih =>
      by_cases later : h ∈ registered
      · exact ih (num + 1) _ later
      · obtain rfl : h = first := (List.mem_cons.mp listed).resolve_right later
        exact ⟨num, by rw [indexFrom, indexFrom_other _ _ _ _ later, field_insert]⟩

theorem addLetter_filled (registered : List Str) (headers : List (Str × Unit)) (tbl : Table Str)
    (listed : ∀ e ∈ headers, e.1 ∈ registered) (numbered : ∀ letter ∈ tbl, ∃ i, letter = letterkey (i + 1)) :
    ∃ tbl', headers.foldlM (addLetter (indexFrom registered 1 ∅)) tbl = .ok tbl' ∧
      (∀ letter ∈ tbl', ∃ i, letter = letterkey (i + 1)) ∧ ((∃ letter, letter ∈ tbl) ∨ headers ≠ [] → ∃ letter, letter ∈ tbl') := by
  induction headers generalizing tbl with
  | nil => exact ⟨tbl, rfl, numbered, fun either => either.resolve_right fun some => some rfl⟩
  | cons e headers ih =>
      obtain ⟨i, number⟩ := indexFrom_number registered 0 ∅ (listed e (by simp))
      obtain ⟨tbl', ran, numbered', filled⟩ := ih (tbl.insert (letterkey (i + 1)) e.1)
        (fun e' member => listed e' (by simp [member])) fun letter member => by
          rcases (AList.mem_insert _).mp member with rfl | old
          · exact ⟨i, rfl⟩
          · exact numbered letter old
      refine ⟨tbl', ?_, numbered', fun _ => filled (.inl ⟨letterkey (i + 1), (AList.mem_insert _).mpr (.inl rfl)⟩)⟩
      rw [List.foldlM_cons, addLetter, number]
      exact ran

theorem lettersOf_filled (hash : HashOrder) (registered : List Str) (headers : Table Unit)
    (listed : ∀ h ∈ headers, h ∈ registered) (filled : ∃ h, h ∈ headers) :
    ∃ letters, lettersOf hash registered headers = .ok letters ∧ letters ≠ [] ∧ 10 ∉ letters := by
  have some : pairs hash headers ≠ [] := by
    obtain ⟨h, member⟩ := filled
    have present := (pairs_keys hash headers h).mpr member
    exact fun empty => by simp [empty] at present
  have each : ∀ e ∈ pairs hash headers, e.1 ∈ registered := fun e member =>
    listed e.1 ((pairs_keys hash headers e.1).mp (List.mem_map_of_mem member))
  obtain ⟨tbl, ran, numbered, filled⟩ := addLetter_filled registered (pairs hash headers) ∅ each (by simp)
  have letters : ∀ letter ∈ (sortedpairs tbl).map Prod.fst, ∃ i, letter = letterkey (i + 1) :=
    fun letter member => numbered letter ((pairs_keys _ tbl letter).mp member)
  refine ⟨[44].intercalate ((sortedpairs tbl).map Prod.fst), ?_, ?_, columns_bytes _ letters 10 (by decide)⟩
  · rw [← commas_intercalate, List.flatMap_map, lettersOf, ran]
    rfl
  · obtain ⟨letter, member⟩ := filled (.inr some)
    exact letters_ne_nil _ (List.ne_nil_of_mem ((pairs_keys _ tbl letter).mpr member)) letters

theorem wordline_cuttable (hash : HashOrder) {key : Key} (clearable : Clearable key) (w : Str)
    (stored : Stored key.keytbl w) : ∃ line, wordline hash key w = .ok line ∧
      (if key.freq w = 0 then line = w else Columns line) := by
  obtain ⟨filled, letters⟩ := clearable.letters w stored
  rw [wordline]
  cases frequency : field key.freqtbl w with
  | none => exact ⟨w, rfl, by rw [if_pos (by simp [Key.freq, frequency])]⟩
  | some freq =>
      have value : key.freq w = freq := by simp [Key.freq, frequency]
      by_cases positive : freq > 0
      · obtain ⟨some, listed⟩ := clearable.counted w stored (by omega)
        simp only [if_pos positive]
        cases sourced : field key.headerstbl w with
        | none => simp [Key.headers, sourced] at some
        | some headers =>
            have same : key.headers w = headers := by simp [Key.headers, sourced]
            obtain ⟨column, ran, column_filled, flat⟩ :=
              lettersOf_filled hash key.headersbynumtbl headers (same ▸ listed) (same ▸ some)
            have tab : lit "\t" = [9] := by decide
            have digits (b : UInt8) (other : isDigit b = false) : b ∉ decimal freq := fun member => by
              rw [decimal_digits freq b member] at other
              cases other
            have word (b : UInt8) (other : isLetter b = false) : b ∉ w := fun member => by
              rw [letters b member] at other
              cases other
            refine ⟨w ++ 9 :: (decimal freq ++ 9 :: column), ?_, ?_⟩
            · simp [ran, tab]
            · rw [if_neg (by omega)]
              exact .three w (decimal freq) column ⟨filled, decimal_ne_nil freq, column_filled⟩
                ⟨word 9 (by decide), digits 9 (by decide)⟩ ⟨word 10 (by decide), digits 10 (by decide), flat⟩
      · exact ⟨w, by simp [positive], by rw [if_pos (by omega)]⟩

def clearedLines (ws : List Str) : List Str := [[], [], lit "// WORDS", []] ++ ws

theorem filter_untabbed {key : Key} (clearable : Clearable key) {ws lines : List Str}
    (stored : ∀ w ∈ ws, Stored key.keytbl w)
    (written : List.Forall₂ (fun w line => if key.freq w = 0 then line = w else Columns line) ws lines) :
    lines.filter (9 ∉ ·) = ws.filter (key.freq · = 0) ∧ ∀ line ∈ lines, Cuttable line := by
  have word (w : Str) (known : Stored key.keytbl w) (b : UInt8) (other : isLetter b = false) : b ∉ w := fun member => by
    rw [(clearable.letters w known).2 b member] at other
    cases other
  induction written with
  | nil => simp
  | @cons w line ws lines here written ih =>
      obtain ⟨later, cuttable⟩ := ih fun v member => stored v (by simp [member])
      have known := stored w (by simp)
      split at here
      case isTrue zero =>
        subst here
        have bare := word line known 9 (by decide)
        rw [List.filter_cons_of_pos (by simpa using bare), List.filter_cons_of_pos (by simpa using zero), later]
        refine ⟨rfl, fun l member => ?_⟩
        rcases List.mem_cons.mp member with rfl | old
        · exact ⟨word l known 10 (by decide), fun tab => absurd tab bare⟩
        · exact cuttable l old
      case isFalse positive =>
        rw [List.filter_cons_of_neg (by simpa using here.tab), List.filter_cons_of_neg (by simpa using positive), later]
        refine ⟨rfl, fun l member => ?_⟩
        rcases List.mem_cons.mp member with rfl | old
        · refine ⟨?_, fun _ => here⟩
          obtain ⟨w, freq, letters, _, _, flat, flat', flatLast⟩ := here
          simp [flat, flat', flatLast]
        · exact cuttable l old

theorem wordsIntro_cuttable : ∀ line ∈ [] :: wordsIntro, Cuttable line := by
  have comment : Columns (lit "// [word]\t[frequency]\t[IDs of sources in which it occurs]") := by
    have shape : lit "// [word]\t[frequency]\t[IDs of sources in which it occurs]" =
        lit "// [word]" ++ 9 :: (lit "[frequency]" ++ 9 :: lit "[IDs of sources in which it occurs]") := by decide
    rw [shape]
    exact .three _ _ _ (by decide) (by decide) (by decide)
  have others : ∀ line ∈ [[], lit "// WORDS", []], 10 ∉ line ∧ 9 ∉ line := by decide
  intro line member
  by_cases same : line = lit "// [word]\t[frequency]\t[IDs of sources in which it occurs]"
  · rw [same]
    exact ⟨by decide, fun _ => comment⟩
  · have bare := others line (by
      simp only [wordsIntro, List.mem_cons, List.not_mem_nil, or_false] at member ⊢
      tauto)
    exact ⟨bare.1, fun tab => absurd tab bare.2⟩

theorem length_le_unlines (lines : List Str) : lines.length ≤ (unlines lines).length := by
  induction lines with
  | nil => exact Nat.zero_le _
  | cons line lines ih =>
      rw [unlines_cons, List.length_append, List.length_cons, List.length_cons]
      omega

theorem clearkey_parts (before after : List Str) (clear : ∀ line ∈ before, ¬ DIVIDER <:+: line)
    (cuttable : ∀ line ∈ after, Cuttable line) :
    clearkey (bom ++ (unlines before ++ DIVIDER ++ 10 :: unlines after)) =
      .ok (bom ++ cleanup (unlines ([] :: after.filter (9 ∉ ·))) true true) := by
  have first : FirstAt DIVIDER (unlines before ++ DIVIDER ++ 10 :: unlines after) 0 (unlines before).length := by
    refine ⟨Nat.zero_le _, ?_, fun j _ less => divider_first before _ clear j less⟩
    rw [List.append_assoc, List.drop_left]
    exact List.prefix_append _ _
  have found : find _ DIVIDER 1 = _ := find_literal_first (by decide) (by decide) first
  have rest : subFrom (unlines before ++ DIVIDER ++ 10 :: unlines after)
      (((unlines before).length + DIVIDER.length : Int) + 1) = unlines ([] :: after) := by
    rw [← Int.natCast_add, subFrom_succ, ← List.length_append, List.drop_left]
    rfl
  have all : ∀ line ∈ [] :: after, Cuttable line := by
    intro line member
    rcases List.mem_cons.mp member with rfl | later
    · exact ⟨List.not_mem_nil, fun tab => absurd tab List.not_mem_nil⟩
    · exact cuttable line later
  have enough : (([] :: after).filter (9 ∈ ·)).length < (unlines ([] :: after)).length + 1 :=
    Nat.lt_succ_of_le ((List.length_filter_le _ _).trans (length_le_unlines _))
  have cut := cutLines_run [] ([] :: after) all _ enough
  rw [List.nil_append, List.nil_append, List.filter_cons_of_pos (by decide)] at cut
  rw [clearkey, readutf8_bom, found, run_bind_ok]
  simp only [rest]
  exact congrArg (Except.map fun keystr => bom ++ cleanup keystr true true) cut

/-- What `clearkey.lua` writes. -/
theorem clearkey_savedFile {headers lines ws : List Str} (divider : ∀ h ∈ headers, ¬ DIVIDER <:+: h)
    (kept : lines.filter (9 ∉ ·) = ws) (cuttable : ∀ line ∈ lines, Cuttable line) :
    clearkey (savedFile headers lines) = .ok (bom ++ cleanup (unlines (clearedLines ws)) true true) := by
  have clear : ∀ line ∈ wordkeyIntro ++ sourcelines headers 1 ++ [[]], ¬ DIVIDER <:+: line := by
    intro line member
    simp only [List.mem_append] at member
    rcases member with (here | source) | blank
    · exact intro_divider line here
    · obtain ⟨n, h, nonzero, listed, rfl⟩ := mem_sourcelines _ 1 (by decide) line source
      exact sourceline_divider n nonzero h (divider h listed)
    · rw [List.mem_singleton.mp blank]
      decide
  have after : ∀ line ∈ [] :: wordsIntro ++ lines, Cuttable line := by
    intro line member
    rcases List.mem_append.mp member with intro' | word
    · exact wordsIntro_cuttable line intro'
    · exact cuttable line word
  have left : ([] :: ([] :: wordsIntro ++ lines).filter (9 ∉ ·)) = clearedLines ws := by
    have title : ([] :: wordsIntro).filter (9 ∉ ·) = [[], lit "// WORDS", []] := by decide
    rw [List.filter_append, kept, title]
    rfl
  have parts : savedFile headers lines = bom ++ (unlines (wordkeyIntro ++ sourcelines headers 1 ++ [[]]) ++ DIVIDER ++
      10 :: unlines ([] :: wordsIntro ++ lines)) := by
    rw [savedFile]
    generalize wordkeyIntro ++ sourcelines headers 1 = front
    generalize wordsIntro = intro'
    simp [unlines]
  rw [parts, clearkey_parts _ _ clear after, left]

/-! Loading what is left. -/

theorem lmatch_absent {s : Str} (absent : 95 ∉ s) :
    lmatch s (lit "(.+)" ++ DIVIDER) = .ok none ∧ lmatch s (DIVIDER ++ lit "(.+)") = .ok none := by
  have before : lit "(.+)" ++ DIVIDER = 40 :: 46 :: 43 :: 41 :: (DIVIDER ++ []) := by decide
  have after : DIVIDER ++ lit "(.+)" = DIVIDER ++ [40, 46, 43, 41] := by decide
  have nowhere (i : Nat) : ¬ DIVIDER <+: s.drop i := fun inside =>
    absent (List.mem_of_mem_drop (inside.subset (by decide)))
  have mark (fuel i : Nat) (captures : List Capture) (rest : Str) (once : isMark rest.head? = false) :
      matchHere s (fuel + 5) (DIVIDER ++ rest) i captures = .ok none := by
    have literals := matchHere_literals s fuel i captures DIVIDER rest divider_plain once
    rwa [if_neg (nowhere i)] at literals
  constructor
  · apply lmatch_none (by decide)
    intro i
    rw [matchAt, before, matchHere_open _ _ _ _ _ (by decide)]
    refine (matchHere_plus s 8 i [⟨i, .unfinished⟩] (fun _ => true) 46 (43 :: 41 :: (DIVIDER ++ [])) _ (by decide) rfl
      fun b => by simp [singleMatch]).trans ?_
    split
    · apply maxExpand_none
      intro k _
      exact (matchHere_close s 7 _ [] i _).trans (mark 2 _ _ [] (by decide))
    · rfl
  · apply lmatch_none (by decide)
    intro i
    rw [matchAt, after]
    exact mark 5 i [] _ (by decide)

theorem addable_absent {ws : List Str} (addable : ∀ w ∈ ws, Addable w) (b : UInt8) (other : isLetter b = false)
    (newline : b ≠ 10) : b ∉ ws.flatMap (10 :: ·) := by
  intro member
  obtain ⟨w, listed, inside⟩ := List.mem_flatMap.mp member
  have letter := (addable w listed).letters b ((List.mem_cons.mp inside).resolve_left newline)
  rw [other] at letter
  cases letter

theorem intercalate_newline (first : Str) (ws : List Str) :
    [10].intercalate (first :: ws) = first ++ ws.flatMap (10 :: ·) := by
  induction ws generalizing first with
  | nil => simp
  | cons w ws ih => rw [List.intercalate_cons_cons, ih w, List.flatMap_cons, List.append_assoc]; rfl

theorem clearedText_cleanup (ws : List Str) (addable : ∀ w ∈ ws, Addable w) :
    cleanup (unlines (clearedLines ws)) true true = lit "// WORDS" ++ ws.flatMap (10 :: ·) := by
  have kept : (clearedLines ws).filter (· ≠ []) = lit "// WORDS" :: ws := by
    have words : ws.filter (· ≠ []) = ws :=
      List.filter_eq_self.mpr fun w member => decide_eq_true (addable w member).filled
    have title : [[], [], lit "// WORDS", []].filter (· ≠ []) = [lit "// WORDS"] := by decide
    rw [clearedLines, List.filter_append, words, title]
    rfl
  have tidy : ∀ line ∈ clearedLines ws, Tidy true line := by
    intro line member
    rcases List.mem_append.mp member with blank | word
    · have title : ∀ line ∈ [[], [], lit "// WORDS", []], 10 ∉ line ∧ 9 ∉ line ∧ Without 32 32 line := by decide
      obtain ⟨flat, noTab, spaces⟩ := title line blank
      exact ⟨flat, without_of_not_mem noTab, fun first => noTab (List.mem_of_head? first),
        fun last => noTab (List.mem_of_getLast? last), spaces⟩
    · obtain ⟨flat, tabs, tabFirst, tabLast, spaces⟩ := (addable line word).clean.tidy
      exact ⟨flat, tabs, tabFirst, tabLast, without_of_not_mem spaces⟩
  have split := cleanup_unlines (clearedLines ws) tidy (by rw [kept]; exact List.cons_ne_nil _ _)
  calc
    cleanup (unlines (clearedLines ws)) true true =
        [10].intercalate ((cleanup (unlines (clearedLines ws)) true true).splitOn 10) :=
      (List.intercalate_splitOn 10).symm
    _ = [10].intercalate (lit "// WORDS" :: ws) := by rw [split, kept]
    _ = lit "// WORDS" ++ ws.flatMap (10 :: ·) := intercalate_newline _ ws

theorem clearedText_decomment (ws : List Str) (addable : ∀ w ∈ ws, Addable w) :
    decomment (lit "// WORDS" ++ ws.flatMap (10 :: ·)) = .ok (ws.flatMap (10 :: ·)) := by
  have title : 42 ∉ lit "// WORDS" ∧ 10 ∉ lit "// WORDS" ∧ stripComments false (lit "// WORDS") = [] := by decide
  have star : 42 ∉ lit "// WORDS" ++ ws.flatMap (10 :: ·) := by
    simpa [title.1] using addable_absent addable 42 (by decide) (by decide)
  have slash := addable_absent addable 47 (by decide) (by decide)
  rw [decomment_eq _ (without_of_not_mem_right star).noMulti]
  cases ws with
  | nil => simp [title.2.2]
  | cons w ws =>
      have later : 47 ∉ w ++ ws.flatMap (10 :: ·) := fun member => slash (List.mem_cons_of_mem _ member)
      rw [List.flatMap_cons, List.cons_append, stripComments_line _ _ title.2.1, title.2.2, List.nil_append,
        stripComments_without _ (without_of_not_mem later)]

theorem words_cleanup {ws : List Str} (some : ws ≠ []) (addable : ∀ w ∈ ws, Addable w) :
    (cleanup (ws.flatMap (10 :: ·)) true false).splitOn 10 = ws := by
  have clean := fun w (member : w ∈ ws) => (addable w member).clean
  have flat := fun w (member : w ∈ ws) => (clean w member).tidy.flat
  have filled := fun w (member : w ∈ ws) => (clean w member).filled
  have noTab := addable_absent addable 9 (by decide) (by decide)
  have noSpace := addable_absent addable 32 (by decide) (by decide)
  have text : ws.flatMap (10 :: ·) = 10 :: [10].intercalate ws := by
    obtain ⟨first, ws, rfl⟩ := List.exists_cons_of_ne_nil some
    rw [intercalate_newline]
    rfl
  have ended := unlines_eq_intercalate ws some
  have first : ∀ b ∈ ([10].intercalate ws).head?, b ≠ 10 := by
    obtain ⟨w, ws, rfl⟩ := List.exists_cons_of_ne_nil some
    obtain ⟨c, w, rfl⟩ := List.exists_cons_of_ne_nil (filled w (by simp))
    intro b here newline
    rw [intercalate_newline] at here
    obtain rfl : c = b := by simpa using here
    exact flat (c :: w) (by simp) (by simp [newline])
  have single : Without 10 10 (10 :: [10].intercalate ws) := by
    have whole : Without 10 10 (unlines ws) := by
      apply without_unlines
      · intro w member
        exact without_newline _ _ _ (without_of_not_mem (flat w member)) fun _ last =>
          flat w member (List.mem_of_getLast? last)
      · intro _ w member
        obtain ⟨c, w, rfl⟩ := List.exists_cons_of_ne_nil (filled w member)
        exact fun newline => flat (c :: w) member (by simp [Option.some.inj newline])
    rw [ended] at whole
    exact List.isChain_cons.mpr ⟨fun b here both => first b here both.2, whole.left_of_append⟩
  have kept : (10 :: [10].intercalate ws).filter (· ≠ 32) = 10 :: [10].intercalate ws := by
    rw [text] at noSpace
    exact List.filter_eq_self.mpr fun b member => decide_eq_true fun space => noSpace (space ▸ member)
  have trimmed : trimNewlines (10 :: [10].intercalate ws) = [10].intercalate ws := by
    have back := rdropWhile_unlines ws flat filled some
    rw [ended, List.rdropWhile_concat_pos _ _ _ (by rfl)] at back
    have front : (10 :: [10].intercalate ws).dropWhile (· == 10) = [10].intercalate ws := by
      rw [List.dropWhile_cons_of_pos (by rfl)]
      cases joined : [10].intercalate ws with
      | nil => rfl
      | cons b rest =>
          have apart := first b (by rw [joined]; rfl)
          rw [List.dropWhile_cons_of_neg (by simpa using apart)]
    rw [trimNewlines, front, back]
  rw [text] at noTab ⊢
  rw [cleanup]
  simp only [if_true, replacePair_without _ _ _ _ (without_of_not_mem_right noTab),
    replacePair_without _ _ _ _ (without_of_not_mem noTab), cutmultiple_without _ _ (without_of_not_mem noTab),
    Bool.false_eq_true, if_false, kept, cutmultiple_without _ _ single, trimmed]
  exact List.splitOn_intercalate 10 flat some

theorem mem_lengthened {ws : List Str} (w p : Str) :
    w ∈ lengthened (fun _ => []) ws p ↔ w ∈ ws ∧ plain w = .ok p := by
  rw [lengthened, List.nil_append, List.mem_filter, decide_eq_true_iff]

theorem loadkey_cleared (ws : List Str) (addable : ∀ w ∈ ws, Addable w) :
    ∃ loaded, loadkey (bom ++ cleanup (unlines (clearedLines ws)) true true) = .ok loaded ∧
      Rows loaded.keytbl (lengthened (fun _ => []) ws) ∧ (∀ w, loaded.freq w = 0 ∧ ∀ h, h ∉ loaded.headers w) ∧
      loaded.headersbynumtbl = [] := by
  have absent : 95 ∉ ws.flatMap (10 :: ·) := addable_absent addable 95 (by decide) (by decide)
  obtain ⟨noSources, noWords⟩ := lmatch_absent absent
  have empty : Rows Key.empty.keytbl fun _ => [] :=
    ⟨fun _ _ _ => rfl, fun k member => absurd member (by simp [Key.empty])⟩
  obtain ⟨loaded, ran, rows, uncounted, others⟩ := loadAdded_run [] ∅ ws addable Key.empty empty
  refine ⟨{ loaded with headersbynumtbl := [] }, ?_, rows, fun w => ?_, rfl⟩
  · rw [loadkey, readutf8_bom, clearedText_cleanup ws addable, clearedText_decomment ws addable, run_bind_ok, noSources,
      run_bind_ok, noWords, run_bind_ok]
    cases ws with
    | nil =>
        obtain rfl : Key.empty = loaded := by simpa using ran
        rfl
    | cons w ws =>
        have text : (w :: ws).flatMap (10 :: ·) ≠ [] := by simp
        simp only [Option.bind_none, Option.getD_none, if_neg text, words_cleanup (List.cons_ne_nil w ws) addable,
          run_pure, run_bind_ok, ran]
  · by_cases listed : w ∈ ws
    · exact uncounted w listed
    · obtain ⟨freq, headers⟩ := others w listed
      exact ⟨freq, fun h => headers ▸ AList.notMem_empty h⟩

/-- Clearing a saved key leaves the forms that have been put in by hand. -/
theorem loadkey_clearkey (hash : HashOrder) (key : Key) (clearable : Clearable key) :
    ∃ file count cleared loaded, savekey hash key = .ok (file, count) ∧ clearkey file = .ok cleared ∧
      loadkey cleared = .ok loaded ∧ WellFormed loaded.keytbl ∧
      (∀ w, Stored loaded.keytbl w ↔ Stored key.keytbl w ∧ key.freq w = 0) ∧
      (∀ w, loaded.freq w = 0 ∧ ∀ h, h ∉ loaded.headers w) ∧ loaded.headersbynumtbl = [] := by
  obtain ⟨distinct, members⟩ := sortedpairs_words clearable.wellFormed
  generalize listed : (sortedpairs key.keytbl).map Prod.snd = ws at distinct members
  obtain ⟨lines, ran, written⟩ := mapM_forall₂ (wordline hash key) _ ws fun w member =>
    wordline_cuttable hash clearable w ((members w).mp member)
  have saved : savekey hash key = .ok (savedFile key.headersbynumtbl lines, ws.length) := by
    simp only [savekey, listed, ran, run_bind_ok, run_pure, savedFile]
  obtain ⟨kept, cuttable⟩ := filter_untabbed clearable (fun w member => (members w).mp member) written
  have cleared := clearkey_savedFile clearable.divider kept cuttable
  generalize bare : ws.filter (key.freq · = 0) = uncounted at cleared
  have still (w : Str) : w ∈ uncounted ↔ Stored key.keytbl w ∧ key.freq w = 0 := by
    rw [← bare, List.mem_filter, members, decide_eq_true_iff]
  have addable : ∀ w ∈ uncounted, Addable w := by
    intro w member
    have stored := ((still w).mp member).1
    obtain ⟨p, same, _⟩ := clearable.wellFormed.plain_of_stored stored
    exact ⟨(clearable.letters w stored).1, (clearable.letters w stored).2, p, same⟩
  obtain ⟨loaded, load, rows, freqs, sources⟩ := loadkey_cleared uncounted addable
  let d : Dictionary := {
    forms := lengthened (fun _ => []) uncounted
    word := fun p w member => by
      obtain ⟨present, same⟩ := (mem_lengthened w p).mp member
      exact plain_digitFree same (digitFree_of_letters (addable w present).letters)
    demacronises := fun p w member => ((mem_lengthened w p).mp member).2
    distinct := fun p => by
      have nodup : uncounted.Nodup := bare ▸ distinct.filter _
      exact nodup.filter _ }
  have represents : Represents loaded.keytbl d := rows
  refine ⟨_, _, _, loaded, saved, cleared, load, represents.wellFormed, fun w => ?_, freqs, sources⟩
  rw [represents.stored_iff, ← still]
  constructor
  · rintro ⟨p, member⟩
    exact ((mem_lengthened w p).mp member).1
  · intro member
    obtain ⟨p, same⟩ := (addable w member).plain
    exact ⟨p, (mem_lengthened w p).mpr ⟨member, same⟩⟩

def mixedKey : Key := { hocKey with keytbl := learnForm hocKey.keytbl (lit "tectum") (lit "tectum") }

theorem mixedKey_clearable : Clearable mixedKey := by
  have plain_tectum : plain (lit "tectum") = .ok (lit "tectum") := by decide
  have word : DigitFree (lit "tectum") := by decide
  have wf : WellFormed mixedKey.keytbl := hocKey_wellFormed.learnForm plain_tectum word
  have forms (w : Str) (stored : Stored mixedKey.keytbl w) : w = lit "hōc" ∨ w = lit "tectum" :=
    ((hocKey_wellFormed.stored_learnForm plain_tectum word w).mp stored).imp_left (hocKey_stored w)
  refine ⟨wf, fun w stored => ?_, fun w stored positive => ?_, by decide⟩
  · rcases forms w stored with rfl | rfl
    all_goals decide +kernel
  · rcases forms w stored with rfl | rfl
    · exact ⟨⟨lit "Gallia", by decide⟩, by decide⟩
    · exact absurd positive (by decide)

theorem loadkey_clearkey_tectum :
    ∃ file count cleared loaded, savekey .stored mixedKey = .ok (file, count) ∧ clearkey file = .ok cleared ∧
      loadkey cleared = .ok loaded ∧ Stored loaded.keytbl (lit "tectum") ∧ ¬ Stored loaded.keytbl (lit "hōc") := by
  obtain ⟨file, count, cleared, loaded, saved, cut, load, _, forms, _⟩ := loadkey_clearkey .stored mixedKey mixedKey_clearable
  refine ⟨file, count, cleared, loaded, saved, cut, load, ?_, fun stored => ?_⟩
  · exact (forms _).mpr ⟨by decide, by decide⟩
  · exact absurd ((forms _).mp stored).2 (by decide)

end Maccer
