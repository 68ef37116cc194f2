import Maccer.KeyText
import Maccer.Learning

/-! Loading a saved key gives it back. -/

namespace Maccer

open Lua

/-! The lines of the file without its comments. -/

def linesBefore (key : Key) : List Str :=
  List.replicate 9 [] ++ sourcelines key.headersbynumtbl 1 ++ [[]]

def linesAfter (lines : List Str) : List Str := List.replicate 4 [] ++ lines

theorem intro_comments : wordkeyIntro.map (stripComments false) = List.replicate 9 [] ∧
    wordsIntro.map (stripComments false) = List.replicate 3 [] ∧
    (∀ line ∈ wordkeyIntro, Without 95 95 line) ∧
    ∀ line ∈ wordkeyIntro ++ wordsIntro, 10 ∉ line ∧ Without 47 42 (line ++ [10]) := by
  rw [wordkeyIntro, wordsIntro]
  repeat rw [lit_chars]
  decide +kernel

theorem intro_divider : ∀ line ∈ wordkeyIntro, ¬ DIVIDER <:+: line := by
  intro line member inside
  have single := intro_comments.2.2.1 line member
  obtain ⟨front, back, same⟩ := inside
  rw [← same] at single
  exact absurd single.left_of_append.right_of_append (by decide)

theorem map_strip (lines : List Str) (plain : ∀ line ∈ lines, Without 47 47 line) :
    lines.map (stripComments false) = lines := by
  induction lines with
  | nil => rfl
  | cons line lines ih =>
      rw [List.map_cons, stripComments_without line (plain line (by simp)),
        ih fun l member => plain l (by simp [member])]

theorem sourcelines_clean {headers : List Str} (clean : ∀ h ∈ headers, CleanHeader h) (line : Str)
    (member : line ∈ sourcelines headers 1) :
    line ≠ [] ∧ Tidy true line ∧ Without 47 47 line ∧ Without 47 42 line ∧ ¬ DIVIDER <:+: line := by
  obtain ⟨n, h, nonzero, listed, rfl⟩ := mem_sourcelines _ 1 (by decide) line member
  have tidy := clean h listed
  refine ⟨?_, sourceline_tidy n nonzero h tidy, sourceline_without n nonzero h 47 tidy.line,
    sourceline_without n nonzero h 42 tidy.multi, sourceline_divider n nonzero h tidy.divider⟩
  simp [letterkey_ne_nil n nonzero]

theorem line_clean {key : Key} {w line : Str} (word : w ≠ [] ∧ ∀ b ∈ w, isLetter b = true)
    (written : Line key w line) :
    line ≠ [] ∧ Tidy false line ∧ Without 47 47 line ∧ Without 47 42 line ∧ ¬ DIVIDER <:+: line := by
  obtain ⟨filled, letters⟩ := word
  have slash := line_bytes written letters 47 (by decide)
  have score := line_bytes written letters 95 (by decide)
  exact ⟨line_ne_nil written filled, line_tidy written letters filled, without_of_not_mem slash,
    without_of_not_mem slash, fun inside => score (inside.subset (by decide))⟩

/-- What `macra.loadkey` reads, without comments. -/
theorem decomment_saved (key : Key) (headers : ∀ h ∈ key.headersbynumtbl, CleanHeader h)
    (lines : List Str)
    (clean : ∀ line ∈ lines, 10 ∉ line ∧ Without 47 47 line ∧ Without 47 42 line) :
    decomment (readutf8 (bom ++ unlines (wordkeyIntro ++ sourcelines key.headersbynumtbl 1 ++
      [[], DIVIDER, []] ++ wordsIntro ++ lines))) =
      .ok (unlines (linesBefore key) ++ DIVIDER ++ 10 :: unlines (linesAfter lines)) := by
  have sources := sourcelines_clean headers
  obtain ⟨wordkeyIntro_strip, wordsIntro_strip, _, intro_lines⟩ := intro_comments
  have middle : ∀ line ∈ [[], DIVIDER, []], 10 ∉ line ∧ Without 47 47 line ∧
      Without 47 42 (line ++ [10]) := by decide
  have read (text : Str) : readutf8 (bom ++ text) = text := by
    simp [readutf8, bom]
  generalize whole : wordkeyIntro ++ sourcelines key.headersbynumtbl 1 ++ [[], DIVIDER, []] ++
    wordsIntro ++ lines = all
  have each : ∀ line ∈ all, 10 ∉ line ∧ Without 47 42 (line ++ [10]) := by
    intro line member
    have ended (s : Str) (within : Without 47 42 s) : Without 47 42 (s ++ [10]) :=
      without_newline _ _ _ within (by simp)
    simp only [← whole, List.mem_append] at member
    rcases member with (((intro' | source) | mark) | intro') | word
    · exact intro_lines line (by simp [intro'])
    · obtain ⟨_, tidy, _, multi, _⟩ := sources line source
      exact ⟨tidy.flat, ended line multi⟩
    · obtain ⟨flat, _, multi⟩ := middle line mark
      exact ⟨flat, multi⟩
    · exact intro_lines line (by simp [intro'])
    · obtain ⟨flat, _, multi⟩ := clean line word
      exact ⟨flat, ended line multi⟩
  have multi : Without 47 42 (unlines all) :=
    without_unlines _ _ _ (fun line member => (each line member).2) (by simp)
  rw [read, decomment_eq _ multi.noMulti, stripComments_unlines _ fun line member => (each line member).1,
    ← whole]
  simp only [List.map_append, wordkeyIntro_strip, wordsIntro_strip,
    map_strip _ fun line member => (sources line member).2.2.1,
    map_strip _ fun line member => (middle line member).2.1,
    map_strip _ fun line member => (clean line member).2.1]
  simp [unlines, linesBefore, linesAfter]

/-! The source lines. -/

theorem sourcelines_ne_nil (headers : List Str) (num : Nat) (some : headers ≠ []) :
    sourcelines headers num ≠ [] := by
  obtain ⟨header, headers, rfl⟩ := List.exists_cons_of_ne_nil some
  simp [sourcelines]

theorem loadSources_run (headers : List Str) (num : Nat) (sources : List Str) (numstbl : Table Nat)
    (counted : sources.length + 1 = num) (filled : ∀ h ∈ headers, h ≠ []) :
    ∃ numstbl', (sourcelines headers num).foldlM loadSource (sources, numstbl) =
        .ok (sources ++ headers, numstbl') ∧
      (∀ i < headers.length, field numstbl' (letterkey (num + i)) = some (num + i)) ∧
      ∀ m < num, m ≠ 0 → field numstbl' (letterkey m) = field numstbl (letterkey m) := by
  induction headers generalizing num sources numstbl with
  | nil => exact ⟨numstbl, by simp [sourcelines], by simp, fun _ _ _ => rfl⟩
  | cons header headers ih =>
      have one : loadSource (sources, numstbl) (letterkey num ++ lit " = " ++ header) =
          .ok (sources ++ [header], numstbl.insert (letterkey num) num) := by
        rw [loadSource, lmatch_source _ _ (letterkey_without num (by omega) 61 (by decide))
          (letterkey_ne_nil num (by omega)) (filled header (by simp))]
        simp [counted]
      obtain ⟨numstbl', ran, numbered, older⟩ := ih (num + 1) (sources ++ [header])
        (numstbl.insert (letterkey num) num) (by simp [counted])
        fun h member => filled h (by simp [member])
      refine ⟨numstbl', ?_, ?_, ?_⟩
      · rw [sourcelines, List.foldlM_cons, one, run_bind_ok, ran]
        simp
      · intro i bound
        cases i with
        | zero => rw [Nat.add_zero, older num (by omega) (by omega), field_insert]
        | succ i =>
            have later := numbered i (by simpa using bound)
            rwa [Nat.add_right_comm, Nat.add_assoc] at later
      · intro m less positive
        rw [older m (by omega) positive, field_insert_ne]
        exact fun same => absurd (letterkey_injective positive (by omega) same) (by omega)

/-! The word lines. -/

theorem loadWord_run {key : Key} (loaded : Key) (numstbl : Table Nat) {w p line : Str}
    (letters : ∀ b ∈ w, isLetter b = true) (filled : w ≠ []) (same : plain w = .ok p)
    (numbered : ∀ i < key.headersbynumtbl.length, field numstbl (letterkey (i + 1)) = some (i + 1))
    (listed : 0 < key.freq w → ∀ h ∈ key.headers w, h ∈ key.headersbynumtbl)
    (uncounted : key.freq w = 0 → ∀ h, h ∉ key.headers w)
    (fresh : w ∉ chain loaded.keytbl p) (written : Line key w line) :
    ∃ headers, loadWord key.headersbynumtbl numstbl loaded line = .ok { loaded with
        keytbl := learnForm loaded.keytbl w p
        freqtbl := loaded.freqtbl.insert w (key.freq w)
        headerstbl := loaded.headerstbl.insert w headers } ∧
      ∀ h, h ∈ headers ↔ h ∈ key.headers w := by
  have noTab : 9 ∉ w := fun member => absurd (letters 9 member) (by decide)
  have slotted : loaded.keytbl.insert (getnextkey loaded.keytbl p) w = learnForm loaded.keytbl w p := by
    rw [getnextkey_eq, learnForm, if_neg fresh]
  cases written with
  | bare none =>
      have bare : w.contains 9 = false := by simpa using noTab
      have word := lmatch_word w [] filled noTab (.inl rfl)
      rw [List.append_nil] at word
      refine ⟨∅, ?_, fun h => by simp [uncounted none h]⟩
      simp only [loadWord, word, loadColumns, bare, same, run_bind_ok, run_pure, slotted, none]
      rfl
  | columns columns positive some members =>
      obtain ⟨headers, ran, held⟩ := loadHeaders_letters key.headersbynumtbl numstbl (key.headers w)
        columns some numbered (listed positive) members
      have digits : 9 ∉ decimal (key.freq w) := fun member => by
        simpa [isDigit] using decimal_digits _ 9 member
      have column := letters_ne_nil columns some fun letter member => by
        obtain ⟨i, _, _, _, shape⟩ := (members letter).mp member
        exact ⟨i, shape⟩
      have matched := lmatch_columns w _ _ noTab digits (decimal_ne_nil (key.freq w)) column
      have word := lmatch_word w (9 :: decimal (key.freq w) ++ 9 :: [44].intercalate columns) filled
        noTab (.inr rfl)
      rw [← List.append_assoc] at word
      refine ⟨headers, ?_, held⟩
      have tabbed : (w ++ 9 :: decimal (key.freq w) ++ 9 :: [44].intercalate columns).contains 9 =
          true := by simp
      simp only [loadWord, word, loadColumns, tabbed, matched, ran, same, run_bind_ok, run_pure, slotted,
        tonumber_decimal, if_true]
      rfl

theorem WellFormed.stored_learnForm {keytbl : Table Str} (wf : WellFormed keytbl) {w p : Str}
    (same : plain w = .ok p) (word : DigitFree p) (v : Str) :
    Stored (Maccer.learnForm keytbl w p) v ↔ Stored keytbl v ∨ v = w := by
  rw [(wf.represents.learnForm same word).stored_iff, wf.represents.stored_iff]
  simp only [Dictionary.mem_learn]
  constructor
  · rintro ⟨q, old | ⟨_, rfl⟩⟩
    · exact .inl ⟨q, old⟩
    · exact .inr rfl
  · rintro (⟨q, old⟩ | rfl)
    · exact ⟨q, .inl old⟩
    · exact ⟨p, .inr ⟨rfl, rfl⟩⟩

theorem WellFormed.plain_of_stored {keytbl : Table Str} (wf : WellFormed keytbl) {w : Str}
    (stored : Stored keytbl w) : ∃ p, plain w = .ok p ∧ DigitFree p := by
  obtain ⟨p, member⟩ := (wf.represents.stored_iff w).mp stored
  exact ⟨p, wf.dictionary.demacronises p w member, wf.dictionary.word p w member⟩

theorem WellFormed.mem_chain {keytbl : Table Str} (wf : WellFormed keytbl) {p : Str}
    (word : DigitFree p) (w : Str) : w ∈ chain keytbl p ↔ Stored keytbl w ∧ plain w = .ok p := by
  constructor
  · intro member
    have same := wf.plain_of_chain word member
    exact ⟨(wf.represents.stored_plain same).mpr (by rwa [← wf.represents.chain p word]), same⟩
  · rintro ⟨stored, same⟩
    rw [wf.represents.chain p word]
    exact (wf.represents.stored_plain same).mp stored

theorem loadWords_run {key : Key} (writable : Writable key) (numstbl : Table Nat)
    (numbered : ∀ i < key.headersbynumtbl.length, field numstbl (letterkey (i + 1)) = some (i + 1))
    (ws lines : List Str) (written : List.Forall₂ (Line key) ws lines)
    (stored : ∀ w ∈ ws, Stored key.keytbl w) (distinct : ws.Nodup) (loaded : Key)
    (wf : WellFormed loaded.keytbl) (fresh : ∀ w ∈ ws, ¬ Stored loaded.keytbl w) :
    ∃ loaded', lines.foldlM (loadWord key.headersbynumtbl numstbl) loaded = .ok loaded' ∧
      WellFormed loaded'.keytbl ∧
      (∀ w, Stored loaded'.keytbl w ↔ Stored loaded.keytbl w ∨ w ∈ ws) ∧
      (∀ w ∈ ws, loaded'.freq w = key.freq w ∧ ∀ h, h ∈ loaded'.headers w ↔ h ∈ key.headers w) ∧
      ∀ w ∉ ws, loaded'.freq w = loaded.freq w ∧ loaded'.headers w = loaded.headers w := by
  induction written generalizing loaded with
  | nil => exact ⟨loaded, rfl, wf, by simp, by simp, by simp⟩
  | @cons w line ws lines here written ih =>
      obtain ⟨absent, distinct⟩ := List.nodup_cons.mp distinct
      have known := stored w (by simp)
      obtain ⟨p, same, word⟩ := writable.wellFormed.plain_of_stored known
      obtain ⟨filled, letters⟩ := writable.letters w known
      have new : w ∉ chain loaded.keytbl p := fun member =>
        fresh w (by simp) ((wf.represents.stored_plain same).mpr (by
          rwa [← wf.represents.chain p word]))
      obtain ⟨headers, ran, held⟩ := loadWord_run loaded numstbl letters filled same numbered
        (fun positive => (writable.counted w known positive).2) (writable.uncounted w known) new here
      have learned := wf.stored_learnForm same word
      obtain ⟨loaded', ran', wf', forms, counted, others⟩ := ih
        (fun v member => stored v (by simp [member])) distinct { loaded with
          keytbl := learnForm loaded.keytbl w p
          freqtbl := loaded.freqtbl.insert w (key.freq w)
          headerstbl := loaded.headerstbl.insert w headers }
        (wf.learnForm same (digitFree_of_letters letters)) fun v member now => by
          rcases (learned v).mp now with old | rfl
          · exact fresh v (by simp [member]) old
          · exact absent member
      refine ⟨loaded', ?_, wf', ?_, ?_, ?_⟩
      · rw [List.foldlM_cons, ran]
        exact ran'
      · intro v
        rw [forms, learned, List.mem_cons, or_assoc]
      · intro v member
        rcases List.mem_cons.mp member with rfl | later
        · obtain ⟨freq, sources⟩ := others v absent
          rw [freq, sources]
          simpa only [Key.freq, Key.headers, field_insert, Option.getD_some, true_and] using held
        · exact counted v later
      · intro v outside
        simp only [List.mem_cons, not_or] at outside
        obtain ⟨freq, sources⟩ := others v outside.2
        rw [freq, sources]
        simp [Key.freq, Key.headers, field_insert_ne _ _ _ _ outside.1]

theorem mem_mapM {α β : Type} {f : α → Run β} {l : List α} {bs : List β} (ran : l.mapM f = .ok bs) {b : β}
    (member : b ∈ bs) : ∃ a ∈ l, f a = .ok b := by
  induction l generalizing bs with
  | nil =>
      obtain rfl := Except.ok.inj ran
      cases member
  | cons a l ih =>
      rw [List.mapM_cons] at ran
      obtain ⟨first, here, ran⟩ := bind_eq_ok.mp ran
      obtain ⟨rest, later, ran⟩ := bind_eq_ok.mp ran
      obtain rfl := Except.ok.inj ran
      rcases List.mem_cons.mp member with rfl | other
      · exact ⟨a, List.mem_cons_self, here⟩
      · obtain ⟨a', among, found⟩ := ih later other
        exact ⟨a', List.mem_cons_of_mem a among, found⟩

theorem mapM_forall₂ {α β : Type} (f : α → Run β) (R : α → β → Prop) (l : List α)
    (each : ∀ a ∈ l, ∃ b, f a = .ok b ∧ R a b) :
    ∃ bs, l.mapM f = .ok bs ∧ List.Forall₂ R l bs := by
  induction l with
  | nil => exact ⟨[], rfl, .nil⟩
  | cons a l ih =>
      obtain ⟨b, ran, related⟩ := each a (by simp)
      obtain ⟨bs, ran', related'⟩ := ih fun x member => each x (by simp [member])
      exact ⟨b :: bs, by simp [List.mapM_cons, ran, ran'], .cons related related'⟩

theorem sortedpairs_words {keytbl : Table Str} (wf : WellFormed keytbl) :
    ((sortedpairs keytbl).map Prod.snd).Nodup ∧
      ∀ w, w ∈ (sortedpairs keytbl).map Prod.snd ↔ Stored keytbl w := by
  constructor
  · rw [sortedpairs, pairs, List.map_filterMap]
    refine List.Nodup.filterMap ?_ ((HashOrder.perm _ _).nodup_iff.mpr keytbl.nodupKeys)
    intro k other w left right
    exact wf.distinct k other w (by simpa using left) (by simpa using right)
  · intro w
    rw [sortedpairs, List.mem_map]
    constructor
    · rintro ⟨⟨k, v⟩, member, rfl⟩
      exact ⟨k, (mem_pairs _ _ k v).mp member⟩
    · rintro ⟨k, found⟩
      exact ⟨(k, w), (mem_pairs _ _ k w).mpr found, rfl⟩

theorem not_stored_empty (w : Str) : ¬ Stored Key.empty.keytbl w := by
  rintro ⟨k, found⟩
  exact absurd (mem_of_field found) (by simp [Key.empty])

theorem tidy_nil (keepspaces : Bool) : Tidy keepspaces [] :=
  ⟨by simp, .nil, by simp, by simp, by cases keepspaces <;> simp [Without]⟩

theorem filter_blanks (n : Nat) (lines : List Str) (filled : ∀ line ∈ lines, line ≠ []) :
    (List.replicate n [] ++ lines).filter (· ≠ []) = lines := by
  have kept : lines.filter (· ≠ []) = lines :=
    List.filter_eq_self.mpr fun line member => by simpa using filled line member
  rw [List.filter_append, kept]
  simp

theorem loadkey_eq (file : Str) (before after : List Str)
    (read : decomment (readutf8 file) = .ok (unlines before ++ DIVIDER ++ 10 :: unlines after))
    (some : before ≠ []) (clear : ∀ line ∈ before ++ after, ¬ DIVIDER <:+: line) :
    loadkey file = (do
      let (headersbynumtbl, numstbl) ← loadSources (unlines before)
      let key ← ((cleanup (10 :: unlines after) true false).splitOn 10).foldlM
        (loadWord headersbynumtbl numstbl) Key.empty
      return { key with headersbynumtbl }) := by
  have filled : unlines before ≠ [] := by
    rw [unlines_eq_intercalate before some]
    simp
  have sources := lmatch_before (unlines before) (10 :: unlines after) filled
    (divider_last before after fun line member => clear line (by simp [member]))
  have words := lmatch_after (unlines before) (10 :: unlines after) (by simp)
    (divider_first before after fun line member => clear line (by simp [member]))
  simp only [loadkey, read, sources, words, run_bind_ok, Option.bind_some, List.head?_cons,
    Option.getD_some, reduceCtorEq, if_false]

def savedFile (headers lines : List Str) : Str :=
  bom ++ unlines (wordkeyIntro ++ sourcelines headers 1 ++ [[], DIVIDER, []] ++ wordsIntro ++ lines)

theorem savekey_lines (hash : HashOrder) {key : Key} (writable : Writable key) :
    ∃ ws lines, ws.Nodup ∧ (∀ w, w ∈ ws ↔ Stored key.keytbl w) ∧ List.Forall₂ (Line key) ws lines ∧
      savekey hash key = .ok (savedFile key.headersbynumtbl lines, ws.length) := by
  obtain ⟨distinct, members⟩ := sortedpairs_words writable.wellFormed
  generalize listed : (sortedpairs key.keytbl).map Prod.snd = ws at distinct members
  obtain ⟨lines, ran, written⟩ := mapM_forall₂ (wordline hash key) (Line key) ws fun w member =>
    wordline_run hash key writable w ((members w).mp member)
  refine ⟨ws, lines, distinct, members, written, ?_⟩
  simp only [savekey, listed, ran, run_bind_ok, run_pure, savedFile]

structure CleanLine (line : Str) : Prop where
  filled : line ≠ []
  tidy : Tidy false line
  single : Without 47 47 line
  multi : Without 47 42 line
  divider : ¬ DIVIDER <:+: line

theorem lines_clean {key : Key} (writable : Writable key) {ws lines : List Str} (written : List.Forall₂ (Line key) ws lines)
    (members : ∀ w ∈ ws, Stored key.keytbl w) : ∀ line ∈ lines, CleanLine line := by
  intro line member
  obtain ⟨i, bound, rfl⟩ := List.mem_iff_getElem.mp member
  have related := written.get (by rw [written.length_eq]; exact bound) bound
  obtain ⟨filled, tidy, single, multi, divider⟩ :=
    line_clean (writable.letters _ (members _ (List.getElem_mem _))) related
  exact ⟨filled, tidy, single, multi, divider⟩

theorem loadkey_savedFile {key : Key} (writable : Writable key) {lines : List Str}
    (clean : ∀ line ∈ lines, CleanLine line) :
    ∃ numstbl, (∀ i < key.headersbynumtbl.length, field numstbl (letterkey (i + 1)) = some (i + 1)) ∧
      loadkey (savedFile key.headersbynumtbl lines) = (do
        let loaded ← (if lines = [] then [[]] else lines).foldlM (loadWord key.headersbynumtbl numstbl) Key.empty
        return { loaded with headersbynumtbl := key.headersbynumtbl }) := by
  have sources := sourcelines_clean writable.clean
  have read := decomment_saved key writable.clean lines fun line member =>
    ⟨(clean line member).tidy.flat, (clean line member).single, (clean line member).multi⟩
  have clear : ∀ line ∈ linesBefore key ++ linesAfter lines, ¬ DIVIDER <:+: line := by
    intro line member
    simp only [linesBefore, linesAfter, List.mem_append, List.mem_replicate, List.mem_singleton] at member
    have blank : ¬ DIVIDER <:+: [] := by decide
    rcases member with ((⟨_, rfl⟩ | source) | rfl) | ⟨_, rfl⟩ | word
    · exact blank
    · exact (sources line source).2.2.2.2
    · exact blank
    · exact blank
    · exact (clean line word).divider
  have loaded := loadkey_eq _ (linesBefore key) (linesAfter lines) read (by simp [linesBefore]) clear
  have front : (cleanup (unlines (linesBefore key)) true true).splitOn 10 = sourcelines key.headersbynumtbl 1 := by
    have lines : (linesBefore key).filter (· ≠ []) = sourcelines key.headersbynumtbl 1 := by
      rw [linesBefore, List.filter_append, filter_blanks _ _ fun line member => (sources line member).1]
      simp
    rw [cleanup_unlines _ _ (by rw [lines]; exact sourcelines_ne_nil _ _ writable.registered), lines]
    intro line member
    simp only [linesBefore, List.mem_append, List.mem_replicate, List.mem_singleton] at member
    rcases member with (⟨_, rfl⟩ | source) | rfl
    · exact tidy_nil true
    · exact (sources line source).2.1
    · exact tidy_nil true
  have back : (cleanup (10 :: unlines (linesAfter lines)) true false).splitOn 10 =
      if lines = [] then [[]] else lines := by
    split
    case isTrue none =>
      subst none
      decide
    case isFalse filled =>
      have blanks : 10 :: unlines (linesAfter lines) = unlines (List.replicate 5 [] ++ lines) := by
        simp [linesAfter, unlines]
      have kept := filter_blanks 5 lines fun line member => (clean line member).filled
      rw [blanks, cleanup_unlines _ _ (by rw [kept]; exact filled), kept]
      intro line member
      rcases List.mem_append.mp member with blank | word
      · exact List.eq_of_mem_replicate blank ▸ tidy_nil false
      · exact (clean line word).tidy
  obtain ⟨numstbl, ran, numbered, _⟩ := loadSources_run key.headersbynumtbl 1 [] ∅ rfl
    fun h member => (writable.clean h member).filled
  refine ⟨numstbl, fun i bound => by rw [Nat.add_comm, numbered i bound], ?_⟩
  rw [savedFile, loaded, loadSources, front, ran, back]
  rfl

/-- What `macra.savekey` writes is what `macra.loadkey` reads. -/
theorem loadkey_savekey (hash : HashOrder) (key : Key) (savable : Savable key) :
    ∃ file count loaded, savekey hash key = .ok (file, count) ∧ loadkey file = .ok loaded ∧
      WellFormed loaded.keytbl ∧
      (∀ p, DigitFree p → ∀ w, w ∈ chain loaded.keytbl p ↔ w ∈ chain key.keytbl p) ∧
      (∀ w, Stored key.keytbl w → loaded.freq w = key.freq w ∧
        ∀ h, h ∈ loaded.headers w ↔ h ∈ key.headers w) ∧
      loaded.headersbynumtbl = key.headersbynumtbl := by
  obtain ⟨ws, lines, distinct, members, written, saved⟩ := savekey_lines hash savable.writable
  obtain ⟨numstbl, numbered, load⟩ := loadkey_savedFile savable.writable
    (lines_clean savable.writable written fun w member => (members w).mp member)
  obtain ⟨key', ran, wf, forms, counted, _⟩ := loadWords_run savable.writable numstbl numbered ws lines written
    (fun w member => (members w).mp member) distinct Key.empty wellFormed_empty fun w _ => not_stored_empty w
  have filled : lines ≠ [] := by
    obtain ⟨w, stored⟩ := savable.filled
    have some := List.length_pos_of_mem ((members w).mpr stored)
    exact List.ne_nil_of_length_pos (written.length_eq ▸ some)
  refine ⟨_, _, { key' with headersbynumtbl := key.headersbynumtbl }, saved, ?_, wf, ?_, ?_, rfl⟩
  · rw [load, if_neg filled, ran]
    rfl
  · intro p word w
    rw [wf.mem_chain word, savable.wellFormed.mem_chain word, forms, members]
    simp [not_stored_empty]
  · intro w stored
    exact counted w ((members w).mpr stored)

theorem hocKey_savable : Savable hocKey := by
  refine ⟨hocKey_wellFormed, ⟨lit "hōc", lit "hoc", by decide⟩, fun w stored => ?_, by decide, by decide,
    fun h listed => ?_, fun w stored _ => ?_, fun w stored uncounted => ?_⟩
  · rw [hocKey_stored w stored]
    decide +kernel
  · have only : h = lit "Gallia" := by simpa [hocKey] using listed
    subst only
    exact ⟨by decide, by decide, by decide, by decide, by decide, by decide, by decide, by decide⟩
  · rw [hocKey_stored w stored]
    exact ⟨⟨lit "Gallia", by decide⟩, by decide⟩
  · rw [hocKey_stored w stored] at uncounted
    exact absurd uncounted (by decide)

theorem loadkey_savekey_hoc :
    ∃ file count loaded, savekey .stored hocKey = .ok (file, count) ∧ loadkey file = .ok loaded ∧
      lit "hōc" ∈ chain loaded.keytbl (lit "hoc") ∧ loaded.freq (lit "hōc") = 1 := by
  obtain ⟨file, count, loaded, saved, read, _, forms, counted, _⟩ :=
    loadkey_savekey .stored hocKey hocKey_savable
  refine ⟨file, count, loaded, saved, read, ?_, ?_⟩
  · exact (forms (lit "hoc") (by decide) _).mpr (by decide)
  · rw [(counted (lit "hōc") ⟨lit "hoc", by decide⟩).1]
    decide

end Maccer
