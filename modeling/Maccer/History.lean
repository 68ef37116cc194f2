import Maccer.Chains
import Maccer.KeyRoundTrip
import Maccer.Sources

/-! The repair history: what Repair Key remembers of its earlier runs. -/

namespace Maccer

open Lua

/-- The lists of abbreviations and of words with enclitics, the replacements that are
made again in every run, and the words that are left as they are. -/
structure History where
  abvtbl : Table Unit
  enctbl : Table Unit
  autotbl : Table Str
  oktbl : Table Unit

/-- The contents of `repair-abbrev.txt`, `repair-enclitic.txt`, `repair-replace.txt` and
`repair-ok.txt`. -/
structure RepairFiles where
  abvfile : Str
  encfile : Str
  autofile : Str
  okfile : Str

def repairEntry (h : History) (e : Str × Str) : History :=
  { h with
    oktbl := (assign h.oktbl e.1 none).insert e.2 ()
    autotbl := h.autotbl.insert e.1 e.2 }

def repairPass (hash : HashOrder) (repltbl : Table Str) (h : History) : History :=
  (pairs hash (mergeChains repltbl (hash.order repltbl.keys))).foldl repairEntry h

/-- `macra.saverepairhistory`. A word on both lists is reported and written all the
same. -/
def saverepairhistory (hash : HashOrder) (h : History) : RepairFiles :=
  let wordfile (t : Table Unit) := bom ++ unlines ((pairs hash t).map (·.1))
  { abvfile := wordfile h.abvtbl
    encfile := wordfile h.enctbl
    autofile := bom ++ unlines ((pairs hash h.autotbl).map fun e => e.1 ++ lit "\t" ++ e.2)
    okfile := wordfile h.oktbl }

def repairtext (file : Str) : Run Str := do
  let text ← decomment (readutf8 file)
  return cleanup text true false

def loadWordfile (file : Str) (t : Table Unit) : Run (Table Unit) := do
  let rawstr ← repairtext file
  return if rawstr = [] then t else (rawstr.splitOn 10).foldl (fun t w => t.insert w ()) t

def loadAutoline (tbls : Table Str × Table Unit) (autoline : Str) : Run (Table Str × Table Unit) :=
  if autoline = [] then return tbls
  else do
    match ← lmatch autoline (lit "([^\t]+)\t(.+)") with
    | some [origw, replw] => return (tbls.1.insert origw replw, tbls.2.insert replw ())
    | _ => throw .raised

def loadAutofile (file : Str) : Run (Table Str × Table Unit) := do
  let rawstr ← repairtext file
  if rawstr = [] then return (∅, ∅) else (rawstr.splitOn 10).foldlM loadAutoline (∅, ∅)

/-- `macra.loadrepairhistory`, when all files exist. -/
def loadrepairhistory (files : RepairFiles) : Run History := do
  let abvtbl ← loadWordfile files.abvfile ∅
  let enctbl ← loadWordfile files.encfile ∅
  let (autotbl, oktbl) ← loadAutofile files.autofile
  let oktbl ← loadWordfile files.okfile oktbl
  return { abvtbl, enctbl, autotbl, oktbl }

structure Repair where
  hash : HashOrder
  repltbl : Table Str

def Repair.merged (run : Repair) : Table Str :=
  mergeChains run.repltbl (run.hash.order run.repltbl.keys)

def repairHistory (h : History) (run : Repair) : Run History :=
  loadrepairhistory (saverepairhistory run.hash (repairPass run.hash run.repltbl h))

def Consistent (h : History) : Prop := ∀ w, ¬ (w ∈ h.oktbl ∧ w ∈ h.autotbl)

def LetterWord (w : Str) : Prop := w ≠ [] ∧ ∀ b ∈ w, isLetter b = true

/-- A history as it is after loading: it is made of words, and every replacement is on
the OK list. -/
structure Loaded (h : History) : Prop where
  abv : ∀ w ∈ h.abvtbl, LetterWord w
  enc : ∀ w ∈ h.enctbl, LetterWord w
  ok : ∀ w ∈ h.oktbl, LetterWord w
  auto : ∀ a b, field h.autotbl a = some b → LetterWord a ∧ b ∈ h.oktbl

/-! The passes of a run. -/

theorem mem_assign_none {ν : Type} (t : Table ν) (k w : Str) :
    w ∈ assign t k none ↔ w ∈ t ∧ w ≠ k := by
  rw [show assign t k none = t.erase k from rfl, AList.mem_erase]
  exact and_comm

theorem field_foldl_insert (entries : List (Str × Str)) (t : Table Str)
    (distinct : (entries.map (·.1)).Nodup) (k v : Str) :
    field (entries.foldl (fun t e => t.insert e.1 e.2) t) k = some v ↔
      (k, v) ∈ entries ∨ field t k = some v ∧ ∀ e ∈ entries, e.1 ≠ k := by
  induction entries generalizing t with
  | nil => simp
  | cons e entries ih =>
      obtain ⟨absent, later⟩ := List.nodup_cons.mp distinct
      have apart : ∀ e' ∈ entries, e'.1 ≠ e.1 := fun e' member same =>
        absent (List.mem_map.mpr ⟨e', member, same⟩)
      have every : (∀ e' ∈ e :: entries, e'.1 ≠ k) ↔ k ≠ e.1 ∧ ∀ e' ∈ entries, e'.1 ≠ k := by
        rw [List.forall_mem_cons, ne_comm]
      rw [List.foldl_cons, ih (t.insert e.1 e.2) later, every, List.mem_cons]
      by_cases own : k = e.1
      · subst own
        have outside : (e.1, v) ∉ entries := fun member => apart _ member rfl
        have value : (e.1, v) = e ↔ some e.2 = some v := by
          rw [Prod.ext_iff, Option.some.injEq]
          exact ⟨fun both => both.2.symm, fun same => ⟨rfl, same.symm⟩⟩
        rw [field_insert, value]
        exact ⟨fun made => .inl (.inl (made.resolve_left outside).1), fun made =>
          .inr ⟨(made.resolve_right fun old => old.2.1 rfl).resolve_right outside, apart⟩⟩
      · have other : (k, v) ≠ e := fun same => own (by rw [← same])
        rw [field_insert_ne _ _ _ _ own]
        simp only [other, false_or, own, ne_eq, not_false_eq_true, true_and]

theorem repairEntry_auto (entries : List (Str × Str)) (h : History) :
    (entries.foldl repairEntry h).autotbl =
      entries.foldl (fun t e => t.insert e.1 e.2) h.autotbl := by
  induction entries generalizing h with
  | nil => rfl
  | cons e entries ih => exact ih (repairEntry h e)

theorem repairEntry_frame (entries : List (Str × Str)) (h : History) :
    (entries.foldl repairEntry h).abvtbl = h.abvtbl ∧
      (entries.foldl repairEntry h).enctbl = h.enctbl := by
  induction entries generalizing h with
  | nil => exact ⟨rfl, rfl⟩
  | cons e entries ih => exact ih (repairEntry h e)

theorem repairEntry_ok (entries : List (Str × Str)) (h : History) (w : Str) :
    (w ∈ (entries.foldl repairEntry h).oktbl → w ∈ h.oktbl ∧ (∀ e ∈ entries, e.1 ≠ w) ∨
        ∃ e ∈ entries, e.2 = w) ∧
      (w ∈ h.oktbl → (∀ e ∈ entries, e.1 ≠ w) → w ∈ (entries.foldl repairEntry h).oktbl) := by
  induction entries generalizing h with
  | nil => simp
  | cons e entries ih =>
      obtain ⟨only, kept⟩ := ih (repairEntry h e)
      have here : w ∈ (repairEntry h e).oktbl ↔ w = e.2 ∨ w ∈ h.oktbl ∧ w ≠ e.1 := by
        simp only [repairEntry, AList.mem_insert, mem_assign_none]
      rw [here] at only kept
      refine ⟨fun listed => ?_, fun listed free => ?_⟩
      · rcases only listed with ⟨rfl | ⟨old, apart⟩, free⟩ | ⟨e', member, same⟩
        · exact .inr ⟨e, by simp, rfl⟩
        · refine .inl ⟨old, fun e' member => ?_⟩
          rcases List.mem_cons.mp member with rfl | later
          · exact apart.symm
          · exact free e' later
        · exact .inr ⟨e', by simp [member], same⟩
      · exact kept (.inr ⟨listed, (free e (by simp)).symm⟩) fun e' member => free e' (by simp [member])

/-! The files. -/

theorem lmatch_autoline (origw replw : Str) (plain : 9 ∉ origw) (some : origw ≠ []) (text : replw ≠ []) :
    lmatch (origw ++ 9 :: replw) (lit "([^\t]+)\t(.+)") = .ok (.some [origw, replw]) := by
  have shape : lit "([^\t]+)\t(.+)" = 40 :: 91 :: [94, 9, 93, 43, 41, 9, 40, 46, 43, 41] := by
    decide
  have single (b : UInt8) : singleMatch b (91 :: [94, 9, 93, 43, 41, 9, 40, 46, 43, 41])
      [43, 41, 9, 40, 46, 43, 41] = decide (b ≠ 9) :=
    single_except b 9 _
  generalize whole : origw ++ 9 :: replw = s
  have length : s.length = origw.length + 1 + replw.length := by simp [← whole]; omega
  have positive := List.length_pos_iff.mpr some
  have positive' := List.length_pos_iff.mpr text
  have next (j : Nat) : matchHere s 11 [41, 9, 40, 46, 43, 41] j ([] ++ [⟨0, .unfinished⟩]) =
      if [9] <+: s.drop j then matchHere s 9 [40, 46, 43, 41] (j + 1) [⟨0, .closed j⟩]
      else .ok none := by
    rw [matchHere_close]
    exact matchHere_literals s 9 j _ [9] _ (by decide +kernel) rfl
  have back : s.drop origw.length = 9 :: replw := by rw [← whole, List.drop_left]
  have run : repeated s 1 (fun b => decide (b ≠ 9)) = origw.length - 1 := by
    obtain ⟨c, tail, rfl⟩ := List.exists_cons_of_ne_nil some
    have inside : ∀ b ∈ tail, decide (b ≠ 9) = true := by
      intro b member
      simpa using fun same : b = 9 => plain (by simp [← same, member])
    have rest : s.drop 1 = tail ++ 9 :: replw := by simp [← whole]
    rw [repeated, rest, List.takeWhile_append_of_pos inside]
    simp
  have expanded := maxExpand_longest
    (fun j => matchHere s 11 [41, 9, 40, 46, 43, 41] j ([] ++ [⟨0, .unfinished⟩])) 1
    (origw.length - 1) (origw.length - 1)
    (.some (s.length, [⟨0, .closed origw.length⟩, ⟨origw.length + 1, .closed replw.length⟩])) le_rfl
    (by
      rw [show 1 + (origw.length - 1) = origw.length by omega, next, if_pos ⟨replw, back.symm⟩,
        matchHere_rest s 5, if_pos (by omega),
        show s.length - (origw.length + 1) = replw.length by omega]
      rfl) (by simp) fun k above bound => by omega
  have first : (s[0]?).any (fun b => decide (b ≠ 9)) = true := by
    obtain ⟨c, tail, rfl⟩ := List.exists_cons_of_ne_nil some
    have other : c ≠ 9 := fun same => plain (by simp [same])
    simp [← whole, other]
  have matched : matchAt s (lit "([^\t]+)\t(.+)") 0 = .ok (.some (s.length,
      [⟨0, .closed origw.length⟩, ⟨origw.length + 1, .closed replw.length⟩])) := by
    have step := matchHere_plus s 11 0 ([] ++ [⟨0, .unfinished⟩]) (fun b => decide (b ≠ 9)) 91 _ _
      (by decide) (by decide) single
    rw [if_pos first, Nat.zero_add, run] at step
    rw [matchAt, shape, matchHere_open _ _ _ _ _ (by decide)]
    exact step.trans expanded
  rw [lmatch_of_first s _ 0 _ _ (by decide) (by omega) matched (by simp)]
  have last : s.drop (origw.length + 1) = replw := by
    rw [← List.drop_drop, back]
    rfl
  simp only [captured, List.map_cons, List.map_nil, List.drop_zero, last, List.take_length]
  rw [← whole, List.take_left]
  rfl

theorem LetterWord.without {w : Str} (word : LetterWord w) {b : UInt8} (other : isLetter b = false) :
    b ∉ w := fun member => by simp [word.2 b member] at other

structure RepairWord (w : Str) : Prop where
  filled : w ≠ []
  spaceless : ∀ b ∈ w, isSpace b = false
  noLine : Without 47 47 w
  noMulti : Without 47 42 w

theorem LetterWord.repair {w : Str} (word : LetterWord w) : RepairWord w where
  filled := word.1
  spaceless b member := by
    have letter := word.2 b member
    simp only [isLetter, Bool.not_eq_true', Bool.or_eq_false_iff] at letter
    exact letter.1.1
  noLine := without_of_not_mem (word.without (by decide))
  noMulti := without_of_not_mem (word.without (by decide))

theorem RepairWord.without {w : Str} (word : RepairWord w) {b : UInt8} (space : isSpace b = true) : b ∉ w :=
  fun member => by simp [word.spaceless b member] at space

structure RepairLine (line : Str) : Prop where
  filled : line ≠ []
  noLine : Without 47 47 line
  noMulti : Without 47 42 line
  tidy : Tidy false line

theorem RepairWord.line {w : Str} (word : RepairWord w) : RepairLine w where
  filled := word.filled
  noLine := word.noLine
  noMulti := word.noMulti
  tidy :=
    { flat := word.without (by decide)
      tabs := without_of_not_mem (word.without (by decide))
      tabFirst := fun first => word.without (by decide : isSpace 9 = true) (List.mem_of_mem_head? first)
      tabLast := fun last => word.without (by decide : isSpace 9 = true) (List.mem_of_mem_getLast? last)
      spaces := word.without (by decide) }

theorem RepairWord.autoline {a b : Str} (origw : RepairWord a) (replw : RepairWord b) :
    RepairLine (a ++ lit "\t" ++ b) := by
  have tab : lit "\t" = [9] := by decide
  have tabs (w : Str) (word : RepairWord w) : 9 ∉ w := word.without (by decide)
  have bytes (c : UInt8) (space : isSpace c = true) (apart : c ≠ 9) : c ∉ a ++ [9] ++ b := by
    simp [origw.without space, replw.without space, apart]
  -- a mark cannot reach from one word to the other
  have marks (c d : UInt8) (apart : c ≠ 9) (apart' : d ≠ 9) (first : Without c d a) (second : Without c d b) :
      Without c d (a ++ [9] ++ b) := by
    refine without_append _ _ _ _ ?_ second (.inl fun last => apart ?_)
    · exact without_append _ _ _ _ first (.singleton _) (.inr fun first => apart' (Option.some.inj first).symm)
    · rw [List.getLast?_concat] at last
      exact (Option.some.inj last).symm
  rw [tab]
  refine ⟨by simp, marks 47 47 (by decide) (by decide) origw.noLine replw.noLine,
    marks 47 42 (by decide) (by decide) origw.noMulti replw.noMulti,
    ⟨bytes 10 (by decide) (by decide), ?_, ?_, ?_, bytes 32 (by decide) (by decide)⟩⟩
  · refine without_append _ _ _ _ ?_ (without_of_not_mem (tabs b replw)) (.inr fun first =>
      tabs b replw (List.mem_of_mem_head? first))
    refine without_append _ _ _ _ (without_of_not_mem (tabs a origw)) (.singleton _) (.inl fun last =>
      tabs a origw (List.mem_of_mem_getLast? last))
  · obtain ⟨c, rest, rfl⟩ := List.exists_cons_of_ne_nil origw.filled
    exact fun first => tabs _ origw (by simp [Option.some.inj first])
  · rw [List.getLast?_append_of_ne_nil _ replw.filled]
    exact fun last => tabs b replw (List.mem_of_mem_getLast? last)

theorem repairtext_unlines (lines : List Str) (each : ∀ line ∈ lines, RepairLine line) :
    ∃ text, repairtext (bom ++ unlines lines) = .ok text ∧ (text = [] ↔ lines = []) ∧
      (lines ≠ [] → text.splitOn 10 = lines) := by
  have unmarked (b : UInt8) (apart : b ≠ 10) (within : ∀ line ∈ lines, Without 47 b line) : Without 47 b (unlines lines) :=
    without_unlines 47 b lines (fun line member => without_newline 47 b line (within line member) fun same => absurd same apart)
      (by simp)
  have bare : decomment (unlines lines) = .ok (unlines lines) := by
    rw [decomment_eq _ (unmarked 42 (by decide) fun line member => (each line member).noMulti).noMulti,
      stripComments_without _ (unmarked 47 (by decide) fun line member => (each line member).noLine)]
  refine ⟨cleanup (unlines lines) true false, by rw [repairtext, readutf8_bom, bare]; rfl, ?_⟩
  cases lines with
  | nil => exact ⟨by decide, by simp⟩
  | cons first lines =>
      have kept : (first :: lines).filter (· ≠ []) = first :: lines :=
        List.filter_eq_self.mpr fun line member => by simpa using (each line member).filled
      have split := cleanup_unlines (first :: lines) (fun line member => (each line member).tidy)
        (by rw [kept]; simp)
      rw [kept] at split
      refine ⟨⟨fun empty => ?_, by simp⟩, fun _ => split⟩
      rw [empty] at split
      have blank : [] = first := (List.cons.inj split).1
      exact absurd blank.symm (each first (by simp)).filled

theorem mem_foldl_insert (ws : List Str) (t : Table Unit) (w : Str) :
    w ∈ ws.foldl (fun t w => t.insert w ()) t ↔ w ∈ t ∨ w ∈ ws := by
  induction ws generalizing t with
  | nil => simp
  | cons v ws ih =>
      rw [List.foldl_cons, ih, AList.mem_insert, List.mem_cons]
      tauto

theorem loadWordfile_saved (hash : HashOrder) (t old : Table Unit) (words : ∀ w ∈ t, RepairWord w) :
    ∃ loaded, loadWordfile (bom ++ unlines ((pairs hash t).map (·.1))) old = .ok loaded ∧
      ∀ w, w ∈ loaded ↔ w ∈ old ∨ w ∈ t := by
  obtain ⟨text, read, empty, split⟩ := repairtext_unlines ((pairs hash t).map (·.1))
    fun w member => (words w ((pairs_keys hash t w).mp member)).line
  refine ⟨_, by rw [loadWordfile, read]; rfl, fun w => ?_⟩
  rw [← pairs_keys hash t w]
  by_cases none : (pairs hash t).map (·.1) = []
  · rw [if_pos (empty.mpr none), none]
    simp
  · rw [if_neg fun blank => none (empty.mp blank), split none, mem_foldl_insert]

theorem loadAutoline_run (tbls : Table Str × Table Unit) {a b : Str} (origw : RepairWord a)
    (replw : RepairWord b) :
    loadAutoline tbls (a ++ lit "\t" ++ b) = .ok (tbls.1.insert a b, tbls.2.insert b ()) := by
  have tab : lit "\t" = [9] := by decide
  have matched := lmatch_autoline a b (origw.without (by decide)) origw.filled replw.filled
  rw [loadAutoline, if_neg (by simp [tab]), tab, List.append_assoc, List.singleton_append, matched]
  rfl

theorem loadAutolines_run (entries : List (Str × Str)) (tbls : Table Str × Table Unit)
    (words : ∀ e ∈ entries, RepairWord e.1 ∧ RepairWord e.2) :
    (entries.map fun e => e.1 ++ lit "\t" ++ e.2).foldlM loadAutoline tbls =
      .ok (entries.foldl (fun t e => t.insert e.1 e.2) tbls.1,
        (entries.map (·.2)).foldl (fun t w => t.insert w ()) tbls.2) := by
  induction entries generalizing tbls with
  | nil => rfl
  | cons e entries ih =>
      obtain ⟨origw, replw⟩ := words e (by simp)
      rw [List.map_cons, List.foldlM_cons, loadAutoline_run tbls origw replw]
      exact ih _ fun e' member => words e' (by simp [member])

structure Reloaded (h h' : History) : Prop where
  abv : ∀ w, w ∈ h'.abvtbl ↔ w ∈ h.abvtbl
  enc : ∀ w, w ∈ h'.enctbl ↔ w ∈ h.enctbl
  auto : ∀ k, field h'.autotbl k = field h.autotbl k
  ok : ∀ w, w ∈ h'.oktbl ↔ w ∈ h.oktbl ∨ ∃ k, field h.autotbl k = some w

theorem loadrepairhistory_saved (hash : HashOrder) (h : History) (abv : ∀ w ∈ h.abvtbl, RepairWord w)
    (enc : ∀ w ∈ h.enctbl, RepairWord w) (ok : ∀ w ∈ h.oktbl, RepairWord w)
    (auto : ∀ a b, field h.autotbl a = some b → RepairWord a ∧ RepairWord b) :
    ∃ h', loadrepairhistory (saverepairhistory hash h) = .ok h' ∧ Reloaded h h' := by
  obtain ⟨abvtbl, readAbv, sameAbv⟩ := loadWordfile_saved hash h.abvtbl ∅ abv
  obtain ⟨enctbl, readEnc, sameEnc⟩ := loadWordfile_saved hash h.enctbl ∅ enc
  have entry (e : Str × Str) : e ∈ pairs hash h.autotbl ↔ field h.autotbl e.1 = some e.2 :=
    mem_pairs hash h.autotbl e.1 e.2
  have words : ∀ e ∈ pairs hash h.autotbl, RepairWord e.1 ∧ RepairWord e.2 :=
    fun e member => auto e.1 e.2 ((entry e).mp member)
  obtain ⟨autostr, readAuto, empty, split⟩ :=
    repairtext_unlines ((pairs hash h.autotbl).map fun e => e.1 ++ lit "\t" ++ e.2) (by
      intro line member
      obtain ⟨e, stored, rfl⟩ := List.mem_map.mp member
      exact (words e stored).1.autoline (words e stored).2)
  have lines : loadAutofile (saverepairhistory hash h).autofile =
      .ok ((pairs hash h.autotbl).foldl (fun t e => t.insert e.1 e.2) ∅,
        ((pairs hash h.autotbl).map (·.2)).foldl (fun t w => t.insert w ()) ∅) := by
    rw [loadAutofile, saverepairhistory, readAuto, run_bind_ok]
    by_cases none : (pairs hash h.autotbl).map (fun e => e.1 ++ lit "\t" ++ e.2) = []
    · rw [if_pos (empty.mpr none), List.map_eq_nil_iff.mp none]
      rfl
    · rw [if_neg fun blank => none (empty.mp blank), split none, loadAutolines_run _ _ words]
  obtain ⟨oktbl, readOk, sameOk⟩ := loadWordfile_saved hash h.oktbl
    (((pairs hash h.autotbl).map (·.2)).foldl (fun t w => t.insert w ()) ∅) ok
  refine ⟨⟨abvtbl, enctbl, (pairs hash h.autotbl).foldl (fun t e => t.insert e.1 e.2) ∅, oktbl⟩, ?_, ?_⟩
  · rw [loadrepairhistory, lines]
    simp only [saverepairhistory, readAbv, readEnc, readOk, run_bind_ok, run_pure]
  · refine ⟨fun w => by simp [sameAbv], fun w => by simp [sameEnc], fun k => ?_, fun w => ?_⟩
    · refine Option.ext fun v => ?_
      rw [field_foldl_insert _ _ (pairs_nodup hash h.autotbl), mem_pairs]
      simp [field]
    · rw [sameOk, mem_foldl_insert, List.mem_map, or_comm]
      refine or_congr_right ⟨?_, ?_⟩
      · rintro (none | ⟨e, member, rfl⟩)
        · simp at none
        · exact ⟨e.1, (entry e).mp member⟩
      · rintro ⟨k, found⟩
        exact .inr ⟨(k, w), (entry _).mpr found, rfl⟩

structure History.Worded (h : History) : Prop where
  abv : ∀ w ∈ h.abvtbl, RepairWord w
  enc : ∀ w ∈ h.enctbl, RepairWord w
  auto : ∀ a b, field h.autotbl a = some b → RepairWord a ∧ RepairWord b
  ok : ∀ w ∈ h.oktbl, RepairWord w

/-- A history decodes to what was saved, in whatever order its tables are written. -/
theorem loadrepairhistory_decodes (hash : HashOrder) (h : History) (words : h.Worded) :
    ∃ h', loadrepairhistory (saverepairhistory hash h) = .ok h' ∧
      {w | w ∈ h'.abvtbl} = {w | w ∈ h.abvtbl} ∧
      {w | w ∈ h'.enctbl} = {w | w ∈ h.enctbl} ∧
      field h'.autotbl = field h.autotbl ∧
      {w | w ∈ h'.oktbl} = {w | w ∈ h.oktbl} ∪ {w | ∃ origw, field h.autotbl origw = some w} := by
  obtain ⟨h', ran, same⟩ := loadrepairhistory_saved hash h words.abv words.enc words.ok words.auto
  exact ⟨h', ran, Set.ext same.abv, Set.ext same.enc, funext same.auto, Set.ext same.ok⟩

theorem field_single (a b k v : Str) : field (AList.insert a b ∅) k = some v ↔ k = a ∧ v = b := by
  by_cases here : k = a
  · rw [here, field_insert]
    simp [eq_comm]
  · rw [field_insert_ne _ _ _ _ here]
    simp [here, field]

theorem mem_single {ν : Type} (k w : Str) (v : ν) : w ∈ (AList.insert k v ∅ : Table ν) ↔ w = k := by
  rw [AList.mem_insert]
  exact or_iff_left (List.not_mem_nil)

theorem repairWord_of_all {w : Str} (filled : w ≠ []) (spaceless : w.all (fun b => !isSpace b) = true)
    (noLine : Without 47 47 w) (noMulti : Without 47 42 w) : RepairWord w :=
  ⟨filled, fun b member => by simpa using List.all_eq_true.mp spaceless b member, noLine, noMulti⟩

/-- A history with an abbreviation and a replacement, and nothing on the other lists. -/
def cosHistory : History := ⟨AList.insert (lit "cos.") () ∅, ∅, AList.insert (lit "a/b") (lit "ā*/b") ∅, ∅⟩

theorem cosHistory_worded : cosHistory.Worded where
  abv w member := by
    rw [(mem_single _ _ _).mp member]
    exact repairWord_of_all (by decide) (by decide) (by decide) (by decide)
  enc w member := absurd member List.not_mem_nil
  auto a b found := by
    obtain ⟨rfl, rfl⟩ := (field_single _ _ _ _).mp found
    exact ⟨repairWord_of_all (by decide) (by decide) (by decide) (by decide),
      repairWord_of_all (by decide) (by decide) (by decide) (by decide)⟩
  ok w member := absurd member List.not_mem_nil

theorem loadrepairhistory_cos : ∃ h', loadrepairhistory (saverepairhistory .stored cosHistory) = .ok h' ∧
    lit "cos." ∈ h'.abvtbl ∧ lit "ā*/b" ∈ h'.oktbl := by
  obtain ⟨h', ran, abv, _, _, ok⟩ := loadrepairhistory_decodes .stored cosHistory cosHistory_worded
  refine ⟨h', ran, (Set.ext_iff.mp abv _).mpr ((mem_single _ _ _).mpr rfl), (Set.ext_iff.mp ok _).mpr (.inr ⟨lit "a/b", ?_⟩)⟩
  exact (field_single _ _ _ _).mpr ⟨rfl, rfl⟩

/-! Runs. -/

def Repair.Lettered (run : Repair) : Prop :=
  ∀ a b, field run.repltbl a = some b → LetterWord a ∧ LetterWord b

/-- No replacement of the run leads to a word that is replaced in it or was replaced
before, and none that is kept from before leads to a word that is now replaced. -/
structure Untangled (h : History) (run : Repair) : Prop where
  made : ∀ a b, field run.merged a = some b → b ∉ run.merged ∧ b ∉ h.autotbl
  kept : ∀ a b, field h.autotbl a = some b → a ∉ run.merged → b ∉ run.merged

section

variable {h : History} {run : Repair}

theorem Repair.Lettered.merged (words : run.Lettered) (a b : Str)
    (found : field run.merged a = some b) : LetterWord a ∧ LetterWord b := by
  obtain ⟨k, value⟩ := mergeChains_value found
  have left : a ∈ run.repltbl := by
    by_contra free
    rw [Repair.merged, mergeChains_free _ ((field_eq_none _ _).mpr free)] at found
    cases found
  obtain ⟨v, own⟩ := exists_field left
  exact ⟨(words a v own).1, (words k b value).2⟩

theorem repairPass_auto (h : History) (run : Repair) (k v : Str) :
    field (repairPass run.hash run.repltbl h).autotbl k = some v ↔
      field run.merged k = some v ∨ field h.autotbl k = some v ∧ k ∉ run.merged := by
  have left : (∀ e ∈ pairs run.hash run.merged, e.1 ≠ k) ↔ k ∉ run.merged := by
    rw [← pairs_keys run.hash run.merged k, List.mem_map, not_exists]
    exact forall_congr' fun e => not_and.symm
  rw [repairPass, repairEntry_auto, field_foldl_insert _ _ (pairs_nodup _ _), mem_pairs, ← left]
  rfl

theorem repairPass_ok (h : History) (run : Repair) (w : Str) :
    (w ∈ (repairPass run.hash run.repltbl h).oktbl → w ∈ h.oktbl ∧ w ∉ run.merged ∨
        ∃ k, field run.merged k = some w) ∧
      (w ∈ h.oktbl → w ∉ run.merged → w ∈ (repairPass run.hash run.repltbl h).oktbl) := by
  have left : (∀ e ∈ pairs run.hash run.merged, e.1 ≠ w) ↔ w ∉ run.merged := by
    rw [← pairs_keys run.hash run.merged w, List.mem_map, not_exists]
    exact forall_congr' fun e => not_and.symm
  obtain ⟨only, kept⟩ := repairEntry_ok (pairs run.hash run.merged) h w
  rw [left] at only kept
  refine ⟨fun listed => (only listed).imp_right ?_, kept⟩
  rintro ⟨e, member, rfl⟩
  exact ⟨e.1, (mem_pairs _ _ _ _).mp member⟩

/-- The history that the next run loads: a word is on the OK list when it was there
and has not been replaced, or when it is a replacement. -/
theorem repairHistory_run (loaded : Loaded h) (words : run.Lettered) :
    ∃ h', repairHistory h run = .ok h' ∧ Loaded h' ∧
      (∀ k v, field h'.autotbl k = some v ↔
        field run.merged k = some v ∨ field h.autotbl k = some v ∧ k ∉ run.merged) ∧
      ∀ w, w ∈ h'.oktbl ↔ w ∈ h.oktbl ∧ w ∉ run.merged ∨ ∃ k, field h'.autotbl k = some w := by
  obtain ⟨sameAbv, sameEnc⟩ := repairEntry_frame (pairs run.hash run.merged) h
  have auto := repairPass_auto h run
  have autoWords : ∀ a b, field (repairPass run.hash run.repltbl h).autotbl a = some b →
      LetterWord a ∧ LetterWord b := by
    intro a b found
    rcases (auto a b).mp found with made | ⟨kept, _⟩
    · exact words.merged a b made
    · exact ⟨(loaded.auto a b kept).1, loaded.ok b (loaded.auto a b kept).2⟩
  have okWords : ∀ w ∈ (repairPass run.hash run.repltbl h).oktbl, LetterWord w := by
    intro w listed
    rcases (repairPass_ok h run w).1 listed with ⟨old, _⟩ | ⟨k, made⟩
    · exact loaded.ok w old
    · exact (words.merged k w made).2
  obtain ⟨h', ran, same⟩ := loadrepairhistory_saved run.hash (repairPass run.hash run.repltbl h)
    (fun w member => (loaded.abv w (sameAbv ▸ member)).repair)
    (fun w member => (loaded.enc w (sameEnc ▸ member)).repair) (fun w member => (okWords w member).repair)
    fun a b found => ⟨(autoWords a b found).1.repair, (autoWords a b found).2.repair⟩
  have ok : ∀ w, w ∈ h'.oktbl ↔
      w ∈ h.oktbl ∧ w ∉ run.merged ∨ ∃ k, field h'.autotbl k = some w := by
    intro w
    rw [same.ok]
    simp only [same.auto]
    constructor
    · rintro (listed | replaced)
      · exact ((repairPass_ok h run w).1 listed).imp_right fun ⟨k, made⟩ =>
          ⟨k, (auto k w).mpr (.inl made)⟩
      · exact .inr replaced
    · exact Or.imp_left fun ⟨old, free⟩ => (repairPass_ok h run w).2 old free
  refine ⟨h', ran, ?_, fun k v => by rw [same.auto, auto], ok⟩
  refine ⟨fun w member => loaded.abv w (sameAbv ▸ (same.abv w).mp member),
    fun w member => loaded.enc w (sameEnc ▸ (same.enc w).mp member), fun w member => ?_,
    fun a b found => ⟨?_, (ok b).mpr (.inr ⟨a, found⟩)⟩⟩
  · rcases (ok w).mp member with ⟨old, _⟩ | ⟨k, found⟩
    · exact loaded.ok w old
    · exact (autoWords k w (same.auto k ▸ found)).2
  · exact (autoWords a b (same.auto a ▸ found)).1

/-- One run keeps the lists apart just when its replacements are not tangled with each other or with the ones before.
-/
theorem repairHistory_consistent (loaded : Loaded h) (words : run.Lettered)
    (consistent : Consistent h) :
    ∃ h', repairHistory h run = .ok h' ∧ Loaded h' ∧ (Consistent h' ↔ Untangled h run) := by
  obtain ⟨h', ran, loaded', auto, ok⟩ := repairHistory_run loaded words
  have left (w : Str) : w ∈ h'.autotbl ↔ w ∈ run.merged ∨ w ∈ h.autotbl := by
    constructor
    · intro member
      obtain ⟨v, found⟩ := exists_field member
      exact ((auto w v).mp found).imp mem_of_field fun kept => mem_of_field kept.1
    · intro member
      by_cases here : w ∈ run.merged
      · obtain ⟨v, found⟩ := exists_field here
        exact mem_of_field ((auto w v).mpr (.inl found))
      · obtain ⟨v, found⟩ := exists_field (member.resolve_left here)
        exact mem_of_field ((auto w v).mpr (.inr ⟨found, here⟩))
  refine ⟨h', ran, loaded', fun apart => ⟨fun a b made => ?_, fun a b kept free => ?_⟩, fun untangled => ?_⟩
  · have listed : b ∈ h'.oktbl := (ok b).mpr (.inr ⟨a, (auto a b).mpr (.inl made)⟩)
    exact not_or.mp fun replaced => apart b ⟨listed, (left b).mpr replaced⟩
  · have listed : b ∈ h'.oktbl := (ok b).mpr (.inr ⟨a, (auto a b).mpr (.inr ⟨kept, free⟩)⟩)
    exact fun replaced => apart b ⟨listed, (left b).mpr (.inl replaced)⟩
  · rintro w ⟨listed, replaced⟩
    rcases (ok w).mp listed with ⟨old, free⟩ | ⟨k, found⟩
    · exact consistent w ⟨old, ((left w).mp replaced).resolve_left free⟩
    · rcases (auto k w).mp found with made | ⟨kept, free⟩
      · obtain ⟨new, before⟩ := untangled.made k w made
        exact ((left w).mp replaced).elim new before
      · have before := ((left w).mp replaced).resolve_left (untangled.kept k w kept free)
        exact consistent w ⟨(loaded.auto k w kept).2, before⟩

end

/-- The lists stay apart after every run of a sequence just when no run is tangled. -/
theorem repairHistories_consistent (h : History) (loaded : Loaded h) (consistent : Consistent h)
    (runs : List Repair) (words : ∀ run ∈ runs, run.Lettered) :
    (∀ before, before <+: runs → ∃ h', before.foldlM repairHistory h = .ok h' ∧ Consistent h') ↔
      ∀ before run, before ++ [run] <+: runs →
        ∃ h', before.foldlM repairHistory h = .ok h' ∧ Untangled h' run := by
  induction runs generalizing h with
  | nil =>
      refine ⟨fun _ before run inside => by simp at inside, fun _ before inside => ?_⟩
      obtain rfl := List.prefix_nil.mp inside
      exact ⟨h, rfl, consistent⟩
  | cons first runs ih =>
      obtain ⟨h', ran, loaded', step⟩ :=
        repairHistory_consistent loaded (words first (by simp)) consistent
      have next (later : List Repair) :
          (first :: later).foldlM repairHistory h = later.foldlM repairHistory h' := by
        rw [List.foldlM_cons, ran]
        rfl
      have rest := fun apart => ih h' loaded' apart fun run member => words run (by simp [member])
      constructor
      · intro always before run inside
        have apart : Consistent h' := by
          obtain ⟨h'', same, apart⟩ := always [first] ⟨runs, rfl⟩
          rw [next] at same
          cases same
          exact apart
        cases before with
        | nil =>
            obtain rfl : run = first := (List.cons_prefix_cons.mp inside).1
            exact ⟨h, rfl, step.mp apart⟩
        | cons r later =>
            obtain ⟨rfl, later_part⟩ := List.cons_prefix_cons.mp inside
            rw [next]
            refine (rest apart).mp (fun before part => ?_) later run later_part
            rw [← next]
            exact always (r :: before) (List.cons_prefix_cons.mpr ⟨rfl, part⟩)
      · intro untangled before inside
        have apart : Consistent h' := by
          obtain ⟨_, same, here⟩ := untangled [] first ⟨runs, rfl⟩
          cases same
          exact step.mpr here
        cases before with
        | nil => exact ⟨h, rfl, consistent⟩
        | cons r later =>
            obtain ⟨rfl, later_part⟩ := List.cons_prefix_cons.mp inside
            rw [next]
            refine (rest apart).mpr (fun before run part => ?_) later later_part
            rw [← next]
            exact untangled (r :: before) run (List.cons_prefix_cons.mpr ⟨rfl, part⟩)

def singleRepair (a b : Str) : Repair := ⟨.stored, AList.insert a b ∅⟩

def History.empty : History := ⟨∅, ∅, ∅, ∅⟩

theorem loaded_empty : Loaded .empty := by
  refine ⟨?_, ?_, ?_, ?_⟩ <;> simp [History.empty, field]

theorem consistent_empty : Consistent .empty := by simp [Consistent, History.empty]

theorem singleRepair_field {a b k v : Str} :
    field (singleRepair a b).repltbl k = some v ↔ k = a ∧ v = b := field_single a b k v

theorem singleRepair_lettered {a b : Str} (origw : LetterWord a) (replw : LetterWord b) :
    (singleRepair a b).Lettered := by
  intro k v found
  obtain ⟨rfl, rfl⟩ := singleRepair_field.mp found
  exact ⟨origw, replw⟩

theorem singleRepair_acyclic {a b : Str} (apart : a ≠ b) : Acyclic (singleRepair a b).repltbl := by
  have ends {x y : Str} (path : Relation.TransGen (fun k v => field (singleRepair a b).repltbl k = some v) x y) :
      x = a ∧ y = b := by
    induction path with
    | single step => exact singleRepair_field.mp step
    | tail _ step ih =>
        obtain ⟨again, _⟩ := singleRepair_field.mp step
        exact absurd (again.symm.trans ih.2) apart
  intro w cycle
  obtain ⟨rfl, same⟩ := ends cycle
  exact apart same

theorem letterWord_tectum : LetterWord (lit "tectum") ∧ LetterWord (lit "tēctum") := by
  refine ⟨⟨?_, ?_⟩, ?_, ?_⟩ <;> decide +kernel

theorem letterWord_hoc : LetterWord (lit "hoc") ∧ LetterWord (lit "hōc") := by
  refine ⟨⟨?_, ?_⟩, ?_, ?_⟩ <;> decide +kernel

theorem singleRepair_merged {a b k v : Str} (found : field (singleRepair a b).merged k = some v) : k = a ∧ v = b := by
  obtain ⟨_, value⟩ := mergeChains_value found
  refine ⟨?_, (singleRepair_field.mp value).2⟩
  by_contra other
  have free : field (singleRepair a b).repltbl k = none := by
    rw [singleRepair, field_insert_ne _ _ _ _ other]
    rfl
  rw [Repair.merged, mergeChains_free _ free] at found
  cases found

theorem repairHistories_consistent_hoc :
    ∃ h', [singleRepair (lit "tectum") (lit "tēctum"), singleRepair (lit "hoc") (lit "hōc")].foldlM repairHistory .empty =
      .ok h' ∧ Consistent h' := by
  refine (repairHistories_consistent .empty loaded_empty consistent_empty _ ?_).mpr ?_ _ (List.prefix_refl _)
  · intro run member
    cases List.mem_pair.mp member with
    | inl first => exact first ▸ singleRepair_lettered letterWord_tectum.1 letterWord_tectum.2
    | inr second => exact second ▸ singleRepair_lettered letterWord_hoc.1 letterWord_hoc.2
  · intro before run inside
    cases before with
    | nil =>
        obtain rfl := (List.cons_prefix_cons.mp inside).1
        refine ⟨.empty, rfl, fun a b found => ?_, by simp [History.empty, field]⟩
        obtain ⟨_, rfl⟩ := singleRepair_merged found
        refine ⟨fun again => ?_, by simp [History.empty]⟩
        obtain ⟨v, found⟩ := exists_field again
        exact absurd (singleRepair_merged found).1 (by decide)
    | cons r later =>
        obtain ⟨rfl, behind⟩ := List.cons_prefix_cons.mp inside
        obtain ⟨rfl, rfl⟩ : later = [] ∧ run = singleRepair (lit "hoc") (lit "hōc") := by
          cases later with
          | nil => exact ⟨rfl, (List.cons_prefix_cons.mp behind).1⟩
          | cons r later => simp at behind
        -- what the first run has put on the list
        have listed : (fun h : History => decide (∀ e ∈ h.autotbl.entries, e.1 = lit "tectum" ∧ e.2 = lit "tēctum")) <$>
            [singleRepair (lit "tectum") (lit "tēctum")].foldlM repairHistory .empty = .ok true := by
          decide
        obtain ⟨h', ran, auto⟩ := map_eq_ok.mp listed
        have auto := of_decide_eq_true auto
        refine ⟨h', ran, fun a b found => ?_, fun a b found _ => ?_⟩
        · obtain ⟨_, rfl⟩ := singleRepair_merged found
          refine ⟨fun again => ?_, fun again => ?_⟩
          · obtain ⟨v, found⟩ := exists_field again
            exact absurd (singleRepair_merged found).1 (by decide)
          · obtain ⟨v, found⟩ := exists_field again
            have word : lit "hōc" = lit "tectum" := (auto ⟨_, v⟩ (AList.mem_lookup_iff.mp found)).1
            exact absurd word (by decide)
        · intro again
          obtain ⟨v, replaced⟩ := exists_field again
          have word : b = lit "tēctum" := (auto ⟨a, b⟩ (AList.mem_lookup_iff.mp found)).2
          rw [word] at replaced
          exact absurd (singleRepair_merged replaced).1 (by decide)

/-- A word that is repaired in one run and put back in the next comes to be on both
lists. -/
theorem repairHistories_tectum_tangled :
    ¬ ∀ (h : History) (runs : List Repair), Loaded h → Consistent h →
      (∀ run ∈ runs, run.Lettered ∧ Acyclic run.repltbl) →
      ∃ h', runs.foldlM repairHistory h = .ok h' ∧ Consistent h' := by
  intro claim
  obtain ⟨h', ran, apart⟩ := claim .empty
    [singleRepair (lit "tectum") (lit "tēctum"), singleRepair (lit "tēctum") (lit "tectum")]
    loaded_empty consistent_empty (by
      intro run member
      have other : lit "tectum" ≠ lit "tēctum" := by decide
      obtain ⟨first, second⟩ := letterWord_tectum
      rcases List.mem_pair.mp member with rfl | rfl
      · exact ⟨singleRepair_lettered first second, singleRepair_acyclic other⟩
      · exact ⟨singleRepair_lettered second first, singleRepair_acyclic other.symm⟩)
  have both : (fun h : History => decide (lit "tectum" ∈ h.oktbl ∧ lit "tectum" ∈ h.autotbl)) <$>
      [singleRepair (lit "tectum") (lit "tēctum"),
        singleRepair (lit "tēctum") (lit "tectum")].foldlM repairHistory .empty = .ok true := by
    decide
  rw [ran] at both
  exact apart (lit "tectum") (by simpa using both)

end Maccer
