import Maccer.Choices
import Maccer.Hyphens
import Maccer.Moving
import Maccer.Perfects

/-! `_repairs.txt`: the lists that Analyze Key writes for the user, and what Repair Key reads in them. -/

namespace Maccer

open Lua

inductive Issue where
  | ABV | ENC | PRF | HID | ORTH | AMB
  deriving DecidableEq, Repr

/-- The number of the list of new words among the sections of the file. -/
def Issue.number : Issue → Nat
  | .ABV => 3
  | .ENC => 4
  | .PRF => 5
  | .HID => 6
  | .ORTH => 7
  | .AMB => 8

def issues : List Issue := [.ABV, .ENC, .PRF, .HID, .ORTH, .AMB]

/-- The results of `analyze`: the words with several issues, the new words, those that are replaced again and those that
are left alone, and what the lists say of them. -/
structure Results where
  MULTI : Table (Finset Issue)
  new : Issue → List Str
  auto : Issue → List Str
  ok : Issue → List Str
  ENC_DOUBT : Table Unit
  HID_REPL : Table Str
  HID_NOTES : Table Str
  HID_DOUBT : Table Unit
  ORTH_REPL : Table Str
  ORTH_NOTES : Table Str
  AMB_PARS : Table (List Str)

/-! `writerepairsfile`. -/

def SECTION : Str := lit "##### "

def LINE : Str := lit " ================================"

def Issue.title : Issue → Str
  | .ABV => lit "ABBREVIATIONS"
  | .ENC => lit "ENCLITICS"
  | .PRF => lit "PERFECT SUBJUNCTIVES"
  | .HID => lit "HIDDEN LONG VOWELS"
  | .ORTH => lit "ORTHOGRAPHY"
  | .AMB => lit "AMBIGUITIES"

namespace Results

/-- The heading of a section. -/
def SECTIONS (title : Str) : Str := lit "// " ++ SECTION ++ title ++ LINE

def pre : Str := lit "\n\t? "

def xpre : Str := lit "\nx\t? "

def xdoubtpre : Str := lit "\nx\t?? "

def commentpre : Str := lit "\n\t\t// "

def orthdisabled : Str :=
  lit "// Orthographic repairs are disabled. To enable, change the option in \"_CONFIG.txt\".\n"

/-- The instructions, with the date. -/
def repairsIntro (date : Str) : List Str := [
  lit "// REPAIRS", lit "// Generated by Analyze Key on " ++ date ++ lit ".", [],
  lit "// Instructions: For each list of entries below, enter your corrections at the beginning of each line " ++
    lit "beginning with \"?\" as directed at the beginning of each list (minus the quote marks).",
  lit "// Multiple inputs can be in any order, except that \"x\" must be the first character on the line, where it " ++
    lit "is required.", [],
  lit "// The first set of lists is of words with new issues, and the other two sets are of problematic words " ++
    lit "encountered in the past, which will be fixed or ignored automatically based on your previous actions.",
  lit "// After correcting these lists, run Repair Key to apply the changes therein to \"key.txt\" and (except in the " ++
    lit "cases of enclitics and abbreviations) to all source texts. All repairs except those in the Multi section " ++
    lit "will be saved in the \"repair-x.txt\" files and will be automatically repeated in the future.", [],
  lit "// Note: The following can be entered at any point where input is expected, except in the Custom section:",
  lit "//\t- \"= α\" where α is a replacement for the word in question (except in the Ambiguities section).",
  lit "//\t- \"+ α\" where α is a new word.",
  lit "// The input specific to each section will be processed before these.",
  lit "Example:",
  lit "//\t(in the Enclitics section)",
  lit "//\t\"= ergo-\t? ergone\"",
  lit "//\tThe lack of an \"x\" before \"?\" means this word does in fact have an attached enclitic that will be " ++
    lit "removed in the word key (not in the source texts), resulting in \"ergo\", which is then replaced in the key " ++
    lit "and sources with \"ergō\".",
  lit "// Note that if a custom replacement is entered, \"x\" is still required to cancel an abbreviation or enclitic, " ++
    lit "but is not required to cancel other types of repairs (since they are themselves replacements).", []]

def customIntro : List Str := [
  SECTIONS (lit "CUSTOM REPLACEMENTS"),
  lit "// Enter manual replacements.",
  lit "// Input: \"α > β\" where α is the original, β the replacement word.",
  lit "//\tor \"α*** = β\" where α is any part of a word, β the replacement, and *** are any number of string " ++
    lit "substitution modifiers. See introductory comments in \"hidden.txt\" for more information.",
  lit "//\tor simply \"α\" where α is a new word."]

def multiIntro : List Str := [
  SECTIONS (lit "MULTIPLE ISSUES"),
  lit "// Forms with multiple issues. (?? = doubtful.)",
  lit "// Enter custom replacements.",
  lit "// Input: \"\\e\", \"\\a\", \"\\p\", \"\\h\", \"\\o\", and/or \"\\m\" to affirm that the word has an issue " ++
    lit "pertaining to, respectively, enclitics, abbreviations, perfect subjunctives, hidden vowels, orthography, and " ++
    lit "ambiguities."]

def multiNote : Str :=
  lit "//\t(Note: \"\\a\" for an abbreviated word means that the final period will NOT be removed in the key. \"\\e\" " ++
    lit "for a word with an enclitic means that the enclitic WILL be removed in the key. For the input expected after " ++
    lit "\"\\m\" see the AMBIGUITIES section below.)"

/-- The instructions of a list of new words. -/
def newIntro (LONG_PERF_SUBJ : Bool) : Issue → List Str
  | .ABV => [lit "// Periods will be kept in abbreviations.", lit "// Un-cancel true abbreviations.",
      lit "// Input: \"x\" cancels."]
  | .ENC => [lit "// Enclitics will be removed.", lit "// Cancel words that do not have enclitics.",
      lit "// Input: \"x\" to cancel."]
  | .PRF => [
      lit "// " ++ (if LONG_PERF_SUBJ then lit "Short \"i\" will be lengthened" else lit "Long \"ī\" will be shortened") ++
        lit " in perfect subjunctive verb forms.",
      lit "// Cancel forms that are not perfect subjunctives.", lit "// Input: \"x\" to cancel."]
  | .HID => [lit "// Hidden long vowels will be marked.", lit "// Cancel incorrect replacements. (?? = doubtful.)",
      lit "// Input: \"x\" to cancel."]
  | .ORTH => [lit "// Orthography will be standardized.", lit "// Cancel incorrect replacements.",
      lit "// Input: \"x\" to cancel."]
  | .AMB => [lit "// Incorrect parallel word forms may be replaced, and new parallel forms may be added.",
      lit "// Enter any desired changes.",
      lit "// Input: \"x\" where x is a number referring to the form that will replace all other forms.", lit "// OR",
      lit "// \"x = y, x = α\" where x and y are numbers, α is an unknown word form, and \"=\" means \"replace with\".",
      lit "// Example: \"2=mālā, 1=3\" replaces form [2] with \"mālā\" (and adds \"mālā\" to the key) and replaces form " ++
        lit "[1] with form [3]."]

/-- What is joined to the text, or to find nothing there, which raises. -/
def listed {ν : Type} (t : Table ν) (w : Str) : Run ν :=
  match field t w with
  | some v => pure v
  | none => throw .raised

def note (notes : Table Str) (w indent : Str) : Str :=
  match field notes w with
  | some text => indent ++ lit "// (N.B.:" ++ text ++ lit ")"
  | none => []

def arrow (w repl : Str) : Str := w ++ lit " -> " ++ repl

variable (REPAIR_ORTH LONG_PERF_SUBJ : Bool) (r : Results)

def parstr (plainw : Str) : Run Str := do
  let partbl ← listed r.AMB_PARS plainw
  return subFrom (parlist partbl 1) 3

/-- What the file says of a word with several issues. -/
def multiComments (w : Str) (sectionstbl : Finset Issue) : Run Str := do
  let abv := if .ABV ∈ sectionstbl then commentpre ++ lit "(abbreviation?)" else []
  let enc :=
    if .ENC ∈ sectionstbl then commentpre ++ lit "(enclitic?" ++ (if w ∈ r.ENC_DOUBT then lit "?)" else lit ")") else []
  -- that it may be a perfect subjunctive is left out: nothing sets `macra.REPAIR_PERF_SUBJ`
  let hid ← if .HID ∈ sectionstbl then do
      let repl ← listed r.HID_REPL w
      pure (commentpre ++ lit "(hidden?" ++ (if w ∈ r.HID_DOUBT then lit ") " else lit "?) ") ++ arrow w repl ++
        note r.HID_NOTES w (lit "\n\t\t\t"))
    else pure []
  let orth ← if .ORTH ∈ sectionstbl ∧ REPAIR_ORTH = true then do
      let repl ← listed r.ORTH_REPL w
      pure (commentpre ++ lit "(orthography?) " ++ arrow w repl ++ note r.ORTH_NOTES w (lit "\n\t\t\t"))
    else pure []
  let amb ← if .AMB ∈ sectionstbl then do
      let plainw ← plain w
      let parstr ← r.parstr plainw
      pure (commentpre ++ lit "(ambiguous) " ++ parstr)
    else pure []
  return abv ++ enc ++ hid ++ orth ++ amb

def multiEntry (e : Str × Finset Issue) : Run Str := do
  let comments ← r.multiComments REPAIR_ORTH e.1 e.2
  return lit "\n--------------------\n" ++ pre ++ e.1 ++ comments

/-- A word in the list of its issue. -/
def newEntry (issue : Issue) (w : Str) : Run Str :=
  match issue with
  | .ABV => return xpre ++ w
  | .ENC => return (if w ∈ r.ENC_DOUBT then xpre else pre) ++ w
  | .PRF => return pre ++ w
  | .HID => do
      let repl ← listed r.HID_REPL w
      return (if w ∈ r.HID_DOUBT then xdoubtpre else pre) ++ arrow w repl ++ note r.HID_NOTES w (lit "\n\t\t")
  | .ORTH => do
      let repl ← listed r.ORTH_REPL w
      return pre ++ arrow w repl ++ note r.ORTH_NOTES w (lit "\n\t\t")
  | .AMB => do
      let parstr ← r.parstr w
      return pre ++ parstr

def newSection (issue : Issue) : Run Str := do
  let heading := lit "\n" ++ DIVIDER ++ lit "\n" ++ unlines [SECTIONS (issue.title ++ lit " (new)")]
  if issue = .ORTH ∧ REPAIR_ORTH = false then return heading ++ orthdisabled
  else
    let entries ← (r.new issue).mapM (r.newEntry issue)
    return heading ++ unlines (newIntro LONG_PERF_SUBJ issue) ++ entries.flatten

/-- What the loops over the lists of the history put in the file. Their variable is the key of an array, which is a
number, and the one for the abbreviations joins a global that is not set. -/
def autoEntry (issue : Issue) (e : Str × Nat) : Run Str :=
  match issue with
  | .ABV => throw .raised
  | .ENC => return lit "\t(auto)\t" ++ decimal e.2 ++ lit "\n"
  | _ => return lit "\t(auto)\t" ++ arrow (decimal e.2) e.1 ++ lit "\n"

def autoIntro : Issue → Str
  | .ABV => lit "// Input: \"x\" to cancel and remove from \"repair-abbrev.txt\"."
  | .ENC => lit "// Input: \"x\" to cancel and remove from \"repair-enclitic.txt\"."
  | _ => lit "// Input: \"x\" to cancel and remove from \"repair-replace.txt\"."

def autoSection (issue : Issue) : Run Str := do
  let heading := lit "\n" ++ DIVIDER ++ lit "\n" ++ unlines [SECTIONS (issue.title ++ lit " (auto replace)")]
  if issue = .ORTH ∧ REPAIR_ORTH = false then return heading ++ orthdisabled
  else
    let entries ← ((r.auto issue).zipIdx 1).mapM (autoEntry issue)
    return heading ++ unlines [autoIntro issue] ++ entries.flatten

def okSection (issue : Issue) : Str :=
  let heading := lit "\n" ++ DIVIDER ++ lit "\n" ++ unlines [SECTIONS (issue.title ++ lit " (OK)")]
  if issue = .ORTH ∧ REPAIR_ORTH = false then heading ++ orthdisabled
  else
    heading ++ unlines [lit "// Input: \"x\" to cancel and remove from \"repair-ok.txt\"."] ++
      ((r.ok issue).zipIdx 1).flatMap fun e => lit "\t(OK)\t" ++ decimal e.2 ++ lit "\n"

/-- `writerepairsfile`: the contents of `_repairs.txt`. -/
def writerepairsfile (date : Str) : Run Str := do
  let multi ← (sortedpairs r.MULTI).mapM (r.multiEntry REPAIR_ORTH)
  let new ← issues.mapM (r.newSection REPAIR_ORTH LONG_PERF_SUBJ)
  let auto ← issues.mapM (r.autoSection REPAIR_ORTH)
  let ok := issues.map (r.okSection REPAIR_ORTH)
  return bom ++ unlines (repairsIntro date ++ customIntro) ++ lit "\n" ++ DIVIDER ++ lit "\n" ++ unlines multiIntro ++
    multiNote ++ multi.flatten ++ new.flatten ++ auto.flatten ++ ok.flatten

end Results

/-! `loadrepairsfile`. -/

/-- The tables that Repair Key changes while it reads the file. -/
structure Repairs where
  session : Session
  fixes : Fixes
  abvtbl : Table Unit
  enctbl : Table Unit
  autotbl : Table Str
  addtbl : List Str

namespace Repairs

/-- `macra.split`, from a position on: the parts between the matches of a pattern. -/
def splitFrom (a b : Str) : Nat → Int → Run (List Str)
  | 0, _ => throw .running
  | fuel + 1, start => do
      match ← find a b start with
      | none => return [subFrom a start]
      | some (i, j) =>
          let later ← splitFrom a b fuel (j + 1)
          return Lua.sub a start (i - 1) :: later

def split (a b : Str) : Run (List Str) := splitFrom a b (a.length + 2) 1

def firstMatch (s pattern : Str) : Run (Option Str) := do return (← lmatch s pattern).bind List.head?

def contains (s pattern : Str) : Run Bool := do return (← find s pattern 1).isSome

/-- A pattern with a word as its capture. -/
def wordIn (before after : String) : Str := lit before ++ lit "(" ++ LETTERS ++ lit ")" ++ lit after

/-- A word that something is done with; nil raises. -/
def needed (w : Option Str) : Run Str :=
  match w with
  | some w => pure w
  | none => throw .raised

def setrepl (s : Repairs) (origw replw : Str) : Repairs :=
  { s with fixes := { s.fixes with repltbl := s.fixes.repltbl.insert origw replw } }

def setok (s : Repairs) (w : Str) : Repairs :=
  { s with fixes := { s.fixes with oktbl := s.fixes.oktbl.insert (.str w) () } }

def clearok (s : Repairs) (w : Str) : Repairs :=
  { s with fixes := { s.fixes with oktbl := s.fixes.oktbl.erase (.str w) } }

def manadd (s : Repairs) (entry : Str) : Run Repairs := do
  match ← firstMatch entry (lit "%+[ ]*([^%?%s%p%d]+)") with
  | some addw => return { s with addtbl := s.addtbl ++ [addw] }
  | none => return s

def fixabv (w : Str) : Str := Lua.sub w 1 (w.length - 1)

def fixenc (t : Tables) (w : Str) : Run Str := do
  let wlen ← Utf8.len w
  (pairs t.hash t.enclitictbl).foldlM (fun replw enc => do
    if ← endsIn w wlen enc.1.length enc.1 then Utf8.sub w 1 (wlen - enc.1.length) else return replw) w

/-- A line of the section of custom replacements. -/
def readcustom (s : Repairs) (line : Str) : Run Repairs := do
  match ← lmatch line (wordIn "" "[ ]*>[ ]*(.+)") with
  | some [origw, replw] => return s.setrepl origw replw
  | _ =>
      if (← contains line (lit "<")) || (← contains line (lit "=")) then return s
      match ← firstMatch line (wordIn "" "") with
      | some addw => return { s with addtbl := s.addtbl ++ [addw] }
      | none => return s

/-- The replacement that the choices in front of a word with several issues ask for. -/
def multirepl (t : Tables) (LONG_PERF_SUBJ : Bool) (entry choices : Str) (multiw : Option Str) : Run (Option Str) := do
  let replw ← if (← contains entry (lit "%(hidden%?")) && (← contains choices (lit "\\h")) then
      firstMatch entry (lit "%(hidden%?%)[ ]*" ++ LETTERS ++ wordIn "[ ]*%->[ ]*" "")
    else pure none
  let replw ← if (← contains entry (lit "%(orthography%?%)")) && (← contains choices (lit "\\o")) then
      firstMatch entry (lit "%(orthography%?%)[ ]*" ++ LETTERS ++ wordIn "[ ]*%->[ ]*" "")
    else pure replw
  -- `fixambig` is the name of no function
  if (← contains entry (lit "%(ambiguous%)")) && (← contains choices (lit "\\m")) then throw .raised
  let replw ← if (← contains entry (lit "%(abbreviation%?%)")) && !(← contains choices (lit "\\a")) then
      (fun w => some (fixabv w)) <$> needed (replw <|> multiw)
    else pure replw
  let replw ← if (← contains entry (lit "%(enclitic%?%)")) && (← contains choices (lit "\\e")) then
      needed (replw <|> multiw) >>= fun w => some <$> fixenc t w
    else pure replw
  let replw ← if (← contains entry (lit "%(perfect[ ]*subjunctive%?%)")) && (← contains choices (lit "\\p")) then
      needed (replw <|> multiw) >>= fun w => some <$> fixprf LONG_PERF_SUBJ w
    else pure replw
  let manual ← firstMatch entry (wordIn "=[ ]*" "")
  return manual <|> replw

/-- An entry of the section of words with several issues. -/
def readmulti (t : Tables) (fuel : Nat) (LONG_PERF_SUBJ : Bool) (s : Repairs) (entry : Str) : Run Repairs := do
  let choices ← firstMatch entry (lit "([^%?]+)%?")
  let multiw ← firstMatch entry (wordIn "%?[ ]*" "")
  if entry = [] ∨ entry.take 2 = lit "//" then return s
  match choices with
  | some choices =>
      match ← multirepl t LONG_PERF_SUBJ entry choices multiw with
      | some replw =>
          let session ← replaceword t fuel s.session (← needed multiw) replw
          manadd { s with session } entry
      | none => manadd s entry
  | none => return s.setok (← needed multiw)

/-- A line of a list of new words. The word is repaired, with the replacement that is entered or with the one that the
list is about, unless an x cancels the latter. -/
def readentry (comment pattern : Str) (fixed : List Str → Run Str) (repair : Repairs → Str → Str → Run Repairs)
    (s : Repairs) (line : Str) : Run Repairs := do
  if comment.take 2 = lit "//" then return s
  match ← lmatch line pattern with
  | some (origw :: others) =>
      let manual ← firstMatch line (lit "=[ ]*([^%s%d%?]+)")
      let replw ← (if manual = none ∧ line.take 1 ≠ lit "x" then some <$> fixed (origw :: others) else pure manual)
      match replw with
      | some replw => manadd (← repair s origw replw) line
      | none => manadd (s.setok origw) line
  | _ => return s

/-- `replaceword` in the key alone. -/
def repairInKey (s : Repairs) (origw replw : Str) : Run Repairs := do
  let key ← replacewordInKey s.session.key origw replw
  return { s with session := { s.session with key } }

def readabv (s : Repairs) (line : Str) : Run Repairs :=
  readentry line (lit "%?[ ]*([^%s%d]+)") (fun ws => return fixabv (ws.headD []))
    (fun s origw replw => repairInKey { s with abvtbl := s.abvtbl.insert origw () } origw replw) s line

def readenc (t : Tables) (s : Repairs) (line : Str) : Run Repairs :=
  readentry line (wordIn "%?[ ]*" "") (fun ws => fixenc t (ws.headD []))
    (fun s origw replw => repairInKey { s with enctbl := s.enctbl.insert origw () } origw replw) s line

def readprf (LONG_PERF_SUBJ : Bool) (s : Repairs) (line : Str) : Run Repairs :=
  readentry line (wordIn "%?[ ]*" "") (fun ws => fixprf LONG_PERF_SUBJ (ws.headD []))
    (fun s origw replw => return s.setrepl origw replw) s line

def readhid (s : Repairs) (line : Str) : Run Repairs :=
  readentry (line.filter (· ≠ 9)) (wordIn "%?[ ]*" "[ ]*%->[ ]*" ++ wordIn "" "") (fun ws => needed ws[1]?)
    (fun s origw replw => return s.setrepl origw replw) s line

def readorth (s : Repairs) (line : Str) : Run Repairs :=
  readentry line (wordIn "%?[ ]*" "[ ]*%->[ ]*" ++ wordIn "" "") (fun ws => needed ws[1]?)
    (fun s origw replw => return s.setrepl origw replw) s line

def readambline (s : Repairs) (line : Str) : Run Repairs := do
  let fixes ← readamb line s.fixes
  manadd { s with fixes } line

/-- The word of a line about an abbreviation or an enclitic that is repaired again. What `fixabv` or `fixenc` makes of
it is not used. -/
def readauto (fixed : Str → Run Str) (s : Repairs) (line : Str) : Run Repairs := do
  if line = [] then return s
  let manreplw ← firstMatch line (wordIn "=[ ]*" "")
  let w ← firstMatch line (lit "%)\t([^%s%d]+)")
  let s ← (match manreplw with
    | some manreplw => (s.setrepl · manreplw) <$> needed w
    | none => pure s)
  let s ← (if line.take 1 = lit "x" ∨ manreplw ≠ none then s.clearok <$> needed w
    else (fun _ => s) <$> (needed w >>= fixed))
  let s ← manadd s line
  manadd s line

/-- A line about a replacement that is made again. -/
def readautorepl (s : Repairs) (line : Str) : Run Repairs := do
  if line = [] then return s
  let manreplw ← firstMatch line (wordIn "=[ ]*" "")
  match ← lmatch line (wordIn "%)\t" "[ ]*%->[ ]*" ++ wordIn "" "") with
  | some [origw, replw] =>
      match manreplw with
      | some manreplw => manadd (s.setrepl origw manreplw) line
      | none =>
          if line.take 1 ≠ lit "x" then manadd (s.setrepl origw replw) line
          else manadd (setok { s with autotbl := assign s.autotbl origw none } origw) line
  | _ => manadd s line

/-- A line about a word that is left alone. -/
def readok (s : Repairs) (line : Str) : Run Repairs := do
  let okw ← firstMatch line (wordIn "%)\t" "")
  -- the replacement that is entered is looked for in a variable that nothing sets
  if line.take 1 = lit "x" then manadd (s.clearok (← needed okw)) line
  else manadd s line

/-- The sections of the file, each cleaned up, and without comments but for the second. -/
def sections (cleanstr : Str) : Run (List Str) := do
  let parts ← split cleanstr DIVIDER
  (parts.zipIdx 1).mapM fun part =>
    let str := cleanup part.1 false false
    if part.2 ≠ 2 then decomment str else pure str

def readLines (sectionstbl : List Str) (i : Nat) (read : Repairs → Str → Run Repairs) (s : Repairs) : Run Repairs := do
  let str ← needed sectionstbl[i - 1]?
  (str.splitOn 10).foldlM read s

/-- The sections of one issue for the words of the history. -/
def readhistory (t : Tables) (sectionstbl : List Str) (s : Repairs) (issue : Issue) : Run Repairs := do
  let s ← readLines sectionstbl (6 + issue.number) (match issue with
    | .ABV => readauto fun w => return fixabv w
    | .ENC => readauto (fixenc t)
    | _ => readautorepl) s
  readLines sectionstbl (12 + issue.number) readok s

/-- `loadrepairsfile`. -/
def loadrepairsfile (t : Tables) (fuel : Nat) (LONG_PERF_SUBJ : Bool) (file : Str) (s : Repairs) : Run Repairs := do
  let cleanstr ← hyphens2macs (readutf8 file)
  let sectionstbl ← sections cleanstr
  let s ← readLines sectionstbl 1 readcustom s
  let entries ← split (← needed sectionstbl[1]?) (lit "%-%-%-%-%-%-%-%-%-%-%-%-%-%-%-%-%-%-%-%-")
  let s ← entries.foldlM (readmulti t fuel LONG_PERF_SUBJ) s
  let s ← readLines sectionstbl 3 readabv s
  let s ← readLines sectionstbl 4 (readenc t) s
  let s ← readLines sectionstbl 5 (readprf LONG_PERF_SUBJ) s
  let s ← readLines sectionstbl 6 readhid s
  let s ← readLines sectionstbl 7 readorth s
  let s ← readLines sectionstbl 8 readambline s
  issues.foldlM (readhistory t sectionstbl) s

end Repairs

end Maccer
