import Mathlib.Data.List.DropRight
import Maccer.Exmac

/-! The word key as a file: `macra.savekey` and `macra.loadkey`. -/

namespace Maccer

open Lua

/-- `str:gsub(pair, new)` for a pair of plain bytes. -/
def replacePair (first second : UInt8) (new : Str) : Str → Str
  | a :: b :: rest =>
      if a = first ∧ b = second then new ++ replacePair first second new rest
      else a :: replacePair first second new (b :: rest)
  | rest => rest

/-- The loop of `macra.cutmultiple`, until a round has replaced nothing; a round
that replaces something shortens the string. -/
def cutRounds (char : UInt8) : Nat → Str → Str
  | 0, str => str
  | fuel + 1, str =>
      let cut := replacePair char char [char] str
      if cut = str then str else cutRounds char fuel cut

/-- `macra.cutmultiple`. -/
def cutmultiple (str : Str) (char : UInt8) : Str := cutRounds char str.length str

def trimNewlines (str : Str) : Str :=
  (str.dropWhile (· == 10)).rdropWhile (· == 10)

/-- `macra.cleanup`. -/
def cleanup (str : Str) (keeptabs keepspaces : Bool) : Str :=
  let str :=
    if keeptabs then
      cutmultiple (replacePair 9 10 [10] (replacePair 10 9 [10] str)) 9
    else str.map fun b => if b = 9 then 32 else b
  let str := if keepspaces then cutmultiple str 32 else str.filter (· ≠ 32)
  trimNewlines (cutmultiple str 10)

def bom : Str := [239, 187, 191]

/-- `macra.readutf8` on the contents of an existing file. -/
def readutf8 (file : Str) : Str := if file.take 3 = bom then file.drop 3 else file

def DIVIDER : Str := lit "_____"

/-- `macra.letterkey` of a positive number. -/
def letterkey (num : Nat) : Str :=
  let quotient := if num % 26 = 0 then num / 26 - 1 else num / 26
  let factorial := if num % 26 = 0 then 26 else num % 26
  let key : Str := if quotient % 2 = 0 then [(64 + factorial).toUInt8] else [(96 + factorial).toUInt8]
  if quotient ≥ 2 then key ++ decimal (quotient / 2) else key

/-- `glue.index` of an array, from the number `num` on. -/
def indexFrom : List Str → Nat → Table Nat → Table Nat
  | [], _, t => t
  | v :: vs, num, t => indexFrom vs (num + 1) (t.insert v num)

def addLetter (numsbyheadertbl : Table Nat) (headersbylettertbl : Table Str) (header : Str × Unit) :
    Run (Table Str) :=
  match field numsbyheadertbl header.1 with
  | some num => return headersbylettertbl.insert (letterkey num) header.1
  | none => throw .raised

def lettersOf (hash : HashOrder) (headersbynumtbl : List Str) (headers : Table Unit) : Run Str := do
  let headersbylettertbl ←
    (pairs hash headers).foldlM (addLetter (indexFrom headersbynumtbl 1 ∅)) ∅
  return subFrom ((sortedpairs headersbylettertbl).flatMap fun letter => lit "," ++ letter.1) 2

def wordline (hash : HashOrder) (key : Key) (macronw : Str) : Run Str :=
  match field key.freqtbl macronw with
  | none => return macronw
  | some freq =>
      if freq > 0 then
        match field key.headerstbl macronw with
        | none => throw .raised
        | some headers => do
            let lettersstr ← lettersOf hash key.headersbynumtbl headers
            return macronw ++ lit "\t" ++ decimal freq ++ lit "\t" ++ lettersstr
      else return macronw

def sourcelines : List Str → Nat → List Str
  | [], _ => []
  | header :: headers, num => (letterkey num ++ lit " = " ++ header) :: sourcelines headers (num + 1)

def unlines (lines : List Str) : Str := lines.flatMap fun line => line ++ [10]

def wordkeyIntro : List Str := [
  lit "// WORD KEY", [],
  lit "// To manually add words, simply add them to the end of this file, one word per line.",
  lit "// To manually correct a word, change it in this file ONLY if it is a manually added " ++
    lit "word. If it is taken from a source text (i.e. if it has a header and frequency), " ++
    lit "enter it into \"_repairs.txt\" in the \"Custom\" section (according to that section's " ++
    lit "instructions) after running Analyze Key, then run Repair Key. This will correct the " ++
    lit "word in the key as well as in the source text(s) in which it occurs.",
  [], lit "// SOURCES", lit "// [ID] = [source header]", lit "// Do not change this section!", []]

def wordsIntro : List Str := [
  lit "// WORDS", lit "// [word]\t[frequency]\t[IDs of sources in which it occurs]", []]

/-- `macra.savekey`: the contents of `key.txt` and the number of forms. -/
def savekey (hash : HashOrder) (key : Key) : Run (Str × Nat) := do
  let words := (sortedpairs key.keytbl).map (·.2)
  let lines ← words.mapM (wordline hash key)
  return (bom ++ unlines (wordkeyIntro ++ sourcelines key.headersbynumtbl 1 ++ [[], DIVIDER, []] ++
    wordsIntro ++ lines), words.length)

def loadSource (sources : List Str × Table Nat) (sourceline : Str) : Run (List Str × Table Nat) := do
  match ← lmatch sourceline (lit "([^=]+) = (.+)") with
  | some [letter, header] => return (sources.1 ++ [header], sources.2.insert letter (sources.1.length + 1))
  | _ => throw .raised

/-- The source lines that `macra.loadkey` reads. -/
def loadSources (sourcesstr : Str) : Run (List Str × Table Nat) :=
  ((cleanup sourcesstr true true).splitOn 10).foldlM loadSource ([], ∅)

def addHeader (headersbynumtbl : List Str) (numstbl : Table Nat) (headers : Table Unit)
    (letter : Str) : Run (Table Unit) :=
  match (field numstbl letter).bind fun num => headersbynumtbl[num - 1]? with
  | some header => return headers.insert header ()
  | none => throw .raised

def loadHeaders (headersbynumtbl : List Str) (numstbl : Table Nat) (headersstr : Str) :
    Run (Table Unit) :=
  (headersstr.splitOn 44).foldlM (addHeader headersbynumtbl numstbl) ∅

def loadColumns (headersbynumtbl : List Str) (numstbl : Table Nat) (keyline : Str) :
    Run (Option Nat × Table Unit) :=
  if keyline.contains 9 then do
    match ← lmatch keyline (lit "\t([^\t]+)\t(.+)") with
    | some [freqstr, headersstr] => do
        let headers ← loadHeaders headersbynumtbl numstbl headersstr
        return (tonumber freqstr, headers)
    | _ => throw .raised
  else return (some 0, ∅)

def loadWord (headersbynumtbl : List Str) (numstbl : Table Nat) (key : Key) (keyline : Str) :
    Run Key := do
  match ← lmatch keyline (lit "[^\t]+") with
  | some [macronw] => do
      let (freq, headers) ← loadColumns headersbynumtbl numstbl keyline
      let plainw ← plain macronw
      return { key with
        keytbl := key.keytbl.insert (getnextkey key.keytbl plainw) macronw
        freqtbl := assign key.freqtbl macronw freq
        headerstbl := key.headerstbl.insert macronw headers }
  | _ => throw .raised

/-- `macra.loadkey`, from empty tables. Without a divider the whole file is words. -/
def loadkey (file : Str) : Run Key := do
  let keystrall ← decomment (readutf8 file)
  let sources ← lmatch keystrall (lit "(.+)" ++ DIVIDER)
  let words ← lmatch keystrall (DIVIDER ++ lit "(.+)")
  let sourcesstr := sources.bind List.head?
  let keystr := ((sourcesstr.bind fun _ => words).bind List.head?).getD keystrall
  if keystr = [] then return Key.empty
  let (headersbynumtbl, numstbl) ← match sourcesstr with
    | some sourcesstr => loadSources sourcesstr
    | none => pure ([], ∅)
  let key ← ((cleanup keystr true false).splitOn 10).foldlM (loadWord headersbynumtbl numstbl) Key.empty
  return { key with headersbynumtbl }

end Maccer
