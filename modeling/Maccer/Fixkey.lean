import Maccer.Exmac

/-! `fixkey.lua`: replacing words in the key and in the source texts. -/

namespace Maccer

open Lua

def PUNCT : Str :=
  lit "[\t\n%s%d%!%\"%#%$%%%&%'%(%)%*%+%,%@%-%/%:%;%<%=%>%?%[%\\%]%^%_%`%\x7b%|%\x7d%~]"

def findAll (text pattern : Str) : Nat → Int → Run (List (Int × Int))
  | 0, _ => throw .running
  | fuel + 1, init => do
      match ← find text pattern init with
      | none => return []
      | some (cstart, cend) =>
          let later ← findAll text pattern fuel (cend + 1)
          return (cstart, cend) :: later

/-- `macra.getcommentset`, as the ranges of the positions it sets. -/
def getcommentset (text : Str) : Run (List (Int × Int)) := do
  let single ← findAll text (lit "//([^\n]+)") (text.length + 1) 1
  let multi ← findAll text (lit "/%*(.*)%*/") (text.length + 1) 1
  return single ++ multi

/-- `macra.utf8upper`. -/
def utf8upper (u : Unicode) (str : Str) : Run Str := do
  let strlen ← Utf8.len str
  (List.range' 1 strlen).foldlM (fun capstr pos => do
    let poschar ← Utf8.sub str pos pos
    return capstr ++
      if poschar.length = 1 then upper poschar else (field u.capstbl poschar).getD poschar) []

/-- The loop of `replacesingle` for one pattern, from a match on. -/
def replaceFrom (findstr replstr : Str) (comments : List (Int × Int)) :
    Nat → Str → Option (Int × Int) → Run Str
  | 0, _, _ => throw .running
  | _ + 1, strfinal, none => return strfinal
  | fuel + 1, strfinal, some (wstart, wend) => do
      if comments.any (fun c => c.1 ≤ wstart && wstart ≤ c.2) then return strfinal
      let replaced ← gsub (Lua.sub strfinal wstart wend) findstr replstr 1
      let strfinal := Lua.sub strfinal 1 (wstart - 1) ++ replaced ++ subFrom strfinal (wend + 1)
      let next ← find strfinal findstr wend
      replaceFrom findstr replstr comments fuel strfinal next

/-- `replacesingle`. -/
def replacesingle (fuel : Nat) (str orig repl : Str) (comments : List (Int × Int)) : Run Str :=
  let findtbl := [lit "(%s)" ++ orig ++ lit "(%s)", lit "(%p)" ++ orig ++ lit "(%s)",
    lit "(%s)" ++ orig ++ lit "(" ++ PUNCT ++ lit ")",
    lit "(%p)" ++ orig ++ lit "(" ++ PUNCT ++ lit ")"]
  findtbl.foldlM (fun strfinal findstr => do
    let found ← find strfinal findstr 1
    replaceFrom findstr (lit "%1" ++ repl ++ lit "%2") comments fuel strfinal found) str

/-- `replaceintext`. -/
def replaceintext (u : Unicode) (fuel : Nat) (text orig repl : Str) : Run Str := do
  let origcap ← utf8capitalize orig
  let replcap ← utf8capitalize repl
  let origallcaps ← utf8upper u orig
  let replallcaps ← utf8upper u repl
  let comments ← getcommentset text
  let text ← replacesingle fuel text orig repl comments
  let text ← replacesingle fuel text origcap replcap comments
  replacesingle fuel text origallcaps replallcaps comments

/-- The part of `replaceword` that changes one source text. -/
def replaceInSource (t : Tables) (fuel : Nat) (orig repl : Str) (textstbl : Table Str)
    (header : Str) : Run (Table Str) := do
  match field textstbl header with
  | none => throw .raised
  | some text => do
      let text ← replaceintext t.unicode fuel text orig repl
      let text ← ((pairs t.hash t.enclitictbl).map (·.1)).foldlM (fun text enc =>
        replaceintext t.unicode fuel text (orig ++ enc) (repl ++ enc)) text
      return textstbl.insert header text

/-- The part of `replaceword` that looks for the replacement in the key and adds
it where it is missing. -/
def addReplacement (keytbl : Table Str) (repl replplainw : Str) : Table Str :=
  if field keytbl replplainw = none then
    match getpars keytbl replplainw false with
    | none => keytbl.insert replplainw repl
    | some (_, replparcount, _) => keytbl.insert (replplainw ++ decimal replparcount) repl
  else
    match getpars keytbl replplainw false with
    | none => keytbl
    | some (replpartbl, replparcount, _) =>
        if field replpartbl repl = none then
          keytbl.insert (replplainw ++ decimal replparcount) repl
        else keytbl

/-- The part of `replaceword` that moves headers and frequency. The counts for
debugging are left out, but not the errors that they raise. -/
def moveCounts (key : Key) (orig repl : Str) : Run Key := do
  match field key.headerstbl orig with
  | none => throw .raised
  | some origheaders => do
      let merged := merge ((field key.headerstbl repl).getD ∅) origheaders
      let headerstbl := assign (key.headerstbl.insert repl merged) orig none
      if field headerstbl repl = none then throw .raised
      match field key.freqtbl orig with
      | none => throw .raised
      | some fo =>
          let fr := (field key.freqtbl repl).getD 0
          let freqtbl := assign (key.freqtbl.insert repl (fr + fo)) orig none
          return { key with freqtbl, headerstbl }

structure Session where
  key : Key
  textstbl : Table Str

/-- `replaceword`, changing the sources too. A word that is not in the key is
reported and left alone. -/
def replaceword (t : Tables) (fuel : Nat) (s : Session) (orig repl : Str) : Run Session := do
  let origplainw ← plain orig
  let replplainw ← plain repl
  match getpars s.key.keytbl origplainw false with
  | none => return s
  | some (origpartbl, origparcount, _) =>
      if field origpartbl orig = none then return s
      else do
        let headers := ((field s.key.headerstbl orig).map fun hs => (pairs t.hash hs).map (·.1)).getD []
        let textstbl ← headers.foldlM (replaceInSource t fuel orig repl) s.textstbl
        let keytbl := addReplacement s.key.keytbl repl replplainw
        let keytbl := keyremoveAt keytbl orig origplainw origpartbl origparcount
        let key ← moveCounts { s.key with keytbl } orig repl
        return ⟨key, textstbl⟩

def mergeEntry (repltbl : Table Str) (origw : Str) : Table Str :=
  match field repltbl origw with
  | none => repltbl
  | some replw =>
      match field repltbl replw with
      | none => repltbl
      | some last => assign (repltbl.insert origw last) replw none

def mergeChains (repltbl : Table Str) (order : List Str) : Table Str :=
  order.foldl mergeEntry repltbl

def replaceAll (t : Tables) (fuel : Nat) (repltbl : Table Str) (s : Session) : Run Session :=
  let merged := mergeChains repltbl (t.hash.order repltbl.keys)
  (pairs t.hash merged).foldlM (fun s e => replaceword t fuel s e.1 e.2) s

end Maccer
