import Maccer.Substitute

/-! `exmac.lua`: learning the words of source texts. -/

namespace Maccer

open Lua

/-- `macra.decomment`. -/
def decomment (text : Str) : Run Str := do
  let text ← gsubAll text (lit "/%*.+%*/") []
  gsubAll text (lit "//[^\n]*") []

/-- `utf8.replace(w, macra.capsinvtbl)`. -/
def lower (u : Unicode) (w : Str) : Run Str := Utf8.replace w (field u.capsinvtbl)

/-- `macra.utf8capitalize`. The protected call is given the character itself,
which is no function, so that only the first byte is ever capitalized. -/
def utf8capitalize (str : Str) : Run Str := do
  let _ ← Utf8.sub str 1 1
  return upper (str.take 1) ++ str.drop 1

/-- What `formatsource` returns. -/
structure Formatted where
  text : Str
  substbl : Table Str
  invalidtbl : List Str
  abbrevtbl : Table Unit

namespace Tables

variable (t : Tables)

def splice (text : Str) (wstart wend : Int) (w : Str) : Str :=
  Lua.sub text 1 (wstart - 1) ++ w ++ subFrom text (wend + 1)

/-- One pass of the loop of `formatsource` over the words, with the position
where the next one is looked for. -/
def formatWord (fuel : Nat) (repairOrth : Bool) (f : Formatted) (wstart wend : Int) :
    Run (Formatted × Int) := do
  let trimmed ← t.ignorechars (Lua.sub f.text wstart wend) wstart wend true
  match trimmed.w, trimmed.middlefound with
  | some w, false => do
      let w ← lower t.unicode w
      let moved := trimmed.wstart ≠ wstart ∨ trimmed.wend ≠ wend
      let text :=
        if moved then splice f.text wstart wend (Lua.sub f.text trimmed.wstart trimmed.wend)
        else f.text
      let wend := if moved then trimmed.wend - (trimmed.wstart - wstart) else wend
      let suresubw ← if repairOrth then pure w else (·.1) <$> t.subword fuel w false false none
      let text := splice text wstart wend suresubw
      let wend := if suresubw = w then wend else wend + (suresubw.length - w.length)
      let substbl := if suresubw = w then f.substbl else f.substbl.insert w suresubw
      let abbrevtbl ← if trimmed.isabbrev then
          (f.abbrevtbl.insert · ()) <$> utf8capitalize suresubw
        else pure f.abbrevtbl
      return (⟨text, substbl, f.invalidtbl, abbrevtbl⟩, wend + 1)
  | w, middlefound =>
      let invalidtbl := if middlefound then f.invalidtbl ++ w.toList else f.invalidtbl
      return ({ f with text := splice f.text wstart wend [], invalidtbl }, wstart - 1 + 1)

def formatLoop (fuel : Nat) (repairOrth : Bool) : Nat → Formatted → Int → Run Formatted
  | 0, _, _ => throw .running
  | rounds + 1, f, init =>
      match findRun isLetter f.text init with
      | none => return f
      | some (wstart, wend) => do
          let (f, init) ← t.formatWord fuel repairOrth f wstart wend
          formatLoop fuel repairOrth rounds f init

/-- `formatsource`. -/
def formatsource (fuel : Nat) (repairOrth : Bool) (text : Str) : Run Formatted := do
  let text ← decomment text
  t.formatLoop fuel repairOrth fuel ⟨text, ∅, [], ∅⟩ 1

end Tables

/-- The tables that `exmacronize` returns for the log. -/
structure Learned where
  newtbl : Table Str
  newcount : Nat
  ambigtbl : Option (Table Str)
  ambigcount : Nat

def parstr (hash : HashOrder) (partbl : Table Str) : Str :=
  subFrom ((pairs hash partbl).flatMap fun par => lit ", " ++ par.1) 3

/-- One word of `exmacronize`. -/
def exmacronizeWord (hash : HashOrder) (header : Str) (state : Key × Learned) (w : Str) :
    Run (Key × Learned) := do
  let (key, learned) := state
  let plainw ← plain w
  match getpars key.keytbl plainw false with
  | none =>
      return ({ key with
        keytbl := key.keytbl.insert plainw w
        freqtbl := key.freqtbl.insert w 1
        headerstbl := key.headerstbl.insert w (AList.insert header () ∅) },
        { learned with
          newtbl := learned.newtbl.insert plainw w
          newcount := learned.newcount + 1 })
  | some (partbl, _, nextplainwkey) =>
      if field partbl w = none then
        return ({ key with
          keytbl := key.keytbl.insert nextplainwkey w
          freqtbl := key.freqtbl.insert w 1
          headerstbl := key.headerstbl.insert w (AList.insert header () ∅) },
          { newtbl := learned.newtbl.insert nextplainwkey w
            newcount := learned.newcount + 1
            ambigtbl := some (AList.insert w (parstr hash partbl) ∅)
            ambigcount := learned.ambigcount + 1 })
      else
        match field key.freqtbl w, field key.headerstbl w with
        | some freq, some headers =>
            return ({ key with
              freqtbl := key.freqtbl.insert w (freq + 1)
              headerstbl := key.headerstbl.insert w (headers.insert header ()) }, learned)
        | _, _ => throw .raised

/-- `exmacronize`. -/
def exmacronize (hash : HashOrder) (key : Key) (text header : Str) : Run (Key × Learned) :=
  (words text).foldlM (exmacronizeWord hash header) (key, ⟨∅, 0, none, 0⟩)

def sourceLoop (t : Tables) (fuel : Nat) (repairOrth : Bool) (existingheaders : List Str) :
    List (Str × Str) → Key → Run Key
  | [], key => return key
  | (header, text) :: sources, key => do
      let formatted ← t.formatsource fuel repairOrth text
      let (key, learned) ← exmacronize t.hash key formatted.text header
      let key := if learned.newcount > 0 ∧ header ∉ existingheaders then
          { key with headersbynumtbl := key.headersbynumtbl ++ [header] }
        else key
      sourceLoop t fuel repairOrth existingheaders sources key

/-- The source loop of Exmacronize, from the key and the new sources loaded. -/
def learnSources (t : Tables) (fuel : Nat) (repairOrth : Bool) (newsourcestbl : Table Str)
    (key : Key) : Run Key :=
  sourceLoop t fuel repairOrth key.headersbynumtbl (sortedpairs newsourcestbl) key

end Maccer
