import Maccer.Letters

/-! `macra.ignorechars`: a word of a text without the characters to ignore. -/

namespace Maccer

open Lua

/-- A substitution of `orthography.txt`, with its modifiers if it has any. -/
structure Rule where
  orig : Str
  repl : Str
  mod : Option Str

/-- The global tables that a text is macronized with. The tables of substitutions
are arrays of one length. -/
structure Tables where
  hash : HashOrder
  unicode : Unicode
  keytbl : Table Str
  freqtbl : Table Nat
  ignoretbl : Table Unit
  enclitictbl : Table Bool
  prefixtbl : List Str
  prefixmactbl : Table Str
  rules : List Rule

def Tables.empty : Tables := ⟨.stored, Maccer.unicode, ∅, ∅, ∅, ∅, [], ∅, []⟩

/-- What `ignorechars` returns; the word is nil when all of it is to be ignored. -/
structure Trimmed where
  w : Option Str
  wstart : Int
  wend : Int
  middlefound : Bool
  isabbrev : Bool
  deriving DecidableEq, Repr

namespace Tables

variable (t : Tables)

def ignores (char : Str) : Bool := (field t.ignoretbl char).isSome

def dropPeriods : Str → Int → Int → Str × Int × Int
  | 46 :: w, wstart, wend =>
      dropPeriods w (wstart + 1) (if wstart + 1 > wend then wstart + 1 else wend)
  | w, wstart, wend => (w, wstart, wend)

/-- `w:find("%.")`, counted from one. -/
def dotpos (w : Str) : Option Nat := (w.findIdx? (· == 46)).map (· + 1)

def cutAtPeriod (w : Str) (wstart wend : Int) : Str × Int :=
  match dotpos w with
  | some dot =>
      if dot ≠ 1 ∧ dot ≠ w.length then (Lua.sub w 1 dot, wstart + dot - 1) else (w, wend)
  | none => (w, wend)

def dropLastPeriod (w : Str) (wend : Int) : Run (Str × Int) := do
  if subFrom w w.length = lit "." then
    let utf8len ← Utf8.len w
    let before ← Utf8.sub w (utf8len - 1) (utf8len - 1)
    if t.ignores before then return (Lua.sub w 1 (w.length - 1), wend - 1)
  return (w, wend)

structure Ends where
  w : Option Str
  wstart : Int
  wend : Int
  posright : Int
  userabbrev : Bool
  deriving DecidableEq, Repr

def trimOnce (w : Str) (e : Ends) : Run (Ends × Bool) := do
  let leftchar ← Utf8.sub w 1 1
  let rightchar ← Utf8.sub w e.posright e.posright
  let goodend := !t.ignores rightchar
  let wcut ← if goodend then pure w else Utf8.sub w 1 (e.posright - 1)
  let wend := if goodend then e.wend else e.wend - rightchar.length
  let posright := if goodend then e.posright else e.posright - 1 - 1
  if posright < 1 then
    let wend := if wend < e.wstart then wend + rightchar.length else wend
    return ({ e with w := none, wend, posright }, true)
  else if t.ignores leftchar then
    let wcut ← Utf8.sub wcut 2 (-1)
    let userabbrev := e.userabbrev || leftchar == lit "@"
    return (⟨some wcut, e.wstart + leftchar.length, wend, posright - 1, userabbrev⟩, false)
  else return ({ e with w := some wcut, wend, posright }, goodend)

def trimEnds : Nat → Ends → Run Ends
  | 0, _ => throw .running
  | fuel + 1, e =>
      match e.w with
      | none => return e
      | some w => do
          let (trimmed, last) ← t.trimOnce w e
          if last then return trimmed else trimEnds fuel trimmed

def findIgnored (w : Str) : List Str → Run Bool
  | [] => return false
  | ig :: igs => do
      let found ← find w ig 1
      if found.isSome then return true else findIgnored w igs

def checkAbbrev (w : Str) (wend : Int) (userabbrev middlefound : Bool) : Run (Str × Int × Bool) := do
  let wlen := w.length
  if userabbrev then
    return (if subFrom w wlen ≠ lit "." then w ++ lit "." else w, wend, true)
  else if subFrom w wlen = lit "." then
    let firstchar ← Utf8.sub w 1 1
    if (field t.unicode.capsinvtbl firstchar).isSome && !middlefound then return (w, wend, true)
    else return (Lua.sub w 1 (wlen - 1), wend - 1, false)
  else return (w, wend, false)

/-- `macra.ignorechars`. -/
def ignorechars (w : Str) (wstart wend : Int) (abbrevcheck : Bool) : Run Trimmed := do
  let (w, wstart, wend) := dropPeriods w wstart wend
  let (w, wend) := cutAtPeriod w wstart wend
  let (w, wend) ← t.dropLastPeriod w wend
  let posright ← Utf8.len w
  if w = [] then return ⟨some w, wstart, wend, false, false⟩
  let e ← t.trimEnds (posright + 2) ⟨some w, wstart, wend, posright, false⟩
  match e.w with
  | none => return ⟨none, e.wstart, e.wend, false, false⟩
  | some w =>
      let middlefound ← findIgnored w ((pairs t.hash t.ignoretbl).map (·.1))
      if abbrevcheck then
        let (w, wend, isabbrev) ← t.checkAbbrev w e.wend e.userabbrev middlefound
        return ⟨some w, e.wstart, wend, middlefound, isabbrev⟩
      else return ⟨some w, e.wstart, e.wend, middlefound, false⟩

end Tables

end Maccer
