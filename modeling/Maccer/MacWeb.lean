import Maccer.Mac

/-! `mac-web.lua`: the functions of which it has its own versions. Its globals `dotstart`,
`USER_ABBREV` and `overwrite` are never set. -/

namespace Maccer

open Lua

def USER_IGNORE : Str := lit "≠"

def WEB_LETTERS : Str :=
  lit "[^\t\n%s%d%!%\"%#%$%%%&%'%(%)%*%+%,%-%/%:%;%<%=%>%?%@%[%\\%]%^%_%`%\x7b%|%\x7d%~]+"

def isWebLetter (b : UInt8) : Bool := isLetter b && b != 64

theorem webLetters_single (b : UInt8) : singleMatch b WEB_LETTERS [43] = isWebLetter b := by
  have shape : WEB_LETTERS = 91 :: (94 :: 9 :: 10 :: 37 :: 115 :: 37 :: 100 ::
      escaped (lit "!\"#$%&'()*+,-/:;<=>?@[\\]^_`\x7b|\x7d~") ++ [93, 43]) := by
    rw [WEB_LETTERS, lit_chars, lit_chars]
    decide
  have marks : (lit "!\"#$%&'()*+,-/:;<=>?@[\\]^_`\x7b|\x7d~").Perm (64 :: outerMarks) := by
    rw [outerMarks, lit_chars, lit_chars]
    decide
  rw [shape, single_set, matchSet, List.head?_cons, if_pos rfl, List.tail_cons, inSet_marks marks, isWebLetter, Bool.not_or,
    Bool.not_not, Bool.and_comm]
  rfl

theorem find_webLetters (s : Str) (init : Int) :
    find s WEB_LETTERS init = .ok (findRun isWebLetter s init) :=
  find_run WEB_LETTERS WEB_LETTERS.tail isWebLetter s init (by decide) (by decide) (by decide)
    webLetters_single

structure WebEnds where
  w : Option Str
  wstart : Int
  wend : Int
  posright : Int
  userignore : Bool
  deriving DecidableEq, Repr

/-- What the web version of `ignorechars` returns. -/
structure WebTrimmed where
  w : Option Str
  wstart : Int
  wend : Int
  userignore : Bool
  middlefound : Bool
  isabbrev : Bool
  deriving DecidableEq, Repr

namespace Tables

variable (t : Tables)

def webTrimLeft (w leftchar : Str) (e : WebEnds) : Run (Str × WebEnds) := do
  if t.ignores leftchar then
    let w ← Utf8.sub w 2 (-1)
    return (w, { e with
      wstart := e.wstart + leftchar.length
      posright := e.posright - 1
      userignore := e.userignore || leftchar == USER_IGNORE })
  else return (w, e)

def webTrimRight (w rightchar : Str) (e : WebEnds) : Run (Str × WebEnds) := do
  if t.ignores rightchar then
    let w ← Utf8.sub w 1 (e.posright - 1)
    return (w, { e with wend := e.wend - rightchar.length, posright := e.posright - 1 })
  else return (w, e)

def webTrimOnce (w : Str) (e : WebEnds) : Run (WebEnds × Bool) := do
  let leftchar ← Utf8.sub w 1 1
  let rightchar ← Utf8.sub w e.posright e.posright
  let (w, e) ← t.webTrimLeft w leftchar e
  let (w, e) ← t.webTrimRight w rightchar e
  return ({ e with w := if e.posright < 1 then none else some w },
    !t.ignores leftchar && !t.ignores rightchar)

def webTrimEnds : Nat → WebEnds → Run WebEnds
  | 0, _ => throw .running
  | fuel + 1, e =>
      match e.w with
      | none => return e
      | some w => do
          let (trimmed, good) ← t.webTrimOnce w e
          if good then return trimmed else webTrimEnds fuel trimmed

/-- `ignorechars`, which does not split words at periods in their middle. -/
def webIgnorechars (w : Str) (wstart wend : Int) (abbrevcheck : Bool) : Run WebTrimmed := do
  let (w, wstart, wend) := dropPeriods w wstart wend
  let (w, wend) ← t.dropLastPeriod w wend
  let posright ← Utf8.len w
  if w = [] then return ⟨some w, wstart, wend, false, false, false⟩
  let e ← t.webTrimEnds (posright + 2) ⟨some w, wstart, wend, posright, false⟩
  match e.w with
  | none => return ⟨none, e.wstart, e.wend, e.userignore, false, false⟩
  | some w =>
      let middlefound ←
        if e.userignore then pure false else findIgnored w ((pairs t.hash t.ignoretbl).map (·.1))
      if abbrevcheck then
        let (w, wend, isabbrev) ← t.checkAbbrev w e.wend false middlefound
        return ⟨some w, e.wstart, wend, e.userignore, middlefound, isabbrev⟩
      else return ⟨some w, e.wstart, e.wend, e.userignore, middlefound, false⟩

/-- The loop of `subword` over the matches of one entry, called with `true` as the previous
doubtful word and that word as its table of positions: no substitution is made, and the
length of `true` is asked for where that table is there. -/
def webApplyRule (rule : Rule) (includedoubtful : Bool) (prev : Option (Str × Positions)) (w : Str) :
    Nat → Int → Run Unit
  | 0, _ => throw .running
  | fuel + 1, findstart => do
      match ← find w rule.orig findstart with
      | none => return ()
      | some (replstart, replend) =>
          if issubvalid w rule.mod replstart replend false = some true then
            if (includedoubtful || !rule.doubtful) && prev.isSome then throw .raised
            webApplyRule rule includedoubtful prev w fuel (replend + 1)
          else return ()

/-- `subword`, as `macronize` calls it. -/
def webSubword (fuel : Nat) (w : Str) (includedoubtful : Bool) (prev : Option (Str × Positions)) :
    Run (Str × Positions) := do
  t.rules.forM fun rule => webApplyRule rule includedoubtful prev w fuel 1
  return (w, [])

/-- What `mac-web.lua` calls. -/
def web (fuel : Nat) : Copy where
  ignorechars w wstart wend := do
    let trimmed ← t.webIgnorechars w wstart wend false
    return (trimmed.w, trimmed.wstart, trimmed.wend, trimmed.userignore)
  subword w includedoubtful prev := t.webSubword fuel w includedoubtful prev
  getpars plainw := (getpars t.keytbl plainw false).map fun (partbl, parcount, _) => (partbl, parcount)
  getcommentset := getcommentset
  letters := WEB_LETTERS
  inside := isWebLetter
  finds := find_webLetters

end Tables

end Maccer
