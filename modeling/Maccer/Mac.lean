import Mathlib.Data.Rat.Init
import Mathlib.Algebra.Order.Ring.Unbundled.Rat
import Maccer.Fixkey

/-! `mac.lua`: marking the vowels of a text. The web version is a copy of it that differs
in what it calls. -/

namespace Maccer

open Lua

def NOTFOUND : Str := lit "✖"
def AMBIG : Str := lit "✒"
def GUESS : Str := lit "✪"
def AFFIX : Str := lit "❡"
def INVALID : Str := lit "❋"

def GUESS_THRESHOLD : ℚ := 3 / 4

inductive Length where
  | short
  | long
  | either
  deriving DecidableEq, Repr

/-- The functions that the two copies of `macronize` have each their own version of: the
word of a token with its start and end and whether it is invalid, the substitutions in a
word, the parallels of a plain word, the comments of a text, and the bytes of words. -/
structure Copy where
  ignorechars : Str → Int → Int → Run (Option Str × Int × Int × Bool)
  subword : Str → Bool → Option (Str × Positions) → Run (Str × Positions)
  getpars : Str → Option (Table Str × Nat)
  getcommentset : Str → Run (List (Int × Int))
  letters : Str
  inside : UInt8 → Bool
  finds : ∀ s init, find s letters init = .ok (findRun inside s init)

/-- `macra.remflags`. -/
def remflags (text : Str) : Run Str :=
  Utf8.replace text fun c => if c ∈ [NOTFOUND, AMBIG, GUESS, AFFIX, INVALID] then some [] else none

/-- `macra.remmacs`. -/
def remmacs (u : Unicode) (text : Str) : Run Str := do
  let text ← remflags text
  Utf8.replace text (field u.unicodeinvtbl)

namespace Tables

variable (t : Tables)

/-! Parallels. -/

def parfreq (parw plainwkey : Str) : Nat :=
  ((field t.freqtbl parw).or ((field t.keytbl plainwkey).bind (field t.freqtbl))).getD 1

def guessStep (state : Option (Str × Nat) × Nat) (par : Str × Str) : Option (Str × Nat) × Nat :=
  let freq := t.parfreq par.1 par.2
  let top :=
    match state.1 with
    | none => (par.1, freq)
    | some top => if freq > top.2 then (par.1, freq) else top
  (some top, state.2 + freq)

def guessw (partbl : Table Str) : Option Str :=
  match (pairs t.hash partbl).foldl t.guessStep (none, 0) with
  | (some (topparw, topfreq), totalfreq) =>
      if totalfreq > 0 ∧ (topfreq : ℚ) / totalfreq ≥ GUESS_THRESHOLD then some topparw else none
  | (none, _) => none

def lengthStep (pos : Nat) (state : Length × Option Length) (parw : Str) :
    Run (Length × Option Length) :=
  if state.1 = .either then return state
  else do
    let parchar ← Utf8.sub parw pos pos
    let parlength : Length := if (field t.unicode.macroninvtbl parchar).isSome then .long else .short
    match state.2 with
    | none => return (parlength, some parlength)
    | some firstlength => return (if parlength ≠ firstlength then .either else state.1, state.2)

def lengthAt (partbl : Table Str) (pos : Nat) : Run Length :=
  (·.1) <$> ((pairs t.hash partbl).map (·.1)).foldlM (t.lengthStep pos) (.short, none)

def setChar (w : Str) (pos : Nat) (new : Str) : Run Str := do
  let front ← Utf8.sub w 1 (pos - 1)
  let back ← Utf8.sub w (pos + 1) (-1)
  return front ++ new ++ back

def ambigAt (plainwtry : Str) (partbl : Table Str) (ambigw : Str) (pos : Nat) : Run Str := do
  let letter ← Utf8.sub plainwtry pos pos
  match field t.unicode.tildetbl letter with
  | none => return ambigw
  | some tildevowel =>
      match ← t.lengthAt partbl pos with
      | .either => setChar ambigw pos tildevowel
      | .long =>
          match field t.unicode.macrontbl letter with
          | some macronvowel => setChar ambigw pos macronvowel
          | none => throw .raised
      | .short => return ambigw

def ambigw (plainwtry : Str) (partbl : Table Str) : Run Str := do
  let len ← Utf8.len plainwtry
  (List.range' 1 len).foldlM (t.ambigAt plainwtry partbl) plainwtry

/-- The choice between parallels: a guess or an ambiguous word, if there are several. -/
def choose (plainwtry : Str) (partbl : Table Str) (parcount : Nat) : Run (Option Str × Option Str) :=
  if parcount > 1 then
    match t.guessw partbl with
    | some guessw => return (some guessw, none)
    | none => do
        let ambigw ← t.ambigw plainwtry partbl
        return (none, some ambigw)
  else return (none, none)

/-! The variation loop. -/

/-- What the variation loop keeps from one attempt to the next. The current prefix is
held with its macrons. -/
structure Variation where
  plainw : Str
  plainwtry : Str
  enclitic : Option Str
  prefixform : Option Str
  triedenclitics : Bool
  triedprefixes : Bool
  triedencliticstwice : Bool
  periodremoved : Bool
  subatpostbl : Positions
  doubt : Option (Str × Positions)

def Variation.start (plainw : Str) (periodremoved : Bool) (subatpostbl : Positions)
    (doubt : Option (Str × Positions)) : Variation :=
  ⟨plainw, plainw, none, none, false, false, false, periodremoved, subatpostbl, doubt⟩

def findEnclitic (w : Str) : Option Str :=
  ((pairs t.hash t.enclitictbl).map (·.1)).find? fun enc =>
    subFrom w ((w.length : Int) - enc.length + 1) = enc

def findPrefix (w : Str) : Option Str := t.prefixtbl.find? fun pfplain => sub w 1 pfplain.length = pfplain

/-- `prefixmactbl[pfplain] or pfplain`. -/
def prefixmac (pfplain : Str) : Str := (field t.prefixmactbl pfplain).getD pfplain

def tryEnclitic (v : Variation) : Variation :=
  match v.enclitic with
  | none =>
      match t.findEnclitic v.plainwtry with
      | some enc => { v with
          plainwtry := sub v.plainwtry 1 ((v.plainwtry.length : Int) - enc.length)
          enclitic := some enc
          triedenclitics := true }
      | none => { v with triedenclitics := true }
  | some enc => { v with
      plainwtry := sub v.plainwtry 1 ((v.plainwtry.length : Int) - enc.length)
      triedenclitics := true }

def tryPrefix (v : Variation) : Variation :=
  match t.findPrefix v.plainw with
  | some pfplain => { v with
      plainwtry := subFrom v.plainw (pfplain.length + 1)
      prefixform := some (t.prefixmac pfplain)
      triedprefixes := true }
  | none => { v with triedprefixes := true }

def tryDoubtful (c : Copy) (wlower suresubw : Str) (v : Variation) : Run (Option Variation) := do
  let (doubtsubw, doubtsubatpostbl) ← c.subword wlower true v.doubt
  let doubtsubw ← Utf8.replace doubtsubw (field t.unicode.macroninvtbl)
  if doubtsubw ≠ suresubw ∧ some doubtsubw ≠ v.doubt.map (·.1) then
    return some (.start doubtsubw false doubtsubatpostbl (some (doubtsubw, doubtsubatpostbl)))
  else return none

def nextTry (c : Copy) (wlower suresubw : Str) (v : Variation) : Run (Option Variation) :=
  if !v.triedenclitics then return some (t.tryEnclitic v)
  else if !v.triedprefixes then return some (t.tryPrefix v)
  else if v.enclitic.isSome && v.prefixform.isSome && !v.triedencliticstwice then
    return some { v with triedenclitics := false, triedencliticstwice := true }
  else if subFrom v.plainw v.plainw.length = lit "." then
    return some (.start (sub v.plainw 1 (v.plainw.length - 1)) true v.subatpostbl v.doubt)
  else t.tryDoubtful c wlower suresubw v

def variationLoop (c : Copy) (wlower suresubw : Str) : Nat → Variation → Run (Option (Variation × Str))
  | 0, _ => throw .running
  | fuel + 1, v =>
      match field t.keytbl v.plainwtry with
      | some macronw => return some (v, macronw)
      | none => do
          match ← t.nextTry c wlower suresubw v with
          | none => return none
          | some v => variationLoop c wlower suresubw fuel v

/-! The final word. -/

def restoreAt (subatpostbl : Positions) (finalw : Str) (pos : Nat) : Run Str :=
  match subatpostbl.lookup pos with
  | none => return finalw
  | some i =>
      match t.rules[i - 1]? with
      | none => throw .raised
      | some rule => do
          let _ ← Utf8.len rule.orig
          let repllen ← Utf8.len rule.repl
          let front ← Utf8.sub finalw 1 (pos - 1)
          let back ← Utf8.sub finalw (pos + repllen) (-1)
          return front ++ rule.orig ++ back

/-- The loop that restores substitutions, from the last position to the first. -/
def restore (subatpostbl : Positions) (finalw : Str) : Run Str := do
  let len ← Utf8.len finalw
  (List.range' 1 len).reverse.foldlM (t.restoreAt subatpostbl) finalw

/-- Vowels are long before ns and nf; the loop of `gsub`s for words with a prefix. -/
def lengthenBefore (finalw : Str) : Run Str := do
  let finalw ← gsubAll finalw (lit "ins") (lit "īns")
  let finalw ← gsubAll finalw (lit "inf") (lit "īnf")
  let finalw ← gsubAll finalw (lit "cons") (lit "cōns")
  gsubAll finalw (lit "conf") (lit "cōnf")

def cappostbl (w : Str) : Run (List Nat) := do
  let len ← Utf8.len w
  (List.range' 1 len).filterM fun pos => do
    let pchar ← Utf8.sub w pos pos
    return (field t.unicode.capsinvtbl pchar).isSome

/-- Restoring one uppercase character; one without an uppercase form raises. -/
def capitalizeAt (finalw : Str) (pos : Nat) : Run Str := do
  let char ← Utf8.sub finalw pos pos
  match field t.unicode.capstbl char with
  | some capital => setChar finalw pos capital
  | none => throw .raised

structure Marked where
  finalw : Str
  flagstbl : Table Unit
  periodremoved : Bool

def applyForm (c : Copy) (cappostbl : List Nat) (v : Variation) (macronw : Str) : Run Marked := do
  match c.getpars v.plainwtry with
  | none => throw .raised
  | some (partbl, parcount) => do
      let (guessw, ambigw) ← t.choose v.plainwtry partbl parcount
      let finalw := v.prefixform.getD [] ++ (guessw.or ambigw).getD macronw ++ v.enclitic.getD []
      let finalw ← t.restore v.subatpostbl finalw
      let finalw ← if v.prefixform.isSome then lengthenBefore finalw else pure finalw
      let finalw ← cappostbl.foldlM t.capitalizeAt finalw
      let flagstbl : Table Unit := if v.enclitic.isSome || v.prefixform.isSome then AList.insert AFFIX () ∅ else ∅
      let flagstbl :=
        if guessw.isSome then flagstbl.insert GUESS ()
        else if ambigw.isSome then flagstbl.insert AMBIG () else flagstbl
      return ⟨finalw, flagstbl, v.periodremoved⟩

def anyFound (w : Str) (strs : List Str) : Run Bool :=
  strs.foldlM (fun hasmacrons mac => do
    let found ← find w mac 1
    return hasmacrons || found.isSome) false

def macronizeWord (c : Copy) (overwrite : Bool) (fuel : Nat) (w : Str) (isinvalid : Bool) :
    Run Marked := do
  if isinvalid then return ⟨w, AList.insert INVALID () ∅, false⟩
  let hasmacrons ←
    if overwrite then pure false else anyFound w ((pairs t.hash t.unicode.macroninvtbl).map (·.1))
  if hasmacrons then return ⟨w, ∅, false⟩
  let cappostbl ← t.cappostbl w
  let wlower ← Utf8.replace w (field t.unicode.capsinvtbl)
  let (suresubw, suresubatpostbl) ← c.subword wlower false none
  let suresubw ← Utf8.replace suresubw (field t.unicode.macroninvtbl)
  match ← t.variationLoop c wlower suresubw fuel (.start suresubw false suresubatpostbl none) with
  | none => return ⟨w, AList.insert NOTFOUND () ∅, false⟩
  | some (v, macronw) => t.applyForm c cappostbl v macronw

/-! The loop over the text. -/

def flagstr (marked : Marked) : Str := (pairs t.hash marked.flagstbl).flatMap (·.1)

def Marked.periodchar (marked : Marked) : Int := if marked.periodremoved then 1 else 0

def spliceWord (text : Str) (wstart wend : Int) (w : Str) (marked : Marked) : Str × Int :=
  let text := sub text 1 (wstart - 1) ++ t.flagstr marked ++ marked.finalw ++
    subFrom text (wend + 1 - marked.periodchar)
  let wend := wend + (t.flagstr marked).length
  let lendiff : Int := marked.finalw.length - w.length + marked.periodchar
  let wend := if lendiff > 0 then wend + lendiff else wend
  (text, wend + 1)

def macronizeToken (c : Copy) (overwrite : Bool) (fuel : Nat) (text : Str) (wstart wend : Int) :
    Run (Str × Int) := do
  let (w, wstart, wend, isinvalid) ← c.ignorechars (sub text wstart wend) wstart wend
  match w with
  | none => return (text, wend + 1)
  | some w =>
      if w = [] then return (text, wend + 1)
      else do
        let marked ← t.macronizeWord c overwrite fuel w isinvalid
        return t.spliceWord text wstart wend w marked

def macronizePass (c : Copy) (overwrite hascomments : Bool) (fuel : Nat) (text : Str)
    (wstart wend : Int) : Run (Str × Int) := do
  if hascomments then
    let commentstbl ← c.getcommentset text
    if commentstbl.any (fun r => r.1 ≤ wstart && wstart ≤ r.2) then return (text, wend + 1)
  t.macronizeToken c overwrite fuel text wstart wend

def macronizeLoop (c : Copy) (overwrite hascomments : Bool) (fuel : Nat) : Nat → Str → Int → Run Str
  | 0, _, _ => throw .running
  | rounds + 1, text, init => do
      match ← find text c.letters init with
      | none => return text
      | some (wstart, wend) =>
          let (text, init) ← t.macronizePass c overwrite hascomments fuel text wstart wend
          macronizeLoop c overwrite hascomments fuel rounds text init

theorem macronizeLoop_none {c : Copy} (overwrite hascomments : Bool) (fuel rounds : Nat) {text : Str} {init : Int}
    (missing : findRun c.inside text init = none) :
    t.macronizeLoop c overwrite hascomments fuel (rounds + 1) text init = .ok text := by
  rw [macronizeLoop, c.finds, missing]
  rfl

theorem macronizeLoop_some {c : Copy} (overwrite hascomments : Bool) (fuel rounds : Nat) {text : Str}
    {init wstart wend : Int} (found : findRun c.inside text init = some (wstart, wend)) :
    t.macronizeLoop c overwrite hascomments fuel (rounds + 1) text init =
      t.macronizePass c overwrite hascomments fuel text wstart wend >>= fun next =>
        t.macronizeLoop c overwrite hascomments fuel rounds next.1 next.2 := by
  rw [macronizeLoop, c.finds, found]
  rfl

/-- `macronize`. -/
def macronize (c : Copy) (overwrite : Bool) (fuel : Nat) (text : Str) : Run Str := do
  let text ← if overwrite then remmacs t.unicode text else pure text
  let single ← find text (lit "//([^\n]+)") 1
  let hascomments ←
    if single.isSome then pure true else (·.isSome) <$> find text (lit "/%*(.*)%*/") 1
  if hascomments then let _ ← c.getcommentset text
  t.macronizeLoop c overwrite hascomments fuel fuel text 1

/-- What `mac.lua` calls. The comments are looked for with a global function that it does
not have. -/
def desktop (fuel : Nat) : Copy where
  ignorechars w wstart wend := do
    let trimmed ← t.ignorechars w wstart wend false
    return (trimmed.w, trimmed.wstart, trimmed.wend, trimmed.middlefound)
  subword w includedoubtful prev := t.subword fuel w includedoubtful true prev
  getpars plainw := (getpars t.keytbl plainw true).map fun (partbl, parcount, _) => (partbl, parcount)
  getcommentset _ := throw .raised
  letters := LETTERS
  inside := isLetter
  finds := find_letters

end Tables

end Maccer
