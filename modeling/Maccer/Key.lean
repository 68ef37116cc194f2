import Maccer.Lua.Rows
import Maccer.Unicode

/-! The word key: `keytbl` and the functions of `macra.lua` that walk it. -/

namespace Maccer

open Lua

/-- The tables of `macra.lua` that make up the key. Header sets are tables whose
values are all true, and the list of sources is an array. -/
structure Key where
  keytbl : Table Str
  freqtbl : Table Nat
  headerstbl : Table (Table Unit)
  headersbynumtbl : List Str

def Key.empty : Key := ⟨∅, ∅, ∅, []⟩

def Key.freq (key : Key) (w : Str) : Nat := (field key.freqtbl w).getD 0

def Key.headers (key : Key) (w : Str) : Table Unit := (field key.headerstbl w).getD ∅

/-- Steps enough for a walk over numbered slots, which are distinct fields. -/
def walkFuel (keytbl : Table Str) : Nat := keytbl.keys.length + 1

/-- The inner loop of `macra.getpars`. In the round for abbreviations every form
is taken with a period, but the slots walked are still those of `plainw`. -/
def getparsWalk (keytbl : Table Str) (plainw : Str) (abbrevloop : Bool) :
    Nat → Str → Str → Nat → Table Str → Table Str × Nat × Str
  | 0, plainwkey, _, curparnum, parwtbl => (parwtbl, curparnum, plainwkey)
  | fuel + 1, plainwkey, parw, curparnum, parwtbl =>
      let parw := if abbrevloop then parw ++ lit "." else parw
      let parwtbl := parwtbl.insert parw plainwkey
      let curparnum := curparnum + 1
      let plainwkey := plainw ++ decimal curparnum
      match field keytbl plainwkey with
      | some parw => getparsWalk keytbl plainw abbrevloop fuel plainwkey parw curparnum parwtbl
      | none => (parwtbl, curparnum, plainwkey)

/-- `macra.getpars`: the parallel forms with their slots, their number, and the
next slot. The test for an abbreviation takes the last two bytes of the word, so
that only the word `.` passes it. -/
def getpars (keytbl : Table Str) (plainw : Str) (tryabbrevloop : Bool) :
    Option (Table Str × Nat × Str) :=
  match field keytbl plainw with
  | none => none
  | some parw0 =>
      let walked := getparsWalk keytbl plainw false (walkFuel keytbl) plainw parw0 0 ∅
      if tryabbrevloop && subFrom plainw (plainw.length - 1) == lit "." then
        let plainwkey := sub plainw 1 (plainw.length - 1)
        match field keytbl plainwkey with
        | none => some (walked.1, walked.2.1, plainwkey)
        | some parw =>
            let again := getparsWalk keytbl plainw true (walkFuel keytbl) plainwkey parw 0 walked.1
            some (again.1, walked.2.1 + again.2.1, again.2.2)
      else some walked

/-- `macra.getnextkey`, counting from `curpar`. -/
def getnextkeyFrom (keytbl : Table Str) (plainw : Str) : Nat → Str → Nat → Str
  | 0, plainwkey, _ => plainwkey
  | fuel + 1, plainwkey, curpar =>
      match field keytbl plainwkey with
      | none => plainwkey
      | some _ => getnextkeyFrom keytbl plainw fuel (plainw ++ decimal (curpar + 1)) (curpar + 1)

def getnextkey (keytbl : Table Str) (plainw : Str) : Str :=
  getnextkeyFrom keytbl plainw (walkFuel keytbl) plainw 0

/-- `plainwkey:match("%d+") or 0`. -/
def firstNumber (s : Str) : Nat :=
  (tonumber ((s.dropWhile fun b => !isDigit b).takeWhile isDigit)).getD 0

/-- `plainw..(n == 0 and "" or n)` is the slot with that number. The loop of
`macra.keyremove` that moves later parallels down, from `n` on. -/
def shiftDown (plainw : Str) : Nat → Nat → Table Str → Table Str
  | 0, _, keytbl => keytbl
  | count + 1, n, keytbl =>
      shiftDown plainw count (n + 1)
        (assign keytbl (slot plainw n) (field keytbl (plainw ++ decimal (n + 1))))

/-- `macra.keyremove` with all its arguments. -/
def keyremoveAt (keytbl : Table Str) (w plainw : Str) (partbl : Table Str) (parcount : Nat) :
    Table Str :=
  match field partbl w with
  | none => keytbl
  | some plainwkey =>
      let parnum := firstNumber plainwkey
      assign (shiftDown plainw (parcount - parnum) parnum keytbl) (slot plainw (parcount - 1)) none

/-- `macra.keyremove(w)`; iterating over the parallels of a word that has none
raises. -/
def keyremove (keytbl : Table Str) (w : Str) : Run (Table Str) := do
  let plainw ← plain w
  match getpars keytbl plainw false with
  | none => throw .raised
  | some (partbl, parcount, _) => return keyremoveAt keytbl w plainw partbl parcount

/-- `addword` of `fixkey.lua`, called with a word only. -/
def addword (keytbl : Table Str) (w : Str) : Run (Table Str × Bool) := do
  let plainw ← plain w
  match getpars keytbl plainw false with
  | none => return (keytbl.insert plainw w, true)
  | some (partbl, parcount, _) =>
      if field partbl w = none then return (keytbl.insert (plainw ++ decimal parcount) w, true)
      else return (keytbl, false)

end Maccer
