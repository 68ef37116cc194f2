import Maccer.Lua.Table
import Maccer.Lua.Pattern
import Maccer.Utf8

/-! The character tables that `macra.loadunicode` builds from `data/unicode.txt`. -/

namespace Maccer

open Lua

structure Unicode where
  macroninvtbl : Table Str
  tildeinvtbl : Table Str
  capsinvtbl : Table Str
  macrontbl : Table Str
  tildetbl : Table Str
  capstbl : Table Str

/-- `glue.index`: keys and values exchanged. -/
def index (t : Table Str) : Table Str := t.entries.foldl (fun d e => d.insert e.2 e.1) ∅

def merge {ν : Type} (d t : Table ν) : Table ν :=
  t.entries.foldl (fun d e => if field d e.1 = none then d.insert e.1 e.2 else d) d

def upper (s : Str) : Str := s.map fun b => if isLower b then b - 32 else b

def asciicapsinvtbl : Table Str :=
  (List.range 26).foldl (fun t i => t.insert [(65 + i).toUInt8] [(97 + i).toUInt8]) ∅

def loadCapital (u : Unicode) (line : Str × Str) : Unicode :=
  let capsinvtbl := u.capsinvtbl.insert line.1 line.2
  match field u.macroninvtbl line.2, field u.tildeinvtbl line.2 with
  | some macascii, _ =>
      { u with capsinvtbl, macroninvtbl := u.macroninvtbl.insert line.1 (upper macascii) }
  | none, some tildeascii =>
      { u with capsinvtbl, tildeinvtbl := u.tildeinvtbl.insert line.1 (upper tildeascii) }
  | none, none => { u with capsinvtbl }

/-- `macra.loadunicode` on the lines of the two sections. `glue.merge` writes
into its first argument, so the table of macrons is also the table of all
Unicode letters from then on, while the inverse tables were made before. -/
def loadunicode (lowercase : List (Str × Str × Str)) (capitals : List (Str × Str)) : Unicode :=
  let letters := lowercase.foldl (fun (u : Unicode) line =>
    { u with
      macroninvtbl := u.macroninvtbl.insert line.1 line.2.2
      tildeinvtbl := u.tildeinvtbl.insert line.2.1 line.2.2 }) ⟨∅, ∅, ∅, ∅, ∅, ∅⟩
  let u := capitals.foldl loadCapital letters
  let capsinvtbl := merge u.capsinvtbl asciicapsinvtbl
  { macroninvtbl := merge u.macroninvtbl u.tildeinvtbl
    tildeinvtbl := u.tildeinvtbl
    capsinvtbl
    macrontbl := index u.macroninvtbl
    tildetbl := index u.tildeinvtbl
    capstbl := index capsinvtbl }

/-- `unicodeinvtbl`, the same table object as `macroninvtbl`. -/
def Unicode.unicodeinvtbl (u : Unicode) : Table Str := u.macroninvtbl

/-- The contents of `data/unicode.txt`. -/
def unicode : Unicode := loadunicode
  [(lit "ā", lit "ã", lit "a"), (lit "ē", lit "ẽ", lit "e"), (lit "ī", lit "ĩ", lit "i"),
    (lit "ō", lit "õ", lit "o"), (lit "ū", lit "ũ", lit "u"), (lit "ȳ", lit "ỹ", lit "y")]
  [(lit "Ā", lit "ā"), (lit "Ē", lit "ē"), (lit "Ī", lit "ī"), (lit "Ō", lit "ō"),
    (lit "Ū", lit "ū"), (lit "Ȳ", lit "ȳ"), (lit "Ã", lit "ã"), (lit "Ẽ", lit "ẽ"),
    (lit "Ĩ", lit "ĩ"), (lit "Õ", lit "õ"), (lit "Ũ", lit "ũ"), (lit "Ỹ", lit "ỹ")]

def plain (w : Str) : Run Str := Utf8.replace w (field unicode.macroninvtbl)

example : plain (lit "Ōdī") = .ok (lit "Odi") := by decide

set_option maxRecDepth 8000 in
theorem plain_letters : ∀ e ∈ unicode.macroninvtbl.entries, ∀ b ∈ e.2, isDigit b = false := by
  decide

end Maccer
