import Maccer.KeyFile

/-! `macra.setupsubs`: the lists of substitutions. -/

namespace Maccer

open Lua

def trim (s : Str) : Str := (s.dropWhile isSpace).rdropWhile isSpace

/-- What a line of a list is, and what has been reported when it was read. A constant may not be a modifier; only `]` is
let through, since it is compared with `RIGHT_BEGIN`, a name that is not set. -/
inductive ListLine where
  | blank
  | constant (constant : Str) (values : List Str)
  | refused (constant : Str)
  | entry (line : Str)
  deriving DecidableEq, Repr

def readLine (line : Str) : Run ListLine := do
  let line := trim line
  if line = [] then return .blank
  let line ← gsubAll line (lit " ") []
  match ← lmatch line (lit "(%p)=(.+)") with
  | some [constant, values] =>
      if Lua.sub line 2 2 = lit "=" then
        if constant ∈ [lit "[", lit "<", lit ">", lit "*", lit "~"] then return .refused constant
        else return .constant constant (values.splitOn 44)
      else return .entry line
  | _ => return .entry line

/-- What `setupsubs` reports: a constant that is a modifier, a line that has modifiers on its
right side, and a line that could not be interpreted. -/
inductive Report where
  | constant (constant : Str)
  | modifiers (line : Str)
  | unreadable (line : Str)
  deriving DecidableEq, Repr

structure Entry where
  orig : Str
  repl : Str
  mod : Option Str
  note : Option Str
  deriving DecidableEq, Repr

def sides (line : Str) : Run (Option (List Str)) := lmatch (line ++ lit "(") (lit "([^=]+)=([^%(]+)")

def leftSide (origfull : Str) : Run (Option (List Str)) :=
  lmatch (origfull ++ lit "|") (lit "([^%[%]<>%(%)~%*|]+)(.+)")

def rightSide (line repl : Str) : Run (Str × List Report) := do
  let found ← find repl (lit "[%[%]<>~%*]") 1
  if found.isSome then
    let repl ← gsubAll repl (lit "[%[%]<>~%*]") []
    return (repl, [.modifiers line])
  else return (repl, [])

def readEntry (u : Unicode) (line : Str) : Run (Option Entry × List Report) := do
  let note ← lmatch line (lit "%(([^%)]+)")
  match ← sides line with
  | some [origfull, repl] => do
      let (repl, reports) ← rightSide line repl
      match ← leftSide origfull with
      | some [orig, mod] => do
          let mod := Lua.sub mod 1 (mod.length - 1)
          let orig ← lower u orig
          let repl ← lower u repl
          return (some ⟨orig, repl, if mod = [] then none else some mod, note.bind List.head?⟩, reports)
      | _ => throw .raised
  | _ => return (none, [.unreadable line])

/-- The lines with the values of a constant, which are put into the table that the last line
has left: before the first one there is none, and the line that is read replaces it. -/
def insertValues (started : Bool) (line : Str) (constant : Str × List Str) : Run Unit := do
  let found ← find line constant.1 1
  if found.isSome then
    constant.2.foldlM (fun _ singleval => do
      let _ ← gsubAll line (lit "%" ++ constant.1) singleval
      if started then return () else throw .raised) ()

/-- The index of the next entry, the constants, whether `sublinetbl` is a table yet, the
entries by index, and the reports. -/
structure Subs where
  i : Nat
  constanttbl : Table (List Str)
  started : Bool
  entries : List (Nat × Entry)
  reports : List Report

def Subs.start : Subs := ⟨1, ∅, false, [], []⟩

def setupEntry (hash : HashOrder) (u : Unicode) (s : Subs) (line : Str) : Run Subs := do
  (pairs hash s.constanttbl).foldlM (fun _ constant => insertValues s.started line constant) ()
  let (entry, reports) ← readEntry u line
  return { s with
    i := s.i + 1
    started := true
    entries := s.entries ++ (entry.map fun entry => (s.i, entry)).toList
    reports := s.reports ++ reports }

def setupLine (hash : HashOrder) (u : Unicode) (s : Subs) (line : Str) : Run Subs := do
  match ← readLine line with
  | .blank => return s
  | .constant constant values => return { s with constanttbl := s.constanttbl.insert constant values }
  | .refused constant => return { s with reports := s.reports ++ [.constant constant] }
  | .entry line => setupEntry hash u s line

/-- The lines of a list as `setupsubs` takes them. -/
def listLines (liststr : Str) : Run (List Str) := do
  let liststr ← decomment liststr
  return (cleanup liststr false true).splitOn 10

def setupsubs (hash : HashOrder) (u : Unicode) (liststr : Str) : Run Subs := do
  let lines ← listLines liststr
  lines.foldlM (setupLine hash u) Subs.start

namespace Subs

variable (s : Subs)

def origtbl (i : Nat) : Option Str := (s.entries.lookup i).map Entry.orig

def repltbl (i : Nat) : Option Str := (s.entries.lookup i).map Entry.repl

def modtbl (i : Nat) : Option Str := (s.entries.lookup i).bind Entry.mod

def notetbl (i : Nat) : Option Str := (s.entries.lookup i).bind Entry.note

end Subs

end Maccer
