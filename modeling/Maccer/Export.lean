import Maccer.KeyFile

/-! The export of the key for the web version. -/

namespace Maccer

open Lua

inductive Value where
  | string (s : Str)
  | number (n : Nat)
  | boolean (b : Bool)
  deriving DecidableEq

namespace Value

def tostring : Value → Str
  | string s => s
  | number n => decimal n
  | boolean true => lit "true"
  | boolean false => lit "false"

def quotes : Value → Bool
  | string _ => true
  | _ => false

def quoted (v : Value) : Str :=
  (if v.quotes then lit "\"" else []) ++ v.tostring ++ (if v.quotes then lit "\"" else [])

end Value

section

variable {ν : Type} (value : ν → Value)

def atNumber (_ : Table ν) (_ : Nat) : Option ν := none

/-- `macra.isarray`. -/
def isarray (tbl : Table ν) : Bool := (List.range' 1 tbl.keys.length).all fun i => (atNumber tbl i).isSome

def ipairs (tbl : Table ν) : List ν :=
  (((List.range' 1 tbl.keys.length).map (atNumber tbl)).takeWhile Option.isSome).filterMap id

def element (e : Str × ν) : Str := lit "[\"" ++ e.1 ++ lit "\"]=" ++ (value e.2).quoted

structure Exported where
  reachedsplit : Bool
  elements : Str

/-- One entry of the loop of `macra.exporttable`. -/
def exportEntry (splitword : Option Str) (secondsplit : Bool) (state : Exported) (e : Str × ν) : Exported :=
  let reachedsplit := state.reachedsplit || splitword.any fun word => value e.2 = .string word
  { reachedsplit
    elements :=
      if (!secondsplit && !reachedsplit) || (secondsplit && reachedsplit) then
        state.elements ++ lit ", " ++ element value e
      else state.elements }

/-- `macra.exporttable`. -/
def exporttable (tbl : Table ν) (name : Str) (splitword : Option Str) (secondsplit : Bool) : Str :=
  let elements :=
    if isarray tbl then (ipairs tbl).flatMap fun v => lit ", " ++ (value v).quoted
    else ((sortedpairs tbl).foldl (exportEntry value splitword secondsplit) ⟨false, []⟩).elements
  lit "local " ++ name ++ lit " = \x7b " ++ subFrom elements 3 ++ lit " \x7d\n"

end

/-- The files that `macra.exportdata` writes. -/
structure ExportFiles where
  key1 : Str
  key2 : Str
  freq : Str

/-- `macra.exportdata`. -/
def exportdata (key : Key) : ExportFiles where
  key1 := bom ++ exporttable .string key.keytbl (lit "keytbl") (some (lit "labant")) false
  key2 := bom ++ exporttable .string key.keytbl (lit "keytbl") (some (lit "labant")) true
  freq := bom ++ exporttable .number key.freqtbl (lit "freqtbl") none false

theorem subFrom_commas (parts : List Str) :
    subFrom (parts.flatMap fun part => lit ", " ++ part) 3 = (lit ", ").intercalate parts := by
  have comma : lit ", " = [44, 32] := by decide
  have third (s : Str) : subFrom s 3 = s.drop 2 := subFrom_succ s 2
  rw [third, comma]
  cases parts with
  | nil => rfl
  | cons part parts =>
      induction parts generalizing part with
      | nil => simp
      | cons next parts ih =>
          rw [List.flatMap_cons, List.intercalate_cons_cons, ← ih next]
          simp

/-! What is written of a table. -/

section

variable {ν : Type} (value : ν → Value)

def tabletext (name : Str) (entries : List (Str × ν)) : Str :=
  lit "local " ++ name ++ lit " = \x7b " ++ (lit ", ").intercalate (entries.map (element value)) ++ lit " \x7d\n"

def behindCommas (entries : List (Str × ν)) : Str := entries.flatMap fun e => lit ", " ++ element value e

theorem subFrom_behindCommas (entries : List (Str × ν)) :
    subFrom (behindCommas value entries) 3 = (lit ", ").intercalate (entries.map (element value)) := by
  rw [← subFrom_commas, behindCommas, List.flatMap_map]

theorem isarray_iff (tbl : Table ν) : isarray tbl = true ↔ sortedpairs tbl = [] := by
  have lengths : (sortedpairs tbl).length = tbl.keys.length := by
    rw [← List.length_map Prod.fst, sortedpairs, pairs_fst]
    exact (HashOrder.perm _ _).length_eq
  rw [← List.length_eq_zero_iff, lengths, isarray]
  cases tbl.keys.length with
  | zero => simp
  | succ n => simp [atNumber, List.range'_succ]

variable (splitword : Option Str)

def isSplit (e : Str × ν) : Bool := splitword.any fun word => value e.2 = .string word

theorem exportEntries_behind (secondsplit : Bool) (entries : List (Str × ν)) (elements : Str) :
    entries.foldl (exportEntry value splitword secondsplit) ⟨true, elements⟩ =
      ⟨true, elements ++ if secondsplit then behindCommas value entries else []⟩ := by
  induction entries generalizing elements with
  | nil => cases secondsplit <;> simp [behindCommas]
  | cons e entries ih =>
      rw [List.foldl_cons, exportEntry]
      cases secondsplit with
      | false => simpa using ih elements
      | true => simpa [behindCommas] using ih (elements ++ lit ", " ++ element value e)

/-- The loop from the start: the entries before the split are the first file's, the others the second's. -/
theorem exportEntries_run (secondsplit : Bool) (entries : List (Str × ν)) (elements : Str) :
    (entries.foldl (exportEntry value splitword secondsplit) ⟨false, elements⟩).elements =
      elements ++ behindCommas value (if secondsplit then entries.dropWhile fun e => !isSplit value splitword e
        else entries.takeWhile fun e => !isSplit value splitword e) := by
  induction entries generalizing elements with
  | nil => cases secondsplit <;> simp [behindCommas]
  | cons e entries ih =>
      rw [List.foldl_cons, exportEntry]
      cases split : isSplit value splitword e with
      | true =>
          have reached : (splitword.any fun word => value e.2 = .string word) = true := split
          simp only [reached, Bool.or_true]
          rw [exportEntries_behind]
          cases secondsplit <;> simp [split, behindCommas]
      | false =>
          have before : (splitword.any fun word => value e.2 = .string word) = false := split
          simp only [before, Bool.or_false]
          cases secondsplit with
          | false => simpa [split, behindCommas] using ih (elements ++ lit ", " ++ element value e)
          | true => simpa [split] using ih elements

theorem exporttable_eq (tbl : Table ν) (name : Str) (secondsplit : Bool) :
    exporttable value tbl name splitword secondsplit =
      tabletext value name (if secondsplit then (sortedpairs tbl).dropWhile fun e => !isSplit value splitword e
        else (sortedpairs tbl).takeWhile fun e => !isSplit value splitword e) := by
  rw [exporttable, tabletext, ← subFrom_behindCommas]
  by_cases array : isarray tbl = true
  · have none : sortedpairs tbl = [] := (isarray_iff tbl).mp array
    have walked : ipairs tbl = [] := by
      rw [ipairs]
      cases tbl.keys.length <;> rfl
    simp only [if_pos array, none, walked]
    cases secondsplit <;> rfl
  · simp only [if_neg array, exportEntries_run, List.nil_append]

/-- Each entry of a table is in the sorted list once, and the list is sorted. -/
structure Sorted (tbl : Table ν) (entries : List (Str × ν)) : Prop where
  once : (entries.map Prod.fst).Nodup
  all : ∀ k v, (k, v) ∈ entries ↔ field tbl k = some v
  sorted : (entries.map Prod.fst).Pairwise (· ≤ ·)

theorem sortedpairs_sorted (tbl : Table ν) : Sorted tbl (sortedpairs tbl) where
  once := pairs_nodup _ tbl
  all := mem_pairs _ tbl
  sorted := by
    rw [sortedpairs, pairs_fst]
    exact List.pairwise_insertionSort _ _

end

/-- The two key files hold the entries of the key in order, each of them in one file. -/
theorem exportdata_split (key : Key) : ∃ first second : List (Str × Str),
    (exportdata key).key1 = bom ++ tabletext .string (lit "keytbl") first ∧
      (exportdata key).key2 = bom ++ tabletext .string (lit "keytbl") second ∧
      first ++ second = sortedpairs key.keytbl ∧ Sorted key.keytbl (first ++ second) ∧
      (∀ e ∈ first, e.2 ≠ lit "labant") ∧ ∀ e ∈ second.head?, e.2 = lit "labant" := by
  have split (e : Str × Str) : isSplit Value.string (some (lit "labant")) e = true ↔ e.2 = lit "labant" := by
    simp [isSplit]
  have whole := @List.takeWhile_append_dropWhile _ (fun e => !isSplit Value.string (some (lit "labant")) e)
    (sortedpairs key.keytbl)
  refine ⟨_, _, congrArg (bom ++ ·) (exporttable_eq _ _ _ _ false),
    congrArg (bom ++ ·) (exporttable_eq _ _ _ _ true), whole, ?_,
    fun e member => ?_, fun e member => ?_⟩
  · rw [if_neg Bool.false_ne_true, if_pos rfl, whole]
    exact sortedpairs_sorted key.keytbl
  · have before := List.mem_takeWhile_imp member
    intro same
    rw [(split e).mpr same] at before
    exact Bool.false_ne_true before
  · have behind := List.head?_dropWhile_not (fun e => !isSplit Value.string (some (lit "labant")) e)
      (sortedpairs key.keytbl)
    rw [if_pos rfl] at member
    rw [Option.mem_def.mp member] at behind
    exact (split e).mp (by simpa using behind)

end Maccer
