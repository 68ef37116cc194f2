import Maccer.Lua.Runs
import Maccer.History

/-! The Ambiguities section: the lists of parallel forms and the choices that are entered in front of them. -/

namespace Maccer

open Lua

inductive Index where
  | num (n : Nat)
  | str (s : Str)
  deriving DecidableEq, Repr

/-- `repltbl` and `oktbl`. -/
structure Fixes where
  repltbl : Table Str
  oktbl : AList fun _ : Index => Unit

/-! What the writer puts in the file. -/

/-- The list of parallel forms, as `writerepairsfile` joins it. -/
def parlist : List Str → Nat → Str
  | [], _ => []
  | form :: forms, parnum => lit " [" ++ decimal parnum ++ lit "]" ++ form ++ parlist forms (parnum + 1)

def ambline (entry : Str) (forms : List Str) : Str := entry ++ lit "\t? " ++ subFrom (parlist forms 1) 3

/-! What the reader makes of it. -/

/-- A form under an index of `partbl`, whose indices are numbers. -/
def partAt (partbl : List (Option Str)) : Index → Option Str
  | .num n => if n = 0 then none else (partbl[n - 1]?).join
  | .str _ => none

/-- The length of `partbl`: a place that is filled and has an empty one after it. -/
def partlen (partbl : List (Option Str)) : Nat := (partbl.takeWhile Option.isSome).length

/-- `repltbl[partbl[i]] = value`; without a form under the index this raises. -/
def setrepl (partbl : List (Option Str)) (i : Index) (value : Option Str) (fixes : Fixes) : Run Fixes :=
  match partAt partbl i with
  | some form => return { fixes with repltbl := assign fixes.repltbl form value }
  | none => throw .raised

/-- The tables and `paroktbl`. -/
abbrev Marked := Fixes × AList fun _ : Index => Bool

/-- The loop of `fixamb` for a single number. -/
def fixall (partbl : List (Option Str)) (allnum : Str) (state : Marked) (n : Nat) : Run Marked :=
  if Index.num n ≠ .str allnum then do
    let fixes ← setrepl partbl (.num n) (partAt partbl (.str allnum)) state.1
    return (fixes, (state.2.insert (.num n) false).insert (.str allnum) true)
  else return state

/-- The loop of `fixamb` for entries with an equals sign. -/
def fixentry (partbl : List (Option Str)) (state : Marked) (entry : Str) : Run Marked := do
  if entry.take 2 = lit "//" then return state
  match ← lmatch entry (lit "(%d)[ ]*=[ ]*(%d)") with
  | some [num1, num2] => do
      let fixes ← setrepl partbl (.str num1) (partAt partbl (.str num2)) state.1
      return (fixes, (state.2.insert (.str num1) false).insert (.str num2) true)
  | _ =>
      match ← lmatch entry (lit "(%d)[ ]*=[ ]*(.+)") with
      | some [num, w] =>
          match tonumber num with
          | some n => do
              let fixes ← setrepl partbl (.num n) (some w) state.1
              return ({ fixes with oktbl := fixes.oktbl.insert (.str w) () }, state.2.insert (.num n) false)
          | none => return state
      | _ => return state

/-- `fixamb`. -/
def fixamb (entrytbl : List Str) (parstr : Str) (fixes : Fixes) : Run Fixes := do
  let partbl ← (parstr.splitOn 44).mapM fun part => do
    return (← lmatch part (lit "%](.+)")).bind List.head?
  let paroktbl : AList fun _ : Index => Bool :=
    (List.range (parstr.splitOn 44).length).foldl (fun t n => t.insert (.num (n + 1)) true) ∅
  let first := entrytbl.headD []
  let allnum ← if first.length = 1 then lmatch first (lit "(%d)") else pure none
  let (fixes, paroktbl) ← match allnum with
    | some [allnum] => (List.range (partlen partbl)).foldlM (fun state n => fixall partbl allnum state (n + 1)) (fixes, paroktbl)
    | _ => entrytbl.foldlM (fixentry partbl) (fixes, paroktbl)
  return { fixes with
    oktbl := paroktbl.entries.foldl (fun t e => if e.2 then t.insert e.1 () else t) fixes.oktbl }

/-- The turn of `loadrepairsfile` for a line of the section. -/
def readamb (line : Str) (fixes : Fixes) : Run Fixes := do
  match ← lmatch line (lit "([^%?]+)%?"), ← lmatch line (lit "%?[ ]*(.+)") with
  | some [entrystr], some [parstr] => fixamb (entrystr.splitOn 44) parstr fixes
  | some _, _ => throw .raised
  | _, _ => return fixes

/-! What can be entered. -/

inductive Assign where
  | form (i j : Nat)
  | word (i : Nat) (w : Str)
  deriving DecidableEq, Repr

inductive Choice where
  | all (k : Nat)
  | each (assigns : List Assign)
  deriving DecidableEq, Repr

def Assign.text : Assign → Str
  | .form i j => decimal i ++ lit "=" ++ decimal j
  | .word i w => decimal i ++ lit "=" ++ w

def Choice.text : Choice → Str
  | .all k => decimal k
  | .each assigns => (lit ",").intercalate (assigns.map Assign.text)

def Assign.Valid (count : Nat) : Assign → Prop
  | .form i j => (1 ≤ i ∧ i ≤ count) ∧ 1 ≤ j ∧ j ≤ count
  | .word i w => (1 ≤ i ∧ i ≤ count) ∧ LetterWord w

def Choice.Valid (count : Nat) : Choice → Prop
  | .all k => 1 ≤ k ∧ k ≤ count
  | .each assigns => assigns ≠ [] ∧ ∀ a ∈ assigns, a.Valid count

def Choice.Entered (choice : Choice) (entry : Str) : Prop := (entry.filter fun b => b ≠ 9 ∧ b ≠ 32) = choice.text

/-! What is meant by it. -/

def Assign.source : Assign → Nat
  | .form i _ => i
  | .word i _ => i

def Assign.replacement (forms : List Str) : Assign → Str × Str
  | .form i j => (forms.getD (i - 1) [], forms.getD (j - 1) [])
  | .word i w => (forms.getD (i - 1) [], w)

def Choice.replacements (forms : List Str) : Choice → List (Str × Str)
  | .all k => ((List.range forms.length).filter (· + 1 ≠ k)).map fun n => (forms.getD n [], forms.getD (k - 1) [])
  | .each assigns => assigns.map (Assign.replacement forms)

def Choice.Replaces : Choice → Nat → Prop
  | .all k, n => n ≠ k
  | .each assigns, n => ∃ a ∈ assigns, a.source = n

def Choice.Adds : Choice → Str → Prop
  | .all _, _ => False
  | .each assigns, w => ∃ i, .word i w ∈ assigns

/-- What a choice is to do: its replacements are made and no other, and what is not replaced is right. -/
structure CarriedOut (forms : List Str) (choice : Choice) (fixes fixes' : Fixes) : Prop where
  repl : ∀ w, field fixes'.repltbl w =
    field ((choice.replacements forms).foldl (fun t e => t.insert e.1 e.2) fixes.repltbl) w
  ok : ∀ i, i ∈ fixes'.oktbl ↔ i ∈ fixes.oktbl ∨
    (∃ n form, forms[n]? = some form ∧ ¬ choice.Replaces (n + 1) ∧ i = .str form) ∨ ∃ w, choice.Adds w ∧ i = .str w

example : cleanup (ambline (lit "2=mālā, 1=3") [lit "mala", lit "mālā", lit "malā"]) false false =
    lit "2=mālā,1=3?1]mala[2]mālā[3]malā" := by decide

/-! The patterns. -/

theorem lmatch_entry {text rest : Str} (filled : text ≠ []) (free : 63 ∉ text) :
    lmatch (text ++ 63 :: rest) (lit "([^%?]+)%?") = .ok (some [text]) := by
  have shape : lit "([^%?]+)%?" = 40 :: 91 :: [94, 37, 63, 93, 43, 41, 37, 63] := by decide
  generalize whole : text ++ 63 :: rest = s
  have here : s.drop 0 = text ++ 63 :: rest := by rw [List.drop_zero, whole]
  have mark : s[0 + text.length]? = some 63 := by
    rw [← List.head?_drop, drop_behind here]
    rfl
  have found : matchAt s (lit "([^%?]+)%?") 0 =
      .ok (.some (0 + text.length + 1, [⟨0, .closed (0 + text.length - 0)⟩])) := by
    rw [matchAt, shape, matchHere_open _ _ _ _ _ (by decide)]
    refine matchHere_run 9 0 _ (fun b => b != 63) 91 [94, 37, 63, 93, 43, 41, 37, 63] [41, 37, 63] (by decide) (by decide) ?_
      here filled (fun b member => ?_) (by simp) ?_
    · intro b
      have set : singleMatch b (91 :: [94, 37, 63, 93, 43, 41, 37, 63]) (43 :: [41, 37, 63]) = !(63 == b || false) := rfl
      rw [set, Bool.or_false, Bool.beq_comm]
      rfl
    · have apart : b ≠ 63 := fun same => free (same ▸ member)
      simpa using apart
    · refine (matchHere_close s 8 (0 + text.length) [] 0 [37, 63]).trans ?_
      rw [matchHere_escape s 7 _ _ 63 [] (by decide) rfl, if_pos mark, matchHere_nil]
      rfl
  rw [lmatch_of_first s _ 0 _ _ (by decide) (Nat.zero_le _) found (by simp)]
  have column : (s.drop 0).take (0 + text.length - 0) = text := by
    rw [here, Nat.zero_add, Nat.sub_zero, List.take_left]
  simp only [captured, List.map_cons, List.map_nil, column]
  rfl

theorem lmatch_list {text rest : Str} (free : 63 ∉ text) (filled : rest ≠ []) (close : rest.head? ≠ some 32) :
    lmatch (text ++ 63 :: rest) (lit "%?[ ]*(.+)") = .ok (some [rest]) := by
  have shape : lit "%?[ ]*(.+)" = 37 :: 63 :: [91, 32, 93, 42, 40, 46, 43, 41] := by decide
  generalize whole : text ++ 63 :: rest = s
  have front : s.drop text.length = 63 :: rest := by rw [← whole, List.drop_left]
  have back : s.drop (text.length + 1) = rest := @drop_behind s _ [63] rest front
  have inside : text.length + 1 < s.length := by
    have positive := List.length_pos_iff.mpr filled
    rw [← whole, List.length_append, List.length_cons]
    omega
  have step (k : Nat) : matchAt s (lit "%?[ ]*(.+)") k =
      if s[k]? = some 63 then matchHere s 10 [91, 32, 93, 42, 40, 46, 43, 41] (k + 1) [] else .ok none := by
    rw [matchAt, shape]
    exact matchHere_escape s 10 k [] 63 [91, 32, 93, 42, 40, 46, 43, 41] (by decide) rfl
  have found : matchAt s (lit "%?[ ]*(.+)") text.length =
      .ok (.some (s.length, [⟨text.length + 1, .closed (s.length - (text.length + 1))⟩])) := by
    have mark : s[text.length]? = some 63 := by
      rw [← List.head?_drop, front]
      rfl
    have free : s[text.length + 1]? ≠ some 32 := by rwa [← List.head?_drop, back]
    rw [step, if_pos mark, matchHere_blanks 9 _ _ _ free, matchHere_rest s 5, if_pos inside]
    rfl
  have misses : ∀ k < text.length, matchAt s (lit "%?[ ]*(.+)") k = .ok none := by
    intro k less
    rw [step, if_neg]
    intro mark
    rw [← whole, List.getElem?_append_left less] at mark
    exact free (List.mem_of_getElem? mark)
  rw [lmatch_of_first s _ _ _ _ (by decide) (by omega) found misses]
  have length : s.length - (text.length + 1) = rest.length := by rw [← back, List.length_drop]
  simp only [captured, List.map_cons, List.map_nil, back, length, List.take_length]
  rfl

theorem lmatch_bracket {front rest : Str} (free : 93 ∉ front) (filled : rest ≠ []) :
    lmatch (front ++ 93 :: rest) (lit "%](.+)") = .ok (some [rest]) := by
  have shape : lit "%](.+)" = 37 :: 93 :: [40, 46, 43, 41] := by decide
  generalize whole : front ++ 93 :: rest = s
  have here : s.drop front.length = 93 :: rest := by rw [← whole, List.drop_left]
  have back : s.drop (front.length + 1) = rest := @drop_behind s _ [93] rest here
  have inside : front.length + 1 < s.length := by
    have positive := List.length_pos_iff.mpr filled
    rw [← whole, List.length_append, List.length_cons]
    omega
  have step (k : Nat) : matchAt s (lit "%](.+)") k =
      if s[k]? = some 93 then matchHere s 6 [40, 46, 43, 41] (k + 1) [] else .ok none := by
    rw [matchAt, shape]
    exact matchHere_escape s 6 k [] 93 [40, 46, 43, 41] (by decide) rfl
  have found : matchAt s (lit "%](.+)") front.length =
      .ok (.some (s.length, [⟨front.length + 1, .closed (s.length - (front.length + 1))⟩])) := by
    have mark : s[front.length]? = some 93 := by
      rw [← List.head?_drop, here]
      rfl
    rw [step, if_pos mark, matchHere_rest s 2, if_pos inside]
    rfl
  have misses : ∀ k < front.length, matchAt s (lit "%](.+)") k = .ok none := by
    intro k less
    rw [step, if_neg]
    intro mark
    rw [← whole, List.getElem?_append_left less] at mark
    exact free (List.mem_of_getElem? mark)
  rw [lmatch_of_first s _ _ _ _ (by decide) (by omega) found misses]
  have length : s.length - (front.length + 1) = rest.length := by rw [← back, List.length_drop]
  simp only [captured, List.map_cons, List.map_nil, back, length, List.take_length]
  rfl

theorem matchHere_number (s : Str) (fuel i : Nat) (captures : List Capture) (after : Str) :
    matchHere s (fuel + 3) (40 :: 37 :: 100 :: 41 :: after) i captures =
      if (s[i]?).any isDigit = true then matchHere s fuel after (i + 1) (captures ++ [⟨i, .closed 1⟩]) else .ok none := by
  have digit (b : UInt8) : matchClass b 100 = isDigit b := rfl
  rw [matchHere_open _ _ _ _ _ (by simp), matchHere_class s _ _ _ 100 (41 :: after) (by decide) (by decide) (by decide) rfl]
  simp only [digit]
  split
  · rw [matchHere_close, Nat.add_sub_cancel_left]
  · rfl

theorem matchHere_equals {d : UInt8} {w : Str} (digit : isDigit d = true) (close : w.head? ≠ some 32) (fuel : Nat) (after : Str) :
    matchHere (d :: 61 :: w) (fuel + 6) (40 :: 37 :: 100 :: 41 :: 91 :: 32 :: 93 :: 42 :: 61 :: 91 :: 32 :: 93 :: 42 :: after)
      0 [] = matchHere (d :: 61 :: w) fuel after 2 [⟨0, .closed 1⟩] := by
  have first : ((d :: 61 :: w)[0]?).any isDigit = true := digit
  have sign : (d :: 61 :: w)[1]? = some 61 := rfl
  have last : (d :: 61 :: w)[2]? ≠ some 32 := by rwa [← List.head?_drop]
  rw [matchHere_number _ (fuel + 3), if_pos first, List.nil_append,
    matchHere_blanks (fuel + 2) 1 _ _ (by rw [sign]; decide),
    matchHere_literal _ (fuel + 1) 1 _ 61 (91 :: 32 :: 93 :: 42 :: after) (by decide) rfl, if_pos sign,
    matchHere_blanks fuel 2 _ _ last]

theorem pairs_shape : lit "(%d)[ ]*=[ ]*(%d)" =
    40 :: 37 :: 100 :: 41 :: 91 :: 32 :: 93 :: 42 :: 61 :: 91 :: 32 :: 93 :: 42 :: [40, 37, 100, 41] := by decide

theorem word_shape : lit "(%d)[ ]*=[ ]*(.+)" =
    40 :: 37 :: 100 :: 41 :: 91 :: 32 :: 93 :: 42 :: 61 :: 91 :: 32 :: 93 :: 42 :: [40, 46, 43, 41] := by decide

theorem isDigit_blank {d : UInt8} (digit : isDigit d = true) : d ≠ 32 ∧ d ≠ 47 ∧ d ≠ 63 ∧ d ≠ 44 := by
  grind [isDigit]

theorem lmatch_number {d : UInt8} (digit : isDigit d = true) : lmatch [d] (lit "(%d)") = .ok (some [[d]]) := by
  have shape : lit "(%d)" = 40 :: 37 :: 100 :: 41 :: [] := by decide
  have first : ([d][0]?).any isDigit = true := digit
  have found : matchAt [d] (lit "(%d)") 0 = .ok (.some (1, [⟨0, .closed 1⟩])) := by
    rw [matchAt, shape]
    refine (matchHere_number [d] 2 0 [] []).trans ?_
    rw [if_pos first, matchHere_nil]
    rfl
  rw [lmatch_of_first [d] _ 0 _ _ (by decide) (Nat.zero_le _) found (by simp)]
  rfl

theorem lmatch_pair {d e : UInt8} (digit : isDigit d = true) (digit' : isDigit e = true) :
    lmatch [d, 61, e] (lit "(%d)[ ]*=[ ]*(%d)") = .ok (some [[d], [e]]) := by
  have close : [e].head? ≠ some 32 := fun blank => (isDigit_blank digit').1 (Option.some.inj blank)
  have second : ([d, 61, e][2]?).any isDigit = true := digit'
  have found : matchAt [d, 61, e] (lit "(%d)[ ]*=[ ]*(%d)") 0 =
      .ok (.some (3, [⟨0, .closed 1⟩, ⟨2, .closed 1⟩])) := by
    rw [matchAt, pairs_shape]
    refine (matchHere_equals digit close 12 [40, 37, 100, 41]).trans ?_
    refine (matchHere_number [d, 61, e] 9 2 _ []).trans ?_
    rw [if_pos second, matchHere_nil]
    rfl
  rw [lmatch_of_first _ _ 0 _ _ (by decide) (Nat.zero_le _) found (by simp)]
  rfl

section

variable {d : UInt8} {w : Str} (digit : isDigit d = true) (word : LetterWord w)
include digit word

theorem lmatch_pair_word : lmatch (d :: 61 :: w) (lit "(%d)[ ]*=[ ]*(%d)") = .ok none := by
  have free : ∀ b ∈ w, isDigit b = false := digitFree_of_letters word.2
  have close : w.head? ≠ some 32 := fun blank => word.without (by decide : isLetter 32 = false) (List.mem_of_head? blank)
  have others (i : Nat) : (((d :: 61 :: w)[i + 1]?).any isDigit) = false := by
    cases here : (d :: 61 :: w)[i + 1]? with
    | none => rfl
    | some b =>
        rcases List.mem_cons.mp (List.mem_of_getElem? (l := 61 :: w) here) with rfl | later
        · decide
        · exact free b later
  apply lmatch_none (by decide)
  intro i
  rw [matchAt, pairs_shape]
  cases i with
  | zero =>
      refine (matchHere_equals digit close 12 [40, 37, 100, 41]).trans ?_
      refine (matchHere_number (d :: 61 :: w) 9 2 _ []).trans ?_
      rw [others 1]
      rfl
  | succ i =>
      refine (matchHere_number (d :: 61 :: w) 15 (i + 1) [] _).trans ?_
      rw [others i]
      rfl

theorem lmatch_word_entry : lmatch (d :: 61 :: w) (lit "(%d)[ ]*=[ ]*(.+)") = .ok (some [[d], w]) := by
  have close : w.head? ≠ some 32 := fun blank => word.without (by decide : isLetter 32 = false) (List.mem_of_head? blank)
  have inside : 2 < (d :: 61 :: w).length := by
    have positive := List.length_pos_iff.mpr word.1
    rw [List.length_cons, List.length_cons]
    omega
  have found : matchAt (d :: 61 :: w) (lit "(%d)[ ]*=[ ]*(.+)") 0 =
      .ok (.some ((d :: 61 :: w).length, [⟨0, .closed 1⟩, ⟨2, .closed ((d :: 61 :: w).length - 2)⟩])) := by
    rw [matchAt, word_shape]
    refine (matchHere_equals digit close 12 [40, 46, 43, 41]).trans ?_
    rw [matchHere_rest _ 8, if_pos inside]
    rfl
  rw [lmatch_of_first _ _ 0 _ _ (by decide) (Nat.zero_le _) found (by simp)]
  have column : ((d :: 61 :: w).drop 2).take ((d :: 61 :: w).length - 2) = w := by
    exact List.take_length
  have number : ((d :: 61 :: w).drop 0).take 1 = [d] := rfl
  simp only [captured, List.map_cons, List.map_nil, column, number]
  rfl

end

/-! The line that is read. -/

theorem cleanup_blanks {s : Str} (flat : 10 ∉ s) : cleanup s false false = s.filter fun b => b ≠ 9 ∧ b ≠ 32 := by
  have spaces : (s.map fun b => if b = 9 then 32 else b).filter (· ≠ 32) = s.filter fun b => b ≠ 9 ∧ b ≠ 32 := by
    clear flat
    induction s with
    | nil => rfl
    | cons b s ih =>
        rw [List.map_cons, List.filter_cons, List.filter_cons, ih]
        by_cases tab : b = 9
        · simp [tab]
        · simp [tab]
  have apart : 10 ∉ s.filter fun b => b ≠ 9 ∧ b ≠ 32 := fun member => flat (List.mem_of_mem_filter member)
  rw [cleanup]
  simp only [Bool.false_eq_true, if_false, spaces]
  rw [cutmultiple_without _ _ (without_of_not_mem apart), trimNewlines]
  have front : (s.filter fun b => b ≠ 9 ∧ b ≠ 32).dropWhile (· == 10) = s.filter fun b => b ≠ 9 ∧ b ≠ 32 := by
    apply List.dropWhile_eq_self_iff.mpr
    intro filled newline
    exact apart ((beq_iff_eq.mp newline) ▸ List.getElem_mem filled)
  rw [front, List.rdropWhile_eq_self_iff.mpr]
  intro filled newline
  exact apart ((beq_iff_eq.mp newline) ▸ List.getLast_mem filled)

structure EntryText (text : Str) : Prop where
  filled : text ≠ []
  flat : 10 ∉ text
  mark : 63 ∉ text

theorem Assign.text_bytes {count : Nat} {a : Assign} (valid : a.Valid count) :
    ∀ b ∈ a.text, isDigit b = true ∨ b = 61 ∨ isLetter b = true := by
  have equals : lit "=" = [61] := by decide
  cases a with
  | form i j =>
      intro b member
      rw [Assign.text, equals, List.mem_append, List.mem_append, List.mem_singleton] at member
      rcases member with (first | sign) | second
      · exact .inl (decimal_digits i b first)
      · exact .inr (.inl sign)
      · exact .inl (decimal_digits j b second)
  | word i w =>
      intro b member
      rw [Assign.text, equals, List.mem_append, List.mem_append, List.mem_singleton] at member
      rcases member with (first | sign) | second
      · exact .inl (decimal_digits i b first)
      · exact .inr (.inl sign)
      · exact .inr (.inr (valid.2.2 b second))

theorem Assign.text_apart {count : Nat} {a : Assign} (valid : a.Valid count) : 10 ∉ a.text ∧ 63 ∉ a.text ∧ 44 ∉ a.text := by
  have apart (b : UInt8) (digit : isDigit b = false) (sign : b ≠ 61) (letter : isLetter b = false) : b ∉ a.text := by
    intro member
    rcases a.text_bytes valid b member with here | here | here
    · rw [digit] at here
      cases here
    · exact sign here
    · rw [letter] at here
      cases here
  exact ⟨apart 10 (by decide) (by decide) (by decide), apart 63 (by decide) (by decide) (by decide),
    apart 44 (by decide) (by decide) (by decide)⟩

theorem digit_decimal {n count : Nat} (few : count ≤ 9) (bound : n ≤ count) : ∃ d, decimal n = [d] ∧ isDigit d = true :=
  ⟨digitByte n, decimal_small n (by omega), isDigit_digitByte n (by omega)⟩

theorem Choice.text_entry {count : Nat} (few : count ≤ 9) {choice : Choice} (valid : choice.Valid count) :
    EntryText choice.text := by
  cases choice with
  | all k =>
      obtain ⟨d, number, digit⟩ := digit_decimal few valid.2
      rw [Choice.text, number]
      have apart := isDigit_blank digit
      have newline : d ≠ 10 := by
        rintro rfl
        cases digit
      exact ⟨List.cons_ne_nil d [], by simpa using newline.symm, by simpa using apart.2.2.1.symm⟩
  | each assigns =>
      have comma : lit "," = [44] := by decide
      have apart := fun a (member : a ∈ assigns) => a.text_apart (valid.2 a member)
      have free (b : UInt8) (other : b ≠ 44) (absent : ∀ a ∈ assigns, b ∉ a.text) :
          b ∉ [44].intercalate (assigns.map Assign.text) := by
        apply intercalate_free other
        intro part member
        obtain ⟨a, listed, rfl⟩ := List.mem_map.mp member
        exact absent a listed
      rw [Choice.text, comma]
      refine ⟨?_, free 10 (by decide) fun a member => (apart a member).1, free 63 (by decide) fun a member => (apart a member).2.1⟩
      obtain ⟨a, assigns, rfl⟩ := List.exists_cons_of_ne_nil valid.1
      have filled : a.text ≠ [] := by
        cases a <;> simp [Assign.text, decimal_ne_nil]
      cases assigns with
      | nil => simpa using filled
      | cons next assigns => simp [filled]

def parrest (forms : List Str) : Str :=
  forms.headD [] ++ (parlist forms.tail 2).filter fun b => b ≠ 9 ∧ b ≠ 32

theorem parlist_bytes (forms : List Str) (words : ∀ form ∈ forms, LetterWord form) (parnum : Nat) :
    ∀ b ∈ parlist forms parnum, b = 32 ∨ b = 91 ∨ b = 93 ∨ isDigit b = true ∨ isLetter b = true := by
  have opening : lit " [" = [32, 91] := by decide
  have closing : lit "]" = [93] := by decide
  induction forms generalizing parnum with
  | nil => intro b member; cases member
  | cons form forms ih =>
      intro b member
      rw [parlist, opening, closing] at member
      simp only [List.mem_append, List.mem_cons, List.not_mem_nil, or_false] at member
      rcases member with ((((blank | bracket) | number) | bracket) | letter) | later
      · exact .inl blank
      · exact .inr (.inl bracket)
      · exact .inr (.inr (.inr (.inl (decimal_digits parnum b number))))
      · exact .inr (.inr (.inl bracket))
      · exact .inr (.inr (.inr (.inr ((words form List.mem_cons_self).2 b letter))))
      · exact ih (fun f listed => words f (List.mem_cons_of_mem form listed)) (parnum + 1) b later

theorem parlist_apart {forms : List Str} (words : ∀ form ∈ forms, LetterWord form) (parnum : Nat) {b : UInt8}
    (bracket : b ≠ 32 ∧ b ≠ 91 ∧ b ≠ 93) (digit : isDigit b = false) (letter : isLetter b = false) :
    b ∉ parlist forms parnum := by
  intro member
  rcases parlist_bytes forms words parnum b member with here | here | here | here | here
  · exact bracket.1 here
  · exact bracket.2.1 here
  · exact bracket.2.2 here
  · rw [digit] at here
    cases here
  · rw [letter] at here
    cases here

theorem parrest_apart {forms : List Str} (some : forms ≠ []) (words : ∀ form ∈ forms, LetterWord form) {b : UInt8}
    (bracket : b ≠ 32 ∧ b ≠ 91 ∧ b ≠ 93) (digit : isDigit b = false) (letter : isLetter b = false) : b ∉ parrest forms := by
  obtain ⟨form, forms, rfl⟩ := List.exists_cons_of_ne_nil some
  intro member
  rcases List.mem_append.mp member with here | later
  · exact (words form List.mem_cons_self).without letter here
  · exact parlist_apart (fun f listed => words f (List.mem_cons_of_mem form listed)) 2 bracket digit letter
      (List.mem_of_mem_filter later)

theorem parrest_same {forms : List Str} {form : Str} : parrest (form :: forms) = form ↔ forms = [] := by
  constructor
  · intro same
    cases forms with
    | nil => rfl
    | cons next forms =>
        have tail : ((parlist (next :: forms) 2).filter fun b => b ≠ 9 ∧ b ≠ 32) = [] := List.append_cancel_left
          (same.trans (List.append_nil form).symm)
        have bracket : 91 ∈ parlist (next :: forms) 2 := by
          have opening : lit " [" = [32, 91] := by decide
          simp [parlist, opening]
        exact absurd (List.filter_eq_nil_iff.mp tail 91 bracket) (by decide)
  · rintro rfl
    exact List.append_nil form

/-- The line as it is read: the entry, the mark, the first number and bracket and the rest of the list. -/
theorem ambline_cleanup {entry : Str} {choice : Choice} {forms : List Str} (few : forms.length ≤ 9)
    (entered : choice.Entered entry) (valid : choice.Valid forms.length) (some : forms ≠ [])
    (words : ∀ form ∈ forms, LetterWord form) :
    cleanup (ambline entry forms) false false = choice.text ++ 63 :: 49 :: 93 :: parrest forms := by
  have text := choice.text_entry few valid
  have flat : 10 ∉ entry := by
    intro member
    apply text.flat
    rw [← entered]
    exact List.mem_filter.mpr ⟨member, by decide⟩
  have list := parlist_apart words 1 (b := 10) (by decide) (by decide) (by decide)
  obtain ⟨form, forms, rfl⟩ := List.exists_cons_of_ne_nil some
  have opening : lit " [" = [32, 91] := by decide
  have closing : lit "]" = [93] := by decide
  have one : decimal 1 = [49] := by decide
  have mark : lit "\t? " = [9, 63, 32] := by decide
  have cut : subFrom (parlist (form :: forms) 1) 3 = 49 :: 93 :: (form ++ parlist forms 2) := by
    rw [show (3 : Int) = (2 : Nat) + 1 by rfl, subFrom_succ, parlist, opening, closing, one]
    simp
  have letters : ∀ b ∈ form, ¬ b = 9 ∧ ¬ b = 32 := by
    have word := words form List.mem_cons_self
    intro b member
    constructor
    · exact fun same => word.without (by decide : isLetter 9 = false) (same ▸ member)
    · exact fun same => word.without (by decide : isLetter 32 = false) (same ▸ member)
  have whole : 10 ∉ ambline entry (form :: forms) := by
    rw [ambline, cut, mark]
    rw [parlist, opening, closing, one] at list
    simp_all
  rw [cleanup_blanks whole, ambline, cut, mark, List.filter_append, List.filter_append, entered]
  simp [parrest]
  exact letters

/-! The tables. -/

theorem text_length (a : Assign) : a.text.length ≠ 1 := by
  have number (n : Nat) : 0 < (decimal n).length := List.length_pos_iff.mpr (decimal_ne_nil n)
  have equals : lit "=" = [61] := by decide
  cases a with
  | form i j =>
      have first := number i
      rw [Assign.text, equals, List.length_append, List.length_append, List.length_singleton]
      omega
  | word i w =>
      have first := number i
      rw [Assign.text, equals, List.length_append, List.length_append, List.length_singleton]
      omega

theorem fixentry_text {count : Nat} (few : count ≤ 9) {a : Assign} (valid : a.Valid count) (form : Str) (state : Marked) :
    fixentry [some form] state a.text = match a with
      | .word 1 w => .ok (⟨state.1.repltbl.insert form w, state.1.oktbl.insert (.str w) ()⟩, state.2.insert (.num 1) false)
      | _ => .error .raised := by
  have equals : lit "=" = [61] := by decide
  have slashes : lit "//" = [47, 47] := by decide
  have uncommented (d : UInt8) (digit : isDigit d = true) (rest : Str) : (d :: 61 :: rest).take 2 ≠ lit "//" := by
    intro same
    rw [slashes] at same
    exact (isDigit_blank digit).2.1 (List.cons.inj same).1
  cases a with
  | form i j =>
      obtain ⟨d, number, digit⟩ := digit_decimal few valid.1.2
      obtain ⟨e, number', digit'⟩ := digit_decimal few valid.2.2
      have text : (Assign.form i j).text = [d, 61, e] := by rw [Assign.text, number, number', equals]; rfl
      rw [text, fixentry, if_neg (uncommented d digit [e]), lmatch_pair digit digit']
      rfl
  | word i w =>
      obtain ⟨d, number, digit⟩ := digit_decimal few valid.1.2
      have text : (Assign.word i w).text = d :: 61 :: w := by rw [Assign.text, number, equals]; rfl
      have value : tonumber [d] = some i := by rw [← number, tonumber_decimal]
      rw [text, fixentry, if_neg (uncommented d digit w), lmatch_pair_word digit valid.2, run_bind_ok,
        lmatch_word_entry digit valid.2, run_bind_ok]
      simp only [value]
      match i with
      | 0 => rfl
      | 1 => rfl
      | i + 2 => rfl

/-- What the entries do when they end: they are new words for the first form, and only what stands for it changes. -/
theorem fixentries_run {count : Nat} (few : count ≤ 9) (form : Str) {assigns : List Assign}
    (valid : ∀ a ∈ assigns, a.Valid count) {state next : Marked}
    (ran : (assigns.map Assign.text).foldlM (fixentry [some form]) state = .ok next) :
    (∀ a ∈ assigns, ∃ w, a = .word 1 w) ∧ ∀ k, k ≠ form → field next.1.repltbl k = field state.1.repltbl k := by
  induction assigns generalizing state with
  | nil =>
      cases ran
      exact ⟨fun a member => absurd member List.not_mem_nil, fun k apart => rfl⟩
  | cons a assigns ih =>
      rw [List.map_cons, List.foldlM_cons, fixentry_text few (valid a List.mem_cons_self)] at ran
      obtain ⟨state', first, later⟩ := bind_eq_ok.mp ran
      have rest := ih (fun a' member => valid a' (List.mem_cons_of_mem a member)) later
      split at first
      case h_1 w here =>
        cases first
        constructor
        · intro a' member
          rcases List.mem_cons.mp member with rfl | member
          · exact ⟨w, rfl⟩
          · exact rest.1 a' member
        · intro k apart
          rw [rest.2 k apart, field_insert_ne _ _ _ _ apart]
      case h_2 => cases first

theorem fixentries_words {count : Nat} (few : count ≤ 9) (form : Str) {ws : List Str}
    (valid : ∀ w ∈ ws, (Assign.word 1 w).Valid count) (fixes : Fixes) (ok : Bool) :
    ((ws.map (Assign.word 1)).map Assign.text).foldlM (fixentry [some form]) (fixes, AList.insert (.num 1) ok ∅) =
      .ok (⟨ws.foldl (fun t w => t.insert form w) fixes.repltbl, ws.foldl (fun t w => t.insert (.str w) ()) fixes.oktbl⟩,
        AList.insert (.num 1) (ok && ws.isEmpty) ∅) := by
  induction ws generalizing fixes ok with
  | nil => simp [Lua.run_pure]
  | cons w ws ih =>
      rw [List.map_cons, List.map_cons, List.foldlM_cons, fixentry_text few (valid w List.mem_cons_self)]
      simp only [run_bind_ok, AList.insert_insert]
      rw [ih (fun w' member => valid w' (List.mem_cons_of_mem w member))]
      simp

theorem partbl_text {rest : Str} (filled : rest ≠ []) (single : 44 ∉ rest) :
    (49 :: 93 :: rest).splitOn 44 = [49 :: 93 :: rest] ∧
      (do return (← lmatch (49 :: 93 :: rest) (lit "%](.+)")).bind List.head? : Run (Option Str)) = .ok (some rest) := by
  constructor
  · apply List.splitOn_eq_singleton
    simpa using single
  · rw [show (49 :: 93 :: rest) = [49] ++ 93 :: rest from rfl, @lmatch_bracket [49] rest (by decide) filled]
    rfl

theorem fixamb_number {d : UInt8} (digit : isDigit d = true) {rest : Str} (filled : rest ≠ []) (single : 44 ∉ rest)
    (fixes : Fixes) :
    fixamb [[d]] (49 :: 93 :: rest) fixes =
      .ok ⟨fixes.repltbl.erase rest, fixes.oktbl.insert (.str [d]) ()⟩ := by
  have parts := partbl_text filled single
  rw [fixamb, parts.1]
  simp only [List.mapM_cons, List.mapM_nil, parts.2]
  simp only [List.headD_cons, List.length_singleton, if_true, lmatch_number digit]
  rfl

theorem fixamb_entries {first : Str} (long : first.length ≠ 1) (entries : List Str) {rest : Str} (filled : rest ≠ [])
    (single : 44 ∉ rest) (fixes : Fixes) :
    fixamb (first :: entries) (49 :: 93 :: rest) fixes = (do
      let (fixes, paroktbl) ← (first :: entries).foldlM (fixentry [some rest]) (fixes, AList.insert (.num 1) true ∅)
      return { fixes with
        oktbl := paroktbl.entries.foldl (fun t e => if e.2 then t.insert e.1 () else t) fixes.oktbl }) := by
  have parts := partbl_text filled single
  rw [fixamb, parts.1]
  simp only [List.mapM_cons, List.mapM_nil, parts.2]
  simp only [run_bind_ok, run_pure, List.headD_cons, long, if_false]
  rfl

/-! The choices. -/

theorem mem_inserts {α κ υ : Type} [DecidableEq κ] (key : α → κ) (value : α → υ) (xs : List α)
    (t : AList fun _ : κ => υ) (k : κ) :
    k ∈ xs.foldl (fun t x => t.insert (key x) (value x)) t ↔ k ∈ t ∨ ∃ x ∈ xs, k = key x := by
  induction xs generalizing t with
  | nil => simp
  | cons x xs ih =>
      rw [List.foldl_cons, ih, AList.mem_insert, List.exists_mem_cons_iff _ x xs, or_assoc, or_left_comm]

theorem parrest_filled {forms : List Str} (some : forms ≠ []) (words : ∀ form ∈ forms, LetterWord form) :
    parrest forms ≠ [] ∧ 44 ∉ parrest forms := by
  constructor
  · obtain ⟨form, forms, rfl⟩ := List.exists_cons_of_ne_nil some
    exact fun none => (words form List.mem_cons_self).1 (List.append_eq_nil_iff.mp none).1
  · exact parrest_apart some words (by decide) (by decide) (by decide)

section

variable {entry : Str} {choice : Choice} {forms : List Str} (few : forms.length ≤ 9) (valid : choice.Valid forms.length)
  (entered : choice.Entered entry) (some : forms ≠ []) (words : ∀ form ∈ forms, LetterWord form)
include few valid entered some words

theorem readamb_line (fixes : Fixes) :
    readamb (cleanup (ambline entry forms) false false) fixes =
      fixamb (choice.text.splitOn 44) (49 :: 93 :: parrest forms) fixes := by
  have text := choice.text_entry few valid
  rw [readamb, ambline_cleanup few entered valid some words, lmatch_entry text.filled text.mark,
    lmatch_list text.mark (List.cons_ne_nil 49 _) (fun blank => by cases blank)]
  rfl

theorem all_not_carried {k : Nat} (chosen : choice = .all k) :
    ¬ ∀ fixes, ∃ fixes', readamb (cleanup (ambline entry forms) false false) fixes = .ok fixes' ∧
      CarriedOut forms choice fixes fixes' := by
  subst chosen
  intro carried
  obtain ⟨d, number, digit⟩ := digit_decimal few valid.2
  have list := parrest_filled some words
  obtain ⟨fixes', ran, out⟩ := carried ⟨AList.insert (parrest forms) [] ∅, ∅⟩
  rw [readamb_line few valid entered some words, Choice.text, number,
    List.splitOn_eq_singleton (by simpa using (isDigit_blank digit).2.2.2.symm),
    fixamb_number digit list.1 list.2] at ran
  cases ran
  have cleared := out.repl (parrest forms)
  rw [field, AList.lookup_erase] at cleared
  apply (field_eq_none _ _).mp cleared.symm
  exact (mem_inserts _ _ _ _ _).mpr (.inl ((AList.mem_insert _).mpr (.inl rfl)))

theorem each_carried {assigns : List Assign} (chosen : choice = .each assigns) :
    (∀ fixes, ∃ fixes', readamb (cleanup (ambline entry forms) false false) fixes = .ok fixes' ∧
      CarriedOut forms choice fixes fixes') ↔ forms.length = 1 ∧ ∀ a ∈ assigns, ∃ w, a = .word 1 w := by
  subst chosen
  obtain ⟨a, rest, rfl⟩ := List.exists_cons_of_ne_nil valid.1
  have list := parrest_filled some words
  have comma : lit "," = [44] := by decide
  have entries : (Choice.each (a :: rest)).text.splitOn 44 = (a :: rest).map Assign.text := by
    rw [Choice.text, comma]
    refine List.splitOn_intercalate 44 ?_ (by simp)
    intro part member
    obtain ⟨a', listed, rfl⟩ := List.mem_map.mp member
    exact (a'.text_apart (valid.2 a' listed)).2.2
  have read (fixes : Fixes) := readamb_line few valid entered some words fixes
  simp only [entries, List.map_cons, fixamb_entries (text_length a) _ list.1 list.2] at read
  constructor
  · intro carried
    obtain ⟨fixes', ran, out⟩ := carried ⟨∅, ∅⟩
    rw [read] at ran
    obtain ⟨state, looped, put⟩ := bind_eq_ok.mp ran
    have facts := fixentries_run few (parrest forms) valid.2 looped
    cases put
    obtain ⟨form, forms, rfl⟩ := List.exists_cons_of_ne_nil some
    refine ⟨?_, facts.1⟩
    by_contra several
    have other : form ≠ parrest (form :: forms) := by
      intro same
      rw [parrest_same.mp same.symm] at several
      exact several rfl
    have nothing : field state.1.repltbl form = none := facts.2 form other
    have wanted := out.repl form
    rw [nothing] at wanted
    apply (field_eq_none _ _).mp wanted.symm
    apply (mem_inserts _ _ _ _ _).mpr
    obtain ⟨w, rfl⟩ := facts.1 a List.mem_cons_self
    exact .inr ⟨_, List.mem_cons_self, rfl⟩
  · rintro ⟨one, only⟩ fixes
    obtain ⟨form, rfl⟩ := List.length_eq_one_iff.mp one
    obtain ⟨ws, same⟩ : ∃ ws : List Str, a :: rest = ws.map (Assign.word 1) := by
      have image : a :: rest ∈ Set.range (List.map (Assign.word 1)) := by
        rw [Set.range_list_map]
        intro a' member
        obtain ⟨w, rfl⟩ := only a' member
        exact ⟨w, rfl⟩
      obtain ⟨ws, same⟩ := image
      exact ⟨ws, same.symm⟩
    rw [same] at valid
    have numbered (w : Str) (member : w ∈ ws) : (Assign.word 1 w).Valid 1 := valid.2 _ (List.mem_map_of_mem member)
    rw [read, parrest_same.mpr rfl, ← List.map_cons, same, fixentries_words (by decide) form numbered]
    refine ⟨_, rfl, ?_, ?_⟩
    · intro w
      rw [Choice.replacements, List.map_map, List.foldl_map]
      rfl
    · intro i
      have replaced : (Choice.each (ws.map (Assign.word 1))).Replaces 1 := by
        rw [← same]
        obtain ⟨w, rfl⟩ := only a List.mem_cons_self
        exact ⟨_, List.mem_cons_self, rfl⟩
      have marked : (true && ws.isEmpty) = false := by
        cases ws with
        | nil => cases same
        | cons w ws => rfl
      rw [marked]
      refine (mem_inserts Index.str (fun _ => ()) ws fixes.oktbl i).trans (or_congr_right ?_)
      constructor
      · rintro ⟨w, member, rfl⟩
        exact .inr ⟨w, ⟨1, List.mem_map_of_mem member⟩, rfl⟩
      · rintro (⟨n, form', here, kept, _⟩ | ⟨w, ⟨j, listed⟩, rfl⟩)
        · rw [(List.getElem?_eq_some_iff.mp here).1 |> Nat.lt_one_iff.mp] at kept
          exact absurd replaced kept
        · obtain ⟨w', member, equal⟩ := List.mem_map.mp listed
          cases equal
          exact ⟨w, member, rfl⟩

end

/-- For exactly which lists and entries the choice is carried out, whatever the tables hold: for a list with a single
form, and only where all that is entered is `1=w`. The reader splits the list by commas, of which the writer puts none,
and looks its forms up under the digits, which are strings. -/
theorem choice_iff (entry : Str) (choice : Choice) (forms : List Str) (few : forms.length ≤ 9) (some : forms ≠ [])
    (words : ∀ form ∈ forms, LetterWord form) (valid : choice.Valid forms.length) (entered : choice.Entered entry) :
    (∀ fixes, ∃ fixes', readamb (cleanup (ambline entry forms) false false) fixes = .ok fixes' ∧
      CarriedOut forms choice fixes fixes') ↔
      forms.length = 1 ∧ ∃ assigns, choice = .each assigns ∧ ∀ a ∈ assigns, ∃ w, a = .word 1 w := by
  cases chosen : choice with
  | all k =>
      subst chosen
      constructor
      · exact fun carried => absurd carried (all_not_carried few valid entered some words rfl)
      · rintro ⟨_, assigns, other, _⟩
        cases other
  | each assigns =>
      subst chosen
      rw [each_carried few valid entered some words rfl]
      apply and_congr_right
      intro _
      constructor
      · exact fun only => ⟨assigns, rfl, only⟩
      · rintro ⟨_, same, only⟩
        cases same
        exact only

theorem letterWord_mala : LetterWord (lit "mala") ∧ LetterWord (lit "mālā") := by
  rw [LetterWord, LetterWord]
  decide +kernel

theorem choice_mala : (∀ fixes, ∃ fixes', readamb (cleanup (ambline (lit "1 = mālā") [lit "mala"]) false false) fixes =
      .ok fixes' ∧ CarriedOut [lit "mala"] (.each [.word 1 (lit "mālā")]) fixes fixes') ↔
    [lit "mala"].length = 1 ∧ ∃ assigns, Choice.each [.word 1 (lit "mālā")] = .each assigns ∧
      ∀ a ∈ assigns, ∃ w, a = .word 1 w := by
  have entered : (Choice.each [.word 1 (lit "mālā")]).Entered (lit "1 = mālā") := by
    rw [Choice.Entered]
    decide
  refine choice_iff _ _ [lit "mala"] (by decide) (by simp) ?_ ⟨by simp, ?_⟩ entered
  · simpa using letterWord_mala.1
  · simpa [Assign.Valid] using letterWord_mala.2

/-- A number for two forms. -/
theorem choice_two : ¬ ∀ fixes, ∃ fixes', readamb (cleanup (ambline (lit "2") [lit "mala", lit "mālā"]) false false) fixes =
    .ok fixes' ∧ CarriedOut [lit "mala", lit "mālā"] (.all 2) fixes fixes' := by
  intro carried
  obtain ⟨fixes', ran, out⟩ := carried ⟨∅, ∅⟩
  have nothing : (fun fixes => field fixes.repltbl (lit "mala")) <$>
      readamb (cleanup (ambline (lit "2") [lit "mala", lit "mālā"]) false false) ⟨∅, ∅⟩ = .ok none := by decide
  rw [ran] at nothing
  have wanted := out.repl (lit "mala")
  have mapped : field (((Choice.all 2).replacements [lit "mala", lit "mālā"]).foldl (fun t e => t.insert e.1 e.2) ∅)
      (lit "mala") = some (lit "mālā") := by decide
  rw [mapped] at wanted
  cases wanted.symm.trans (Except.ok.inj nothing)

end Maccer
