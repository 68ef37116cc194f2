import Mathlib.Data.List.TakeWhile
import Maccer.Lua.Bounds

/-! One step of the matcher for each kind of pattern item. -/

namespace Lua

variable (s : Str) (fuel i : Nat) (captures : List Capture)

example (pattern : Str) : matchHere s 0 pattern i captures = .error .running := by rw [matchHere]

theorem matchHere_nil : matchHere s (fuel + 1) [] i captures = .ok (some (i, captures)) := by
  rw [matchHere]

def isMagic (c : UInt8) : Bool := [0, 36, 37, 40, 41, 46, 91].contains c

def isMark (c : Option UInt8) : Bool := [some 63, some 42, some 43, some 45].contains c

theorem matchItem_once (next : Str → Nat → Outcome) (pattern rest : Str)
    (once : isMark rest.head? = false) :
    matchItem s next pattern rest i =
      if (s[i]?).any (fun b => singleMatch b pattern rest) = true then next rest (i + 1)
      else .ok none := by
  unfold matchItem
  split <;> simp_all [isMark]

theorem matchItem_plus (next : Str → Nat → Outcome) (pattern after : Str) :
    matchItem s next pattern (43 :: after) i =
      if (s[i]?).any (fun b => singleMatch b pattern (43 :: after)) = true then
        maxExpand (next after) (i + 1)
          (repeated s (i + 1) fun b => singleMatch b pattern (43 :: after))
      else .ok none := rfl

theorem matchHere_item (c : UInt8) (rest after : Str) (plain : [0, 36, 37, 40, 41].contains c = false)
    (ends : classEnd (c :: rest) = some after) :
    matchHere s (fuel + 1) (c :: rest) i captures =
      matchItem s (fun q j => matchHere s fuel q j captures) (c :: rest) after i := by
  simp only [List.contains_eq_mem, List.mem_cons, List.not_mem_nil, or_false, decide_eq_false_iff_not,
    not_or] at plain
  rw [matchHere]
  · simp only [ends]
    split
    · simp_all
    · rfl
  all_goals simp_all

theorem matchHere_literal (c : UInt8) (rest : Str) (plain : isMagic c = false)
    (once : isMark rest.head? = false) :
    matchHere s (fuel + 1) (c :: rest) i captures =
      if s[i]? = some c then matchHere s fuel rest (i + 1) captures else .ok none := by
  simp only [isMagic, List.contains_eq_mem, List.mem_cons, List.not_mem_nil, or_false,
    decide_eq_false_iff_not, not_or] at plain
  have ends : classEnd (c :: rest) = some rest := by
    unfold classEnd
    split <;> simp_all
  have single (b : UInt8) : singleMatch b (c :: rest) rest = (c == b) := by
    unfold singleMatch
    split <;> simp_all
  rw [matchHere_item s fuel i captures c rest rest (by simp [plain]) ends,
    matchItem_once s i _ _ _ once]
  simp only [single]
  cases s[i]? with
  | none => simp
  | some b =>
      by_cases same : c = b
      · simp [same]
      · simp [same, Ne.symm same]

theorem matchHere_plus (inside : UInt8 → Bool) (c : UInt8) (rest after : Str)
    (plain : [0, 36, 37, 40, 41].contains c = false)
    (ends : classEnd (c :: rest) = some (43 :: after))
    (single : ∀ b, singleMatch b (c :: rest) (43 :: after) = inside b) :
    matchHere s (fuel + 1) (c :: rest) i captures =
      if (s[i]?).any inside = true then
        maxExpand (fun j => matchHere s fuel after j captures) (i + 1) (repeated s (i + 1) inside)
      else .ok none := by
  rw [matchHere_item s fuel i captures c rest _ plain ends, matchItem_plus]
  simp only [single]

theorem matchHere_star (inside : UInt8 → Bool) (c : UInt8) (rest after : Str)
    (plain : [0, 36, 37, 40, 41].contains c = false)
    (ends : classEnd (c :: rest) = some (42 :: after))
    (single : ∀ b, singleMatch b (c :: rest) (42 :: after) = inside b) :
    matchHere s (fuel + 1) (c :: rest) i captures =
      maxExpand (fun j => matchHere s fuel after j captures) i (repeated s i inside) := by
  rw [matchHere_item s fuel i captures c rest _ plain ends]
  simp only [matchItem, single]

theorem single_except (b c : UInt8) (rest : Str) :
    singleMatch b (91 :: 94 :: c :: 93 :: rest) rest = decide (b ≠ c) := by
  have body : (94 :: c :: 93 :: rest).take ((94 :: c :: 93 :: rest).length - rest.length - 1) = [94, c] := by
    simp only [List.length_cons]
    rw [show rest.length + 1 + 1 + 1 - rest.length - 1 = 2 by omega]
    rfl
  have set : matchSet b [94, c] = !(c == b || false) := by simp [matchSet, inSet]
  rw [singleMatch, body, set, Bool.or_false, decide_not, Bool.beq_comm, beq_eq_decide]

theorem single_except_both (b c d : UInt8) (rest : Str) (plain : c ≠ 37) :
    singleMatch b (91 :: 94 :: c :: d :: 93 :: rest) rest = (b != c && b != d) := by
  have body : (94 :: c :: d :: 93 :: rest).take ((94 :: c :: d :: 93 :: rest).length - rest.length - 1) = [94, c, d] := by
    simp only [List.length_cons]
    rw [show rest.length + 1 + 1 + 1 + 1 - rest.length - 1 = 3 by omega]
    rfl
  have set : matchSet b [94, c, d] = !(c == b || (d == b || false)) := by simp [matchSet, inSet, plain]
  rw [singleMatch, body, set, Bool.or_false, Bool.not_or, Bool.beq_comm, @Bool.beq_comm _ _ _ d b]
  rfl

theorem punct_literal (c : UInt8) (mark : isPunct c = true) :
    classOf c = none ∧ isUpper c = false ∧ isDigit c = false ∧ c ≠ 98 ∧ c ≠ 102 := by
  have apart : c < 97 ∨ 122 < c := by grind [isPunct, inRange]
  have unnamed : classOf c = none := by
    rw [classOf]
    repeat rw [if_neg (by grind)]
  refine ⟨unnamed, ?_, ?_, ?_, ?_⟩ <;> grind [isPunct, inRange, isUpper, isDigit]

theorem matchHere_class (name : UInt8) (rest : Str) (notDigit : isDigit name = false) (notBalance : name ≠ 98)
    (notFrontier : name ≠ 102) (once : isMark rest.head? = false) :
    matchHere s (fuel + 1) (37 :: name :: rest) i captures =
      if (s[i]?).any (matchClass · name) = true then matchHere s fuel rest (i + 1) captures else .ok none := by
  have single (b : UInt8) : singleMatch b (37 :: name :: rest) rest = matchClass b name := rfl
  rw [matchHere]
  · simp only [classEnd, List.cons_ne_nil, if_false, List.tail_cons, notDigit, Bool.false_eq_true]
    rw [matchItem_once s i _ _ _ once]
    simp only [single]
  all_goals simp_all

theorem matchHere_escape (c : UInt8) (rest : Str) (mark : isPunct c = true)
    (once : isMark rest.head? = false) :
    matchHere s (fuel + 1) (37 :: c :: rest) i captures =
      if s[i]? = some c then matchHere s fuel rest (i + 1) captures else .ok none := by
  obtain ⟨noClass, notUpper, notDigit, notBalance, notFrontier⟩ := punct_literal c mark
  have single (b : UInt8) : matchClass b c = (c == b) := by simp [matchClass, notUpper, noClass]
  rw [matchHere_class s fuel i captures c rest notDigit notBalance notFrontier once]
  simp only [single]
  cases s[i]? with
  | none => simp
  | some b =>
      by_cases same : c = b
      · simp [same]
      · simp [same, Ne.symm same]

theorem matchHere_open (rest : Str) (capture : rest.head? ≠ some 41) :
    matchHere s (fuel + 1) (40 :: rest) i captures =
      matchHere s fuel rest i (captures ++ [⟨i, .unfinished⟩]) := by
  cases rest with
  | nil => rfl
  | cons c rest =>
      rw [matchHere]
      rintro rest' same
      cases same
      exact capture rfl

theorem matchHere_close (start : Nat) (rest : Str) :
    matchHere s (fuel + 1) (41 :: rest) i (captures ++ [⟨start, .unfinished⟩]) =
      matchHere s fuel rest i (captures ++ [⟨start, .closed (i - start)⟩]) := by
  simp [matchHere, closeCapture]

theorem maxExpand_longest (next : Nat → Outcome) (start count length : Nat)
    (found : Option (Nat × List Capture)) (enough : length ≤ count)
    (here : next (start + length) = .ok found) (some : found ≠ none)
    (longer : ∀ k, length < k → k ≤ count → next (start + k) = .ok none) :
    maxExpand next start count = .ok found := by
  induction count with
  | zero =>
      have zero : length = 0 := by omega
      simpa [zero, maxExpand] using here
  | succ count ih =>
      rw [maxExpand]
      by_cases last : length = count + 1
      · rw [← last, here]
        cases found with
        | none => exact absurd rfl some
        | some found => rfl
      · rw [longer (count + 1) (by omega) le_rfl]
        exact ih (by omega) fun k above bound => longer k above (by omega)

theorem maxExpand_none (next : Nat → Outcome) (start count : Nat)
    (fails : ∀ k ≤ count, next (start + k) = .ok none) : maxExpand next start count = .ok none := by
  induction count with
  | zero => exact fails 0 le_rfl
  | succ count ih =>
      rw [maxExpand, fails (count + 1) le_rfl]
      exact ih fun k bound => fails k (by omega)

theorem maxExpand_returns (next : Nat → Outcome) (start count : Nat)
    (returns : ∀ j, ∃ found, next j = .ok found) : ∃ found, maxExpand next start count = .ok found := by
  induction count with
  | zero => exact returns start
  | succ count ih =>
      obtain ⟨found, here⟩ := returns (start + (count + 1))
      rw [maxExpand, here]
      cases found with
      | none => exact ih
      | some found => exact ⟨_, rfl⟩

theorem matchHere_literals (word rest : Str)
    (plain : ∀ c ∈ word, isMagic c = false ∧ isMark (some c) = false)
    (once : isMark rest.head? = false) :
    matchHere s (fuel + word.length) (word ++ rest) i captures =
      if word <+: s.drop i then matchHere s fuel rest (i + word.length) captures else .ok none := by
  induction word generalizing i with
  | nil => simp
  | cons c word ih =>
      have next : isMark (word ++ rest).head? = false := by
        cases word with
        | nil => exact once
        | cons d word => exact (plain d (by simp)).2
      rw [List.length_cons, ← Nat.add_assoc, List.cons_append,
        matchHere_literal s _ _ _ c _ (plain c (by simp)).1 next]
      by_cases here : s[i]? = some c
      · obtain ⟨bound, same⟩ := List.getElem?_eq_some_iff.mp here
        rw [if_pos here, ih (i + 1) fun d member => plain d (by simp [member])]
        have longer : c :: word <+: s.drop i ↔ word <+: s.drop (i + 1) := by
          rw [List.drop_eq_getElem_cons bound, same, List.cons_prefix_cons]
          exact and_iff_right rfl
        simp only [longer, Nat.add_comm word.length 1, Nat.add_assoc]
      · rw [if_neg here, if_neg]
        rintro ⟨tail, whole⟩
        refine here ?_
        rw [← List.head?_drop, ← whole]
        rfl

theorem repeated_all : repeated s i (fun _ => true) = s.length - i := by
  have whole : (s.drop i).takeWhile (fun _ => true) = s.drop i :=
    List.takeWhile_eq_self_iff.mpr fun _ _ => rfl
  rw [repeated, whole, List.length_drop]

theorem matchHere_rest :
    matchHere s (fuel + 4) [40, 46, 43, 41] i captures =
      if i < s.length then
        .ok (some (s.length, captures ++ [⟨i, .closed (s.length - i)⟩]))
      else .ok none := by
  rw [matchHere_open s (fuel + 3) i captures _ (by decide),
    matchHere_plus s (fuel + 2) i _ (fun _ => true) 46 [43, 41] [41] (by decide) (by decide)
      fun b => by simp [singleMatch]]
  by_cases inside : i < s.length
  · have here : (s[i]?).any (fun _ => true) = true := by simp [List.getElem?_eq_getElem inside]
    rw [if_pos here, if_pos inside, repeated_all]
    refine maxExpand_longest _ _ _ _ _ le_rfl ?_ (by simp) fun k above bound => by omega
    rw [matchHere_close, matchHere_nil, Nat.add_sub_cancel' (by omega : i + 1 ≤ s.length)]
  · have beyond : ¬ (s[i]?).any (fun _ => true) = true := by
      simp [List.getElem?_eq_none (by omega : s.length ≤ i)]
    rw [if_neg beyond, if_neg inside]

theorem searchFrom_first (here : Nat → Outcome) (count start skip : Nat)
    (found : Nat × List Capture) (enough : skip < count)
    (hit : here (start + skip) = .ok (some found))
    (misses : ∀ k < skip, here (start + k) = .ok none) :
    searchFrom here count start = .ok (some (start + skip, found)) := by
  induction count generalizing start skip with
  | zero => omega
  | succ count ih =>
      rw [searchFrom]
      cases skip with
      | zero =>
          rw [Nat.add_zero] at hit
          rw [hit]
          rfl
      | succ skip =>
          rw [show here start = .ok none from misses 0 (by omega)]
          have later := ih (start + 1) skip (by omega) (by rwa [Nat.add_right_comm, Nat.add_assoc])
            fun k less => by
              rw [Nat.add_right_comm, Nat.add_assoc]
              exact misses (k + 1) (by omega)
          rw [show start + (skip + 1) = start + 1 + skip by omega]
          exact later

theorem searchFrom_none (here : Nat → Outcome) (count start : Nat)
    (misses : ∀ k < count, here (start + k) = .ok none) :
    searchFrom here count start = .ok none := by
  induction count generalizing start with
  | zero => rfl
  | succ count ih =>
      rw [searchFrom, show here start = .ok none from misses 0 (by omega)]
      refine ih (start + 1) fun k less => ?_
      rw [Nat.add_right_comm, Nat.add_assoc]
      exact misses (k + 1) (by omega)

theorem searchFrom_returns (here : Nat → Outcome) (count start : Nat)
    (returns : ∀ j, ∃ found, here j = .ok found) : ∃ found, searchFrom here count start = .ok found := by
  induction count generalizing start with
  | zero => exact ⟨none, rfl⟩
  | succ count ih =>
      obtain ⟨found, first⟩ := returns start
      rw [searchFrom, first]
      cases found with
      | none => exact ih (start + 1)
      | some found => exact ⟨_, rfl⟩

def runFrom (inside : UInt8 → Bool) (s : Str) (i : Nat) : Option (Nat × Nat) :=
  let gap := ((s.drop i).takeWhile fun b => !inside b).length
  let run := ((s.drop (i + gap)).takeWhile inside).length
  if run = 0 then none else some (i + gap, i + gap + run)

theorem runFrom_here (inside : UInt8 → Bool) (s : Str) (i : Nat)
    (here : (s[i]?).any inside = true) :
    runFrom inside s i = some (i, i + 1 + repeated s (i + 1) inside) := by
  have bound : i < s.length := by
    by_contra beyond
    simp [List.getElem?_eq_none (by omega : s.length ≤ i)] at here
  rw [List.getElem?_eq_getElem bound] at here
  have letter : inside s[i] = true := by simpa using here
  have gap : (s.drop i).takeWhile (fun b => !inside b) = [] := by
    rw [List.drop_eq_getElem_cons bound, List.takeWhile_cons]
    simp [letter]
  have run : (s.drop i).takeWhile inside = s[i] :: (s.drop (i + 1)).takeWhile inside := by
    rw [List.drop_eq_getElem_cons bound, List.takeWhile_cons, if_pos letter]
  simp only [runFrom, gap, List.length_nil, Nat.add_zero, run, List.length_cons,
    Nat.add_one_ne_zero, if_false, repeated]
  congr 2
  omega

theorem runFrom_beyond (inside : UInt8 → Bool) (s : Str) (i : Nat) (beyond : s.length ≤ i) :
    runFrom inside s i = none := by
  simp [runFrom, List.drop_eq_nil_of_le beyond]

theorem runFrom_later (inside : UInt8 → Bool) (s : Str) (i : Nat)
    (here : (s[i]?).any inside ≠ true) : runFrom inside s i = runFrom inside s (i + 1) := by
  by_cases bound : i < s.length
  · rw [List.getElem?_eq_getElem bound] at here
    have outside : inside s[i] = false := by simpa using here
    have gap : ((s.drop i).takeWhile fun b => !inside b).length =
        ((s.drop (i + 1)).takeWhile fun b => !inside b).length + 1 := by
      rw [List.drop_eq_getElem_cons bound, List.takeWhile_cons]
      simp [outside]
    simp only [runFrom, gap]
    generalize ((s.drop (i + 1)).takeWhile fun b => !inside b).length = later
    rw [show i + (later + 1) = i + 1 + later by omega]
  · rw [runFrom_beyond inside s i (by omega), runFrom_beyond inside s (i + 1) (by omega)]

theorem matchAt_run (s : Str) (inside : UInt8 → Bool) (c : UInt8) (rest : Str) (i : Nat)
    (plain : [0, 36, 37, 40, 41].contains c = false)
    (ends : classEnd (c :: rest) = some [43])
    (single : ∀ b, singleMatch b (c :: rest) [43] = inside b) :
    matchAt s (c :: rest) i =
      if (s[i]?).any inside = true then .ok (some (i + 1 + repeated s (i + 1) inside, []))
      else .ok none := by
  rw [matchAt, matchHere_plus s _ i [] inside c rest [] plain ends single]
  split
  · refine maxExpand_longest _ _ _ _ _ le_rfl ?_ (by simp) fun k above bound => by omega
    rw [List.length_cons, matchHere_nil]
  · rfl

theorem findPattern_run (s : Str) (inside : UInt8 → Bool) (c : UInt8) (rest : Str) (init : Int)
    (plain : [0, 36, 37, 40, 41].contains c = false) (anchored : c ≠ 94)
    (ends : classEnd (c :: rest) = some [43])
    (single : ∀ b, singleMatch b (c :: rest) [43] = inside b) :
    findPattern s (c :: rest) init =
      .ok ((runFrom inside s (searchStart s init)).map fun (start, stop) => (start, stop, [])) := by
  have start : searchStart s init ≤ s.length := Nat.min_le_right _ _
  have searched : findPattern s (c :: rest) init =
      searchFrom (matchAt s (c :: rest)) (s.length - searchStart s init + 1) (searchStart s init) := by
    simp [findPattern, anchored]
  have every (count i : Nat) (whole : s.length < i + count) :
      searchFrom (matchAt s (c :: rest)) count i =
        .ok ((runFrom inside s i).map fun (start, stop) => (start, stop, [])) := by
    induction count generalizing i with
    | zero =>
        rw [runFrom_beyond inside s i (by omega)]
        rfl
    | succ count ih =>
        rw [searchFrom, matchAt_run s inside c rest i plain ends single]
        by_cases here : (s[i]?).any inside = true
        · rw [if_pos here, runFrom_here inside s i here]
          rfl
        · rw [if_neg here, runFrom_later inside s i here]
          exact ih (i + 1) (by omega)
  rw [searched, every _ _ (by omega)]

end Lua
