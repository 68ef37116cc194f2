import Maccer.Lua.Literals

/-! Runs of a class between other items of a pattern, and searches that start later. -/

namespace Lua

variable {s : Str}

theorem drop_behind {i : Nat} {front back : Str} (here : s.drop i = front ++ back) :
    s.drop (i + front.length) = back := by
  rw [← List.drop_drop, here, List.drop_left]

theorem matchHere_class_plus (fuel i : Nat) (captures : List Capture) (name : UInt8) (after : Str)
    (notDigit : isDigit name = false) (notBalance : name ≠ 98) (notFrontier : name ≠ 102) :
    matchHere s (fuel + 1) (37 :: name :: 43 :: after) i captures =
      if (s[i]?).any (matchClass · name) = true then
        maxExpand (fun j => matchHere s fuel after j captures) (i + 1) (repeated s (i + 1) (matchClass · name))
      else .ok none := by
  have single (b : UInt8) : singleMatch b (37 :: name :: 43 :: after) (43 :: after) = matchClass b name := rfl
  rw [matchHere]
  · simp only [classEnd, List.cons_ne_nil, if_false, List.tail_cons, notDigit, Bool.false_eq_true, matchItem_plus, single]
  all_goals simp_all

theorem matchHere_blanks (fuel i : Nat) (captures : List Capture) (after : Str) (free : s[i]? ≠ some 32) :
    matchHere s (fuel + 1) (91 :: 32 :: 93 :: 42 :: after) i captures = matchHere s fuel after i captures := by
  have single (b : UInt8) : singleMatch b (91 :: 32 :: 93 :: 42 :: after) (42 :: after) = (b == 32) := by
    have length : (32 :: 93 :: 42 :: after).length - (42 :: after).length - 1 = 1 := by
      simp only [List.length_cons]
      omega
    have same : (32 == b) = (b == 32) := by rw [Bool.beq_comm]
    rw [singleMatch, length]
    simp [matchSet, inSet, same]
  have none : repeated s i (· == 32) = 0 := by
    rw [repeated]
    cases rest : s.drop i with
    | nil => rfl
    | cons b rest =>
        have head : s[i]? = some b := by
          rw [← List.head?_drop, rest]
          rfl
        have other : b ≠ 32 := fun blank => free (by rw [head, blank])
        rw [List.takeWhile_cons_of_neg (by simpa using other)]
        rfl
  rw [matchHere_star s fuel i captures (· == 32) 91 (32 :: 93 :: 42 :: after) after (by decide) rfl single, none]
  rfl

theorem take_repeated {i k : Nat} {inside : UInt8 → Bool} (first : (s[i]?).any inside = true)
    (bound : k ≤ repeated s (i + 1) inside) : ∀ b ∈ (s.drop i).take (k + 1), inside b = true := by
  cases here : s[i]? with
  | none => simp [here] at first
  | some c =>
      obtain ⟨less, rfl⟩ := List.getElem?_eq_some_iff.mp here
      have taken : (s.drop (i + 1)).take k = ((s.drop (i + 1)).takeWhile inside).take k := by
        conv_lhs => rw [← List.takeWhile_append_dropWhile (p := inside) (l := s.drop (i + 1))]
        exact List.take_append_of_le_length bound
      rw [List.drop_eq_getElem_cons less, List.take_succ_cons]
      intro b member
      rcases List.mem_cons.mp member with rfl | later
      · simpa [here] using first
      · rw [taken] at later
        exact List.mem_takeWhile_imp (List.mem_of_mem_take later)

theorem matchHere_run (fuel i : Nat) (captures : List Capture) (inside : UInt8 → Bool) (c : UInt8) (rest after : Str)
    (plain : [0, 36, 37, 40, 41].contains c = false) (ends : classEnd (c :: rest) = some (43 :: after))
    (single : ∀ b, singleMatch b (c :: rest) (43 :: after) = inside b) {word tail : Str} (here : s.drop i = word ++ tail)
    (filled : word ≠ []) (all : ∀ b ∈ word, inside b = true) (stops : ∀ b ∈ tail.head?, inside b = false)
    {found : Nat × List Capture} (next : matchHere s fuel after (i + word.length) captures = .ok (some found)) :
    matchHere s (fuel + 1) (c :: rest) i captures = .ok (some found) := by
  obtain ⟨b, word, rfl⟩ := List.exists_cons_of_ne_nil filled
  have first : s[i]? = some b := by
    rw [← List.head?_drop, here]
    rfl
  have run : repeated s (i + 1) inside = word.length := by
    have behind : s.drop (i + 1) = word ++ tail := by
      rw [← List.tail_drop, here]
      rfl
    have stopped : tail.takeWhile inside = [] := by
      cases tail with
      | nil => rfl
      | cons d tail => rw [List.takeWhile_cons, stops d rfl, if_neg Bool.false_ne_true]
    rw [repeated, behind, List.takeWhile_append_of_pos fun d member => all d (by simp [member]), stopped,
      List.append_nil]
  rw [matchHere_plus s fuel i captures inside c rest after plain ends single, first, run]
  rw [if_pos (by simpa using all b (by simp))]
  refine maxExpand_longest _ _ _ word.length _ le_rfl ?_ (by simp) fun k above bound => by omega
  rw [← next, List.length_cons]
  congr 1
  omega

theorem matchHere_run_none (fuel i : Nat) (captures : List Capture) (inside : UInt8 → Bool) (c d : UInt8)
    (rest after : Str) (plain : [0, 36, 37, 40, 41].contains c = false)
    (ends : classEnd (c :: rest) = some (43 :: d :: after))
    (single : ∀ b, singleMatch b (c :: rest) (43 :: d :: after) = inside b) (literal : isMagic d = false)
    (once : isMark after.head? = false) (outside : inside d = false) {word tail : Str} (here : s.drop i = word ++ tail)
    (all : ∀ b ∈ word, inside b = true) (stops : ∀ b ∈ tail.head?, inside b = false ∧ b ≠ d) :
    matchHere s (fuel + 2) (c :: rest) i captures = .ok none := by
  rw [matchHere_plus s (fuel + 1) i captures inside c rest _ plain ends single]
  split
  case isFalse => rfl
  case isTrue =>
    have byte (k : Nat) : s[i + k]? = (word ++ tail)[k]? := by rw [← here, List.getElem?_drop]
    have run : 1 + repeated s (i + 1) inside ≤ word.length := by
      cases word with
      | nil =>
          rename_i first
          have head : s[i]? = tail.head? := by simpa [List.head?_eq_getElem?] using byte 0
          rw [head] at first
          cases next : tail.head? with
          | none => simp [next] at first
          | some b => simp [next, (stops b next).1] at first
      | cons b word =>
          have behind : s.drop (i + 1) = word ++ tail := by
            rw [← List.tail_drop, here]
            rfl
          have stopped : tail.takeWhile inside = [] := by
            cases tail with
            | nil => rfl
            | cons e tail => rw [List.takeWhile_cons, (stops e rfl).1, if_neg Bool.false_ne_true]
          rw [repeated, behind, List.takeWhile_append_of_pos fun e member => all e (by simp [member]), stopped,
            List.append_nil, List.length_cons, Nat.add_comm]
    apply maxExpand_none
    intro k bound
    rw [matchHere_literal s fuel _ captures d after literal once, if_neg]
    intro wanted
    rw [Nat.add_assoc, byte] at wanted
    by_cases within : 1 + k < word.length
    · rw [List.getElem?_append_left within] at wanted
      have letter := all d (List.mem_of_getElem? wanted)
      rw [outside] at letter
      cases letter
    · have last : 1 + k = word.length := by omega
      rw [List.getElem?_append_right (by omega), last, Nat.sub_self, ← List.head?_eq_getElem?] at wanted
      exact (stops d wanted).2 rfl

theorem maxExpand_cases (next : Nat → Outcome) (start count : Nat) (returns : ∀ j, ∃ found, next j = .ok found) :
    maxExpand next start count = .ok none ∨
      ∃ k ≤ count, ∃ found, next (start + k) = .ok (some found) ∧ maxExpand next start count = .ok (some found) := by
  induction count with
  | zero =>
      obtain ⟨found, here⟩ := returns start
      cases found with
      | none => exact .inl here
      | some found => exact .inr ⟨0, le_rfl, found, here, here⟩
  | succ count ih =>
      obtain ⟨found, here⟩ := returns (start + (count + 1))
      rw [maxExpand, here]
      cases found with
      | none =>
          rcases ih with fails | ⟨k, bound, found, shorter, ran⟩
          · exact .inl fails
          · exact .inr ⟨k, Nat.le_succ_of_le bound, found, shorter, ran⟩
      | some found => exact .inr ⟨count + 1, le_rfl, found, here, rfl⟩

theorem searchFrom_cases (here : Nat → Outcome) (count start : Nat) (returns : ∀ j, ∃ found, here j = .ok found) :
    searchFrom here count start = .ok none ∨ ∃ i stop captures, here i = .ok (some (stop, captures)) ∧
      searchFrom here count start = .ok (some (i, stop, captures)) := by
  induction count generalizing start with
  | zero => exact .inl rfl
  | succ count ih =>
      obtain ⟨found, first⟩ := returns start
      rw [searchFrom, first]
      cases found with
      | none => exact ih (start + 1)
      | some found => exact .inr ⟨start, found.1, found.2, first, rfl⟩

theorem lmatch_cases {pattern : Str} (free : pattern.head? ≠ some 94) (returns : ∀ i, ∃ found, matchAt s pattern i = .ok found) :
    lmatch s pattern = .ok none ∨ ∃ i stop captures, matchAt s pattern i = .ok (some (stop, captures)) ∧
      lmatch s pattern = .ok (some (captured s i stop captures)) := by
  rw [lmatch, show (1 : Int) = (0 : Nat) + 1 by rfl, findPattern_free free]
  rcases searchFrom_cases (matchAt s pattern) _ _ returns with fails | ⟨i, stop, captures, here, ran⟩
  · exact .inl (by rw [fails]; rfl)
  · exact .inr ⟨i, stop, captures, here, by rw [ran]; rfl⟩

theorem searchFrom_skip (here : Nat → Outcome) (count skip start : Nat) (misses : ∀ k < skip, here (start + k) = .ok none) :
    searchFrom here (skip + count) start = searchFrom here count (start + skip) := by
  induction skip generalizing start with
  | zero => rw [Nat.zero_add, Nat.add_zero]
  | succ skip ih =>
      have first : here start = .ok none := misses 0 (Nat.zero_lt_succ skip)
      have later := ih (start + 1) fun k less => by
        rw [Nat.add_assoc, Nat.add_comm 1 k]
        exact misses (k + 1) (Nat.succ_lt_succ less)
      rw [Nat.add_right_comm, searchFrom, first]
      simp only []
      rw [later]
      congr 1
      omega

theorem lmatch_none {pattern : Str} (free : pattern.head? ≠ some 94) (misses : ∀ i, matchAt s pattern i = .ok none) :
    lmatch s pattern = .ok none := by
  rw [lmatch, show (1 : Int) = (0 : Nat) + 1 by rfl, findPattern_free free, searchFrom_none _ _ _ fun k _ => misses _]
  rfl

theorem find_skip {pattern : Str} (magic : hasPattern pattern = true) (free : pattern.head? ≠ some 94) {i j : Nat}
    (less : i ≤ j) (inside : j ≤ s.length) (misses : ∀ k, i ≤ k → k < j → matchAt s pattern k = .ok none) :
    find s pattern (i + 1) = find s pattern (j + 1) := by
  obtain ⟨skip, rfl⟩ := Nat.exists_eq_add_of_le less
  have count : s.length - i + 1 = skip + (s.length - (i + skip) + 1) := by omega
  rw [find, find, if_pos magic, if_pos magic, findPattern_free free, findPattern_free free, min_eq_left (by omega),
    min_eq_left inside, count,
    searchFrom_skip _ _ _ _ fun k bound => misses (i + k) (Nat.le_add_right i k) (Nat.add_lt_add_left bound i)]

end Lua
