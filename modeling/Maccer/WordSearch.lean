import Maccer.Lua.Literals
import Maccer.Fixkey

/-! The patterns of `replacesingle`: a word between two bytes of given classes. -/

namespace Maccer

open Lua

/-- An item of a pattern, alone in its group, that stands for one byte of a class. -/
structure Stands (item : Str) (inside : UInt8 → Bool) : Prop where
  filled : 1 ≤ item.length
  group : ∀ after, (item ++ 41 :: after).head? ≠ some 41
  single : ∀ s fuel i captures after, matchHere s (fuel + 1) (item ++ 41 :: after) i captures =
    if (s[i]?).any inside = true then matchHere s fuel (41 :: after) (i + 1) captures else .ok none

theorem stands_space : Stands (lit "%s") isSpace where
  filled := by decide
  group after := by
    rw [show lit "%s" = [37, 115] by decide]
    simp
  single s fuel i captures after := by
    rw [show lit "%s" = [37, 115] by decide]
    exact matchHere_class s fuel i captures 115 (41 :: after) (by decide) (by decide) (by decide) rfl

theorem stands_punct : Stands (lit "%p") isPunct where
  filled := by decide
  group after := by
    rw [show lit "%p" = [37, 112] by decide]
    simp
  single s fuel i captures after := by
    rw [show lit "%p" = [37, 112] by decide]
    exact matchHere_class s fuel i captures 112 (41 :: after) (by decide) (by decide) (by decide) rfl

/-- The bytes of `macra.PUNCT`: white space, digits, and ASCII punctuation but the period. -/
def isBound (b : UInt8) : Bool := isSpace b || isDigit b || isPunct b && b != 46

theorem setEnd_append {body rest : Str} (ends : setEnd body = some rest) (after : Str) :
    setEnd (body ++ after) = some (rest ++ after) := by
  induction body using setEnd.induct with
  | case1 => cases ends
  | case2 c tail closed =>
      obtain ⟨tail, rfl⟩ := List.head?_eq_some_iff.mp closed
      simp only [setEnd, List.head?_cons, if_true, List.tail_cons, Option.some.injEq] at ends
      simp [setEnd, ends]
  | case3 c tail opened ih =>
      rw [setEnd, if_neg opened] at ends
      cases tail with
      | nil => cases ends
      | cons b tail =>
          have inner : b ≠ 93 := by simpa using opened
          simpa [setEnd, inner] using ih ends
  | case4 c tail apart closed =>
      obtain ⟨tail, rfl⟩ := List.head?_eq_some_iff.mp closed
      have other : c ≠ 37 := fun same => apart 93 tail same rfl
      simp only [setEnd, List.head?_cons, if_true, List.tail_cons, Option.some.injEq] at ends
      simp [setEnd, ends, other]
  | case5 c tail apart opened ih =>
      rw [setEnd, if_neg opened] at ends
      · cases tail with
        | nil => cases ends
        | cons b tail =>
            have other : c ≠ 37 := fun same => apart b tail same rfl
            have inner : b ≠ 93 := by simpa using opened
            simpa [setEnd, inner, other] using ih ends
      · exact apart

theorem isBound_eq (b : UInt8) : isBound b = (b == 64 || !isLetter b) := by
  grind [isLetter, isBound, isSpace, isDigit, isPunct, inRange]

theorem punct_shape : PUNCT.tail.dropLast =
    9 :: 10 :: 37 :: 115 :: 37 :: 100 :: escaped (lit "!\"#$%&'()*+,@-/:;<=>?[\\]^_`\x7b|\x7d~") := by
  rw [PUNCT, lit_chars, lit_chars]
  decide

theorem punct_marks : (lit "!\"#$%&'()*+,@-/:;<=>?[\\]^_`\x7b|\x7d~").Perm (64 :: outerMarks) := by
  rw [outerMarks, lit_chars, lit_chars]
  decide

theorem stands_bound : Stands PUNCT isBound where
  filled := by decide
  group after := by
    have shape : PUNCT = 91 :: PUNCT.tail := by decide
    rw [shape]
    simp
  single s fuel i captures after := by
    have shape : PUNCT = 91 :: (PUNCT.tail.dropLast ++ [93]) := by decide
    generalize body : PUNCT.tail.dropLast = inner at shape
    have closed : setEnd (inner ++ [93]) = some [] := by
      rw [← body]
      decide
    have ends : classEnd (91 :: (inner ++ [93] ++ 41 :: after)) = some (41 :: after) := by
      have open' : (inner ++ [93] ++ 41 :: after).head? ≠ some 94 := by
        obtain ⟨rest, same⟩ : ∃ rest, inner = 9 :: rest := ⟨PUNCT.tail.dropLast.tail, by rw [← body]; decide⟩
        rw [same]
        simp
      rw [classEnd, if_neg open', setEnd_append closed]
      rfl
    have single (b : UInt8) : singleMatch b (91 :: (inner ++ [93] ++ 41 :: after)) (41 :: after) = isBound b := by
      have inside : (inner ++ [93] ++ 41 :: after).take
          ((inner ++ [93] ++ 41 :: after).length - (41 :: after).length - 1) = inner := by
        rw [List.append_assoc]
        apply List.take_left'
        simp only [List.length_append, List.length_cons, List.length_nil]
        omega
      rw [singleMatch, inside, ← body, punct_shape, matchSet, List.head?_cons, if_neg (by decide), inSet_marks punct_marks,
        isBound_eq]
    rw [shape, List.cons_append, matchHere_item s fuel i captures 91 _ _ (by decide) ends, matchItem_once s i _ _ _ rfl]
    simp only [single]

/-- The word between two groups. -/
def wordPattern (before orig after : Str) : Str := 40 :: (before ++ 41 :: (orig ++ 40 :: (after ++ [41])))

/-- Bytes of words that mean themselves in patterns. -/
def isPlainLetter (b : UInt8) : Bool := isAlpha b || 128 ≤ b

theorem plainLetter_literal (b : UInt8) (letter : isPlainLetter b = true) :
    isMagic b = false ∧ isMark (some b) = false := by
  have apart : 65 ≤ b ∧ b ≤ 90 ∨ 97 ≤ b := by grind [isPlainLetter, isAlpha, isUpper, isLower, inRange]
  constructor
  · simp only [isMagic, List.contains_eq_mem, List.mem_cons, List.not_mem_nil, or_false, decide_eq_false_iff_not]
    grind
  · simp only [isMark, List.contains_eq_mem, List.mem_cons, List.not_mem_nil, or_false, decide_eq_false_iff_not,
      Option.some.injEq]
    grind

theorem plainLetter_apart (b : UInt8) (letter : isPlainLetter b = true) :
    isSpace b = false ∧ isPunct b = false ∧ isBound b = false ∧ b ≠ 37 := by
  have apart : 65 ≤ b ∧ b ≤ 90 ∨ 97 ≤ b ∧ b ≤ 122 ∨ 128 ≤ b := by
    grind [isPlainLetter, isAlpha, isUpper, isLower, inRange]
  have space : isSpace b = false := by grind [isSpace, inRange]
  have punct : isPunct b = false := by grind [isPunct, inRange]
  refine ⟨space, punct, ?_, ?_⟩ <;> grind [isBound, isDigit]

section

variable {before orig after : Str} {inside inside' : UInt8 → Bool}

theorem matchAt_word (stands : Stands before inside) (stands' : Stands after inside')
    (letters : ∀ b ∈ orig, isPlainLetter b = true) (s : Str) (i : Nat) :
    matchAt s (wordPattern before orig after) i =
      if (s[i]?).any inside = true ∧ orig <+: s.drop (i + 1) ∧ (s[i + 1 + orig.length]?).any inside' = true then
        .ok (some (i + 1 + orig.length + 1, [⟨i, .closed 1⟩, ⟨i + 1 + orig.length, .closed 1⟩]))
      else .ok none := by
  obtain ⟨k, fuel⟩ : ∃ k, (wordPattern before orig after).length + 1 = k + 4 + orig.length + 3 := by
    have filled := stands.filled
    have filled' := stands'.filled
    refine ⟨before.length + after.length - 2, ?_⟩
    simp only [wordPattern, List.length_cons, List.length_append, List.length_nil]
    omega
  have plain : ∀ b ∈ orig, isMagic b = false ∧ isMark (some b) = false :=
    fun b member => plainLetter_literal b (letters b member)
  rw [matchAt, fuel, wordPattern, matchHere_open s (k + 4 + orig.length + 2) i [] _ (stands.group _),
    stands.single s (k + 4 + orig.length + 1)]
  by_cases first : (s[i]?).any inside = true
  case neg => rw [if_neg first, if_neg fun h => first h.1]
  case pos =>
    rw [if_pos first, matchHere_close s (k + 4 + orig.length) (i + 1) [] i,
      matchHere_literals s (k + 4) (i + 1) _ orig (40 :: (after ++ [41])) plain rfl]
    by_cases word : orig <+: s.drop (i + 1)
    case neg => rw [if_neg word, if_neg fun h => word h.2.1]
    case pos =>
      rw [if_pos word, matchHere_open s (k + 3) _ _ _ (stands'.group []), stands'.single s (k + 2)]
      by_cases last : (s[i + 1 + orig.length]?).any inside' = true
      case neg => rw [if_neg last, if_neg fun h => last h.2.2]
      case pos =>
        rw [if_pos last, if_pos ⟨first, word, last⟩, matchHere_close s (k + 1), matchHere_nil,
          Nat.add_sub_cancel_left, Nat.add_sub_cancel_left]
        rfl

/-- The word stands behind the byte at a place, and both bytes are of their classes. -/
def Between (inside inside' : UInt8 → Bool) (orig s : Str) (i : Nat) : Prop :=
  (s[i]?).any inside = true ∧ orig <+: s.drop (i + 1) ∧ (s[i + 1 + orig.length]?).any inside' = true

theorem wordPattern_magic (before orig after : Str) :
    hasPattern (wordPattern before orig after) = true ∧ (wordPattern before orig after).head? ≠ some 94 := by
  have paren : decide ((40 : UInt8) ∈ lit "^$*+?.([%-") = true := by decide
  refine ⟨?_, by simp [wordPattern]⟩
  rw [hasPattern, wordPattern, List.any_cons, paren, Bool.true_or]

theorem find_word_first (stands : Stands before inside) (stands' : Stands after inside')
    (letters : ∀ b ∈ orig, isPlainLetter b = true) {s : Str} {i k : Nat} (later : k ≤ i)
    (here : Between inside inside' orig s i) (absent : ∀ j, k ≤ j → j < i → ¬ Between inside inside' orig s j) :
    find s (wordPattern before orig after) (k + 1) = .ok (some (i + 1, ((i + 1 + orig.length + 1 : Nat) : Int))) := by
  have magic := wordPattern_magic before orig after
  have inside : i ≤ s.length := by
    by_contra beyond
    have first := here.1
    rw [List.getElem?_eq_none (by omega)] at first
    cases first
  exact find_first magic.1 magic.2 later inside ((matchAt_word stands stands' letters s i).trans (if_pos here)) rfl
    fun j after less => (matchAt_word stands stands' letters s j).trans (if_neg (absent j after less))

theorem find_word_none (stands : Stands before inside) (stands' : Stands after inside')
    (letters : ∀ b ∈ orig, isPlainLetter b = true) {s : Str} {k : Nat}
    (absent : ∀ j, k ≤ j → ¬ Between inside inside' orig s j) :
    find s (wordPattern before orig after) (k + 1) = .ok none := by
  have magic := wordPattern_magic before orig after
  have misses (j : Nat) (after : k ≤ j) := (matchAt_word stands stands' letters s j).trans (if_neg (absent j after))
  by_cases within : k ≤ s.length
  · exact find_none magic.1 magic.2 within misses
  · -- the search starts at the end
    have beyond (j : Nat) (ended : s.length ≤ j) : matchAt s (wordPattern before orig after) j = .ok none := by
      refine (matchAt_word stands stands' letters s j).trans (if_neg fun here => ?_)
      have first := here.1
      rw [List.getElem?_eq_none ended] at first
      cases first
    have same : find s (wordPattern before orig after) ((k : Int) + 1) =
        find s (wordPattern before orig after) ((s.length : Int) + 1) := by
      rw [find, find, if_pos magic.1, if_pos magic.1, findPattern_free magic.2, findPattern_free magic.2,
        min_eq_right (Nat.le_of_not_le within), min_self]
    rw [same]
    exact find_none magic.1 magic.2 le_rfl beyond

theorem fillIn_letters (whole : Str) (groups : List Str) {word : Str} (letters : ∀ b ∈ word, isPlainLetter b = true)
    (rest : Str) : fillIn whole groups (word ++ rest) = (fillIn whole groups rest).map (word ++ ·) := by
  induction word with
  | nil =>
      rw [List.nil_append]
      cases fillIn whole groups rest <;> rfl
  | cons b word ih =>
      have other := (plainLetter_apart b (letters b List.mem_cons_self)).2.2.2
      rw [List.cons_append, fillIn, ih fun c member => letters c (List.mem_cons_of_mem b member)]
      · cases fillIn whole groups rest <;> rfl
      · intro _ _ same
        exact absurd same other

/-- What is put in for the two bytes and the word. -/
theorem gsub_word (stands : Stands before inside) (stands' : Stands after inside')
    (letters : ∀ b ∈ orig, isPlainLetter b = true) {repl : Str} (letters' : ∀ b ∈ repl, isPlainLetter b = true)
    {d d' : UInt8} (first : inside d = true) (last : inside' d' = true) :
    gsub (d :: (orig ++ [d'])) (wordPattern before orig after) (lit "%1" ++ repl ++ lit "%2") 1 =
      .ok (d :: (repl ++ [d'])) := by
  have hit := matchAt_word stands stands' letters (d :: (orig ++ [d'])) 0
  have place : (d :: (orig ++ [d']))[0 + 1 + orig.length]? = some d' := by
    rw [Nat.zero_add, Nat.add_comm, List.getElem?_cons_succ, List.getElem?_append_right le_rfl, Nat.sub_self]
    rfl
  rw [if_pos ⟨first, List.prefix_append _ _, by rw [place]; exact last⟩] at hit
  have groups : captured (d :: (orig ++ [d'])) 0 (0 + 1 + orig.length + 1)
      [⟨0, .closed 1⟩, ⟨0 + 1 + orig.length, .closed 1⟩] = [[d], [d']] := by
    have last' : ((d :: (orig ++ [d'])).drop (0 + 1 + orig.length)).take 1 = [d'] := by
      rw [Nat.zero_add, Nat.add_comm, List.drop_succ_cons, List.drop_left]
      rfl
    rw [captured, if_neg (List.cons_ne_nil _ _)]
    exact congrArg (fun last => [[d], last]) last'
  have filled (whole : Str) : fillIn whole [[d], [d']] (lit "%1" ++ repl ++ lit "%2") = .ok (d :: (repl ++ [d'])) := by
    have opened (rest : Str) : fillIn whole [[d], [d']] (37 :: 49 :: rest) =
        (fillIn whole [[d], [d']] rest).map ([d] ++ ·) := rfl
    have closed : fillIn whole [[d], [d']] [37, 50] = .ok [d'] := rfl
    rw [show lit "%1" = [37, 49] by decide, show lit "%2" = [37, 50] by decide, List.append_assoc, List.cons_append,
      List.cons_append, List.nil_append, opened, fillIn_letters _ _ letters', closed]
    rfl
  have stop : (d :: (orig ++ [d'])).length = 0 + 1 + orig.length + 1 := by
    simp
    omega
  rw [gsub, gsubFrom, if_neg (by decide), hit]
  dsimp only
  rw [groups, filled, run_bind_ok, if_pos (by omega), stop, gsubFrom, if_pos rfl, run_bind_ok, run_pure,
    List.drop_of_length_le (by rw [stop]), List.append_nil]

end

end Maccer
