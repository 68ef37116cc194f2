import Maccer.WordSearch
import Maccer.Comments

/-! Source texts as words between white space and punctuation, and what one search of
`replacesingle` makes of them. -/

namespace Maccer

open Lua

/-- A word of a text with the byte before it. Whether it is in a comment is decided in the text in
which nothing has been replaced. -/
structure SourceWord where
  delimiter : UInt8
  word : Str
  commented : Bool
  deriving DecidableEq, Repr

def isDelimiter (b : UInt8) : Bool := isSpace b || isPunct b

/-- A text cut at white space and ASCII punctuation, where `i` bytes come before it: what comes
before the first delimiter, and the words. -/
def cutWords (comments : List (Int × Int)) : Nat → Str → Str × List SourceWord
  | _, [] => ([], [])
  | i, b :: rest =>
      let (first, later) := cutWords comments (i + 1) rest
      if isDelimiter b then
        ([], ⟨b, first, (List.range' (i + 1) first.length).any (inComment comments)⟩ :: later)
      else (b :: first, later)

def joinWords (ws : List SourceWord) : Str := ws.flatMap fun w => w.delimiter :: w.word

theorem joinWords_cons (w : SourceWord) (ws : List SourceWord) :
    joinWords (w :: ws) = w.delimiter :: (w.word ++ joinWords ws) := rfl

/-- Every word begins behind a delimiter and goes up to the next one. -/
def Cutting (ws : List SourceWord) : Prop :=
  ∀ w ∈ ws, isDelimiter w.delimiter = true ∧ ∀ b ∈ w.word, isDelimiter b = false

theorem cutWords_join (comments : List (Int × Int)) (i : Nat) (text : Str) :
    (cutWords comments i text).1 ++ joinWords (cutWords comments i text).2 = text := by
  induction text generalizing i with
  | nil => rfl
  | cons b text ih =>
      have later := ih (i + 1)
      rw [cutWords]
      dsimp only
      split
      case isTrue => rw [joinWords_cons, later, List.nil_append]
      case isFalse => rw [List.cons_append, later]

theorem cutWords_cutting (comments : List (Int × Int)) (i : Nat) (text : Str) :
    (∀ b ∈ (cutWords comments i text).1, isDelimiter b = false) ∧ Cutting (cutWords comments i text).2 := by
  induction text generalizing i with
  | nil => exact ⟨by simp [cutWords], fun w member => by cases member⟩
  | cons b text ih =>
      obtain ⟨first, later⟩ := ih (i + 1)
      rw [cutWords]
      dsimp only
      split
      case isTrue delimits =>
        refine ⟨by simp, fun w member => ?_⟩
        cases List.mem_cons.mp member with
        | inl same => rw [same]; exact ⟨delimits, first⟩
        | inr rest => exact later w rest
      case isFalse inside =>
        refine ⟨fun c member => ?_, later⟩
        cases List.mem_cons.mp member with
        | inl same => rw [same]; exact Bool.not_eq_true _ ▸ inside
        | inr rest => exact first c rest

/-- One search: the classes of the bytes before and behind the word, the word, and its replacement. -/
structure Search where
  before : UInt8 → Bool
  after : UInt8 → Bool
  orig : Str
  repl : Str

/-- What a search is meant to do: the word outside comments is replaced between its bytes. -/
def Search.run (p : Search) : List SourceWord → List SourceWord
  | [] => []
  | w :: rest =>
      (if w.commented = false ∧ p.before w.delimiter = true ∧ w.word = p.orig ∧
          rest.head?.any (fun next => p.after next.delimiter) = true then { w with word := p.repl } else w) :: p.run rest

/-- The search finds the word behind this delimiter, with what follows it. -/
def Search.Found (p : Search) (w : SourceWord) (rest : List SourceWord) : Prop :=
  p.before w.delimiter = true ∧ p.orig <+: w.word ++ joinWords rest ∧
    ((w.word ++ joinWords rest)[p.orig.length]?).any p.after = true

instance (p : Search) (w : SourceWord) (rest : List SourceWord) : Decidable (p.Found w rest) := by
  unfold Search.Found; infer_instance

/-- The search does not go wrong from a place of the text on, where it has been resumed at `init`:
it does not step over a word that it is to find; the table says of the delimiter's present place
whether the word is in a comment; where that stops it, nothing is left to replace; and what it
replaces is a whole word. -/
def Search.Smooth (p : Search) (comments : List (Int × Int)) : Nat → Nat → List SourceWord → Prop
  | _, _, [] => True
  | place, init, w :: rest =>
      if p.Found w rest then
        init ≤ place ∧ inComment comments place = w.commented ∧
          if w.commented then p.run rest = rest
          else w.word = p.orig ∧ p.Smooth comments (place + 1 + p.repl.length) (place + 1 + p.orig.length) rest
      else p.Smooth comments (place + 1 + w.word.length) init rest

theorem Search.run_length (p : Search) (ws : List SourceWord) : (p.run ws).length = ws.length := by
  induction ws with
  | nil => rfl
  | cons w rest ih => rw [Search.run, List.length_cons, List.length_cons, ih]

theorem plainLetter_delimits (b : UInt8) (letter : isPlainLetter b = true) : isDelimiter b = false := by
  obtain ⟨space, punct, _⟩ := plainLetter_apart b letter
  rw [isDelimiter, space, punct]
  rfl

namespace Search

variable {p : Search}

theorem run_cutting (letters : ∀ b ∈ p.repl, isPlainLetter b = true) {ws : List SourceWord} (cutting : Cutting ws) :
    Cutting (p.run ws) := by
  induction ws with
  | nil => exact cutting
  | cons w rest ih =>
      intro w' member
      have own := cutting w List.mem_cons_self
      cases List.mem_cons.mp member with
      | inr later => exact ih (fun w member => cutting w (List.mem_cons_of_mem _ member)) w' later
      | inl same =>
          rw [same]
          split
          case isTrue => exact ⟨own.1, fun b member => plainLetter_delimits b (letters b member)⟩
          case isFalse => exact own

/-- The pattern of a search. -/
structure Matches (p : Search) (before after : Str) : Prop where
  before : Stands before p.before
  after : Stands after p.after
  delimits : ∀ b, p.before b = true → isDelimiter b = true
  letters : ∀ b ∈ p.orig, isPlainLetter b = true
  letters' : ∀ b ∈ p.repl, isPlainLetter b = true

/-- The pattern matches at a delimiter just when the search finds the word there. -/
theorem between_here (front : Str) (w : SourceWord) (rest : List SourceWord) :
    Between p.before p.after p.orig (front ++ joinWords (w :: rest)) front.length ↔ p.Found w rest := by
  have here : (front ++ joinWords (w :: rest))[front.length]? = some w.delimiter := by
    rw [List.getElem?_append_right le_rfl, Nat.sub_self]
    rfl
  have behind : (front ++ joinWords (w :: rest)).drop (front.length + 1) = w.word ++ joinWords rest := by
    rw [List.drop_length_add_append]
    rfl
  rw [Between, here, behind, ← List.getElem?_drop, behind]
  rfl

/-- It matches nowhere else before the next one. -/
theorem between_inside (delimits : ∀ b, p.before b = true → isDelimiter b = true) {front inner : Str} (s : Str)
    (plain : ∀ b ∈ inner, isDelimiter b = false) {j : Nat} (after : front.length ≤ j)
    (less : j < front.length + inner.length) : ¬ Between p.before p.after p.orig (front ++ (inner ++ s)) j := by
  intro between
  obtain ⟨b, here, inside⟩ := (Option.any_eq_true _ _).mp between.1
  rw [List.getElem?_append_right after, List.getElem?_append_left (by omega)] at here
  have letter := plain b (List.mem_of_getElem? here)
  rw [delimits b inside] at letter
  cases letter

/-- A whole word is found by what delimits it. -/
theorem found_whole {w : SourceWord} (rest : List SourceWord) (whole : w.word = p.orig) :
    p.Found w rest ↔ p.before w.delimiter = true ∧ rest.head?.any (fun next => p.after next.delimiter) = true := by
  have behind : (w.word ++ joinWords rest)[p.orig.length]? = rest.head?.map SourceWord.delimiter := by
    rw [whole, List.getElem?_append_right le_rfl, Nat.sub_self]
    cases rest <;> rfl
  rw [Found, behind, Option.any_map, whole]
  exact and_congr_right fun _ => and_iff_right (List.prefix_append _ _)

theorem run_missed {w : SourceWord} {rest : List SourceWord} (missed : ¬ p.Found w rest) :
    p.run (w :: rest) = w :: p.run rest := by
  rw [run, if_neg]
  intro here
  exact missed ((found_whole rest here.2.2.1).mpr ⟨here.2.1, here.2.2.2⟩)

theorem run_commented {w : SourceWord} (rest : List SourceWord) (commented : w.commented = true) :
    p.run (w :: rest) = w :: p.run rest := by
  rw [run, if_neg]
  intro here
  rw [commented] at here
  cases here.1

theorem run_found {w : SourceWord} {rest : List SourceWord} (found : p.Found w rest) (whole : w.word = p.orig)
    (outside : w.commented = false) : p.run (w :: rest) = { w with word := p.repl } :: p.run rest := by
  obtain ⟨before, after⟩ := (found_whole rest whole).mp found
  rw [run, if_pos ⟨outside, before, whole, after⟩]

variable {before after : Str} {comments : List (Int × Int)}

/-- The loop of `replacesingle` for one pattern, with the search that it starts from. -/
def loop (p : Search) (before after : Str) (comments : List (Int × Int)) (fuel : Nat) (s : Str) (k : Nat) : Run Str := do
  let next ← find s (wordPattern before p.orig after) (k + 1)
  replaceFrom (wordPattern before p.orig after) (lit "%1" ++ p.repl ++ lit "%2") comments fuel s next

theorem loop_absent (pattern : p.Matches before after) (fuel : Nat) {s : Str} {k : Nat}
    (absent : ∀ j, k ≤ j → ¬ Between p.before p.after p.orig s j) :
    p.loop before after comments (fuel + 1) s k = .ok s := by
  rw [loop, find_word_none pattern.before pattern.after pattern.letters absent]
  rfl

theorem loop_commented (pattern : p.Matches before after) (fuel : Nat) {s : Str} {i k : Nat} (later : k ≤ i)
    (here : Between p.before p.after p.orig s i)
    (absent : ∀ j, k ≤ j → j < i → ¬ Between p.before p.after p.orig s j) (commented : inComment comments i = true) :
    p.loop before after comments (fuel + 1) s k = .ok s := by
  rw [loop, find_word_first pattern.before pattern.after pattern.letters later here absent, run_bind_ok, replaceFrom]
  exact if_pos commented

theorem loop_step (pattern : p.Matches before after) (fuel : Nat) {front rest : Str} {d d' : UInt8} {k : Nat}
    (later : k ≤ front.length) (first : p.before d = true) (last : p.after d' = true)
    (absent : ∀ j, k ≤ j → j < front.length →
      ¬ Between p.before p.after p.orig (front ++ d :: (p.orig ++ d' :: rest)) j)
    (outside : inComment comments front.length = false) :
    p.loop before after comments (fuel + 1) (front ++ d :: (p.orig ++ d' :: rest)) k =
      p.loop before after comments fuel (front ++ d :: (p.repl ++ d' :: rest)) (front.length + 1 + p.orig.length) := by
  have behind : (front ++ d :: (p.orig ++ d' :: rest)).drop (front.length + 1) = p.orig ++ d' :: rest := by
    rw [List.drop_length_add_append]
    rfl
  have here : Between p.before p.after p.orig (front ++ d :: (p.orig ++ d' :: rest)) front.length := by
    rw [Between, ← List.getElem?_drop, behind, List.getElem?_append_right le_rfl, List.getElem?_append_right le_rfl,
      Nat.sub_self, Nat.sub_self]
    exact ⟨first, List.prefix_append _ _, last⟩
  have hit : Lua.sub (front ++ d :: (p.orig ++ d' :: rest)) ((front.length : Int) + 1)
      ((front.length + 1 + p.orig.length + 1 : Nat) : Int) = d :: (p.orig ++ [d']) := by
    have middle := sub_middle front (d :: (p.orig ++ [d'])) rest
    have shape : front ++ (d :: (p.orig ++ [d'])) ++ rest = front ++ d :: (p.orig ++ d' :: rest) := by simp
    have stop : (front.length : Int) + (d :: (p.orig ++ [d'])).length =
        ((front.length + 1 + p.orig.length + 1 : Nat) : Int) := by
      simp only [List.length_cons, List.length_append, List.length_nil]
      omega
    rwa [shape, stop] at middle
  have start : Lua.sub (front ++ d :: (p.orig ++ d' :: rest)) 1 ((front.length : Int) + 1 - 1) = front := by
    rw [add_sub_cancel_right, sub_first, List.take_left]
  have ended : subFrom (front ++ d :: (p.orig ++ d' :: rest))
      (((front.length + 1 + p.orig.length + 1 : Nat) : Int) + 1) = rest := by
    rw [subFrom_succ, Nat.add_assoc, Nat.add_assoc, List.drop_length_add_append,
      show 1 + (p.orig.length + 1) = p.orig.length + 1 + 1 by omega, List.drop_succ_cons, List.drop_length_add_append]
    rfl
  rw [loop, find_word_first pattern.before pattern.after pattern.letters later here absent, run_bind_ok, replaceFrom]
  refine (if_neg (Bool.eq_false_iff.mp outside)).trans ?_
  rw [hit, gsub_word pattern.before pattern.after pattern.letters pattern.letters' first last, run_bind_ok, start, ended]
  have shape : front ++ d :: (p.repl ++ [d']) ++ rest = front ++ d :: (p.repl ++ d' :: rest) := by simp
  rw [shape, loop]
  rfl

/-- A search that does not go wrong does what it is meant to do. -/
theorem loop_words (pattern : p.Matches before after) {ws : List SourceWord} (cutting : Cutting ws) {front : Str}
    {k fuel : Nat} (enough : ws.length < fuel)
    (absent : ∀ j, k ≤ j → j < front.length → ¬ Between p.before p.after p.orig (front ++ joinWords ws) j)
    (smooth : p.Smooth comments front.length k ws) :
    p.loop before after comments fuel (front ++ joinWords ws) k = .ok (front ++ joinWords (p.run ws)) := by
  induction ws generalizing front k fuel with
  | nil =>
      obtain ⟨fuel, rfl⟩ : ∃ more, fuel = more + 1 := ⟨fuel - 1, by omega⟩
      refine loop_absent pattern fuel fun j later between => ?_
      by_cases inside : j < front.length
      · exact absent j later inside between
      · have first := between.1
        rw [List.getElem?_eq_none (by simp [joinWords]; omega)] at first
        cases first
  | cons w rest ih =>
      obtain ⟨fuel, rfl⟩ : ∃ more, fuel = more + 1 := ⟨fuel - 1, by omega⟩
      have own := cutting w List.mem_cons_self
      have cutting' : Cutting rest := fun other member => cutting other (List.mem_cons_of_mem w member)
      rw [List.length_cons] at enough
      by_cases found : p.Found w rest
      case neg =>
        -- the word is passed over
        rw [Smooth, if_neg found] at smooth
        have shape : front ++ joinWords (w :: rest) = front ++ w.delimiter :: w.word ++ joinWords rest := by
          simp [joinWords_cons]
        have length : (front ++ w.delimiter :: w.word).length = front.length + 1 + w.word.length := by
          simp only [List.length_append, List.length_cons]
          omega
        rw [← length] at smooth
        have step := @ih cutting' (front ++ w.delimiter :: w.word) k (fuel + 1) (by omega) (fun j later less => ?_) smooth
        · rw [shape, step, run_missed found, joinWords_cons]
          simp
        · rw [← shape]
          by_cases before : j < front.length
          · exact absent j later before
          · by_cases here : j = front.length
            · rw [here, between_here]
              exact found
            · have inner := @between_inside p pattern.delimits (front ++ [w.delimiter]) w.word (joinWords rest) own.2 j
                (by simp; omega) (by simp; omega)
              simpa [joinWords_cons] using inner
      case pos =>
        rw [Smooth, if_pos found] at smooth
        obtain ⟨later, status, smooth⟩ := smooth
        have here := (between_here front w rest).mpr found
        by_cases commented : w.commented = true
        case pos =>
          rw [if_pos commented] at smooth
          rw [loop_commented pattern fuel later here absent (status.trans commented), run_commented rest commented, smooth]
        case neg =>
          rw [if_neg commented] at smooth
          obtain ⟨whole, smooth⟩ := smooth
          have outside : w.commented = false := Bool.not_eq_true _ ▸ commented
          obtain ⟨before', after'⟩ := (found_whole rest whole).mp found
          obtain ⟨next, head, last⟩ := (Option.any_eq_true _ _).mp after'
          obtain ⟨rest, rfl⟩ := List.head?_eq_some_iff.mp head
          have shape (word : Str) : front ++ joinWords ({ w with word := word } :: next :: rest) =
              front ++ w.delimiter :: (word ++ next.delimiter :: (next.word ++ joinWords rest)) := rfl
          have shape' : front ++ joinWords (w :: next :: rest) =
              front ++ w.delimiter :: (p.orig ++ next.delimiter :: (next.word ++ joinWords rest)) := by
            rw [← whole]
            rfl
          rw [shape'] at absent
          rw [shape', loop_step pattern fuel later before' last absent (status.trans outside), run_found found whole outside]
          have length : (front ++ w.delimiter :: p.repl).length = front.length + 1 + p.repl.length := by
            simp only [List.length_append, List.length_cons]
            omega
          rw [← length] at smooth
          have joined : front ++ w.delimiter :: (p.repl ++ next.delimiter :: (next.word ++ joinWords rest)) =
              front ++ w.delimiter :: p.repl ++ joinWords (next :: rest) := by simp [joinWords_cons]
          have step := @ih cutting' (front ++ w.delimiter :: p.repl) _ fuel (by omega) (fun j later less => ?_) smooth
          · rw [joined, step]
            simp [joinWords_cons]
          · have inner := @between_inside p pattern.delimits (front ++ [w.delimiter]) p.repl (joinWords (next :: rest))
              (fun b member => plainLetter_delimits b (pattern.letters' b member)) j (by simp; omega)
              (by simp at less ⊢; omega)
            simpa using inner

end Search

end Maccer
