import Maccer.Lua.Matching
import Maccer.Dictionary

/-! `macra.LETTERS`: how the scripts find the words of a text. -/

namespace Maccer

open Lua

def LETTERS : Str :=
  lit "[^\t\n%s%d%!%\"%#%$%%%&%'%(%)%*%+%,%-%/%:%;%<%=%>%?%[%\\%]%^%_%`%\x7b%|%\x7d%~]+"

/-- Bytes of words: everything but white space, digits and ASCII punctuation,
where the period and the mark of user abbreviations count as letters. -/
def isLetter (b : UInt8) : Bool := !(isSpace b || isDigit b || isPunct b && b != 46 && b != 64)

/-- `text:find` for a run of letters, from the position `init` on. -/
def findRun (inside : UInt8 → Bool) (text : Str) (init : Int) : Option (Int × Int) :=
  (runFrom inside text (searchStart text init)).map fun (start, stop) => ((start : Int) + 1, stop)

def words (text : Str) : List Str := (text.splitOnP fun b => !isLetter b).filter (· ≠ [])

/-! The sets of the scripts list white space, digits and marks. -/

def escaped (marks : Str) : Str := marks.flatMap fun mark => [37, mark]

theorem inSet_escaped (b : UInt8) {marks : Str}
    (plain : marks.all (fun mark => (classOf mark).isNone && !isUpper mark) = true) :
    inSet b (9 :: 10 :: 37 :: 115 :: 37 :: 100 :: escaped marks) =
      (9 == b || (10 == b || (isSpace b || (isDigit b || marks.contains b)))) := by
  have listed : inSet b (escaped marks) = marks.contains b := by
    induction marks with
    | nil => rfl
    | cons mark marks ih =>
        rw [List.all_cons, Bool.and_eq_true, Bool.and_eq_true, Bool.not_eq_true', Option.isNone_iff_eq_none] at plain
        have single : matchClass b mark = (b == mark) := by
          rw [matchClass, plain.1.2, if_neg Bool.false_ne_true, plain.1.1, BEq.comm]
        have shape : escaped (mark :: marks) = 37 :: mark :: escaped marks := rfl
        rw [shape, inSet, ih plain.2, single, List.contains_cons]
  rw [← listed]
  rfl

theorem single_set (b : UInt8) (body : Str) : singleMatch b (91 :: (body ++ [93, 43])) [43] = matchSet b body := by
  have inside : (body ++ [93, 43]).take ((body ++ [93, 43]).length - [43].length - 1) = body := by
    apply List.take_left'
    simp
  exact congrArg (matchSet b) inside

def outerMarks : Str := lit "!\"#$%&'()*+,-/:;<=>?[\\]^_`\x7b|\x7d~"

theorem outerMarks_plain : outerMarks.all (fun mark => (classOf mark).isNone && !isUpper mark) = true := by
  rw [outerMarks, lit_chars]
  decide

theorem outerMarks_letters (b : UInt8) :
    (9 == b || (10 == b || (isSpace b || (isDigit b || outerMarks.contains b)))) = !isLetter b := by
  rw [outerMarks, lit_chars]
  exact byte_cases (fun b => (9 == b || (10 == b || (isSpace b || (isDigit b || List.contains _ b)))) = !isLetter b)
    (by decide +kernel) b

theorem inSet_marks {marks : Str} (perm : marks.Perm (64 :: outerMarks)) (b : UInt8) :
    inSet b (9 :: 10 :: 37 :: 115 :: 37 :: 100 :: escaped marks) = (b == 64 || !isLetter b) := by
  have plain : marks.all (fun mark => (classOf mark).isNone && !isUpper mark) = true := by
    rw [perm.all_eq, List.all_cons, outerMarks_plain]
    decide
  rw [inSet_escaped b plain, perm.contains_eq, List.contains_cons, ← outerMarks_letters]
  simp only [Bool.or_left_comm]

theorem letters_single (b : UInt8) : singleMatch b LETTERS [43] = isLetter b := by
  have shape : LETTERS = 91 :: (94 :: 9 :: 10 :: 37 :: 115 :: 37 :: 100 :: escaped outerMarks ++ [93, 43]) := by
    rw [LETTERS, outerMarks, lit_chars, lit_chars]
    decide
  rw [shape, single_set, matchSet, List.head?_cons, if_pos rfl, List.tail_cons, inSet_escaped b outerMarks_plain,
    outerMarks_letters, Bool.not_not]

theorem find_run (pattern body : Str) (inside : UInt8 → Bool) (s : Str) (init : Int)
    (shape : pattern = 91 :: body) (magic : hasPattern pattern = true)
    (closed : classEnd pattern = some [43]) (single : ∀ b, singleMatch b pattern [43] = inside b) :
    find s pattern init = .ok (findRun inside s init) := by
  have searched : findPattern s pattern init =
      .ok ((runFrom inside s (searchStart s init)).map fun (start, stop) => (start, stop, [])) := by
    rw [shape] at closed ⊢
    exact findPattern_run s inside 91 body init (by decide) (by decide) closed fun b => by
      rw [← shape, single]
  rw [find, if_pos magic, searched, findRun]
  cases runFrom inside s (searchStart s init) <;> rfl

theorem find_letters (s : Str) (init : Int) :
    find s LETTERS init = .ok (findRun isLetter s init) :=
  find_run LETTERS LETTERS.tail isLetter s init (by decide) (by decide) (by decide) letters_single

example : find (lit "— ā.b, 2 c") LETTERS 5 = .ok (some (5, 8)) := by decide

/-! Words of a text. -/

theorem mem_modifyHead {α : Type} (f : α → α) (l : List α) (a : α) (member : a ∈ l.modifyHead f) :
    a ∈ l ∨ ∃ b ∈ l, a = f b := by
  cases l with
  | nil => simp at member
  | cons head tail =>
      rcases List.mem_cons.mp member with rfl | later
      · exact .inr ⟨head, by simp, rfl⟩
      · exact .inl (by simp [later])

theorem splitOnP_parts (separates : UInt8 → Bool) (s : Str) :
    ∀ part ∈ s.splitOnP separates, ∀ b ∈ part, separates b = false := by
  induction s with
  | nil => simp
  | cons b s ih =>
      rw [List.splitOnP_cons_eq_if_modifyHead]
      cases here : separates b with
      | true => simpa using ih
      | false =>
          simp only [Bool.false_eq_true, if_false]
          intro part member
          rcases mem_modifyHead _ _ _ member with old | ⟨rest, old, rfl⟩
          · exact ih part old
          · intro a inside
            rcases List.mem_cons.mp inside with rfl | later
            · exact here
            · exact ih rest old a later

theorem words_letters {text w : Str} (member : w ∈ words text) : ∀ b ∈ w, isLetter b = true := by
  intro b inside
  simpa using splitOnP_parts _ text w (List.mem_of_mem_filter member) b inside

theorem words_ne_nil {text w : Str} (member : w ∈ words text) : w ≠ [] := by
  simpa using (List.mem_filter.mp member).2

theorem digitFree_of_letters {w : Str} (letters : ∀ b ∈ w, isLetter b = true) : DigitFree w := by
  intro b member
  have letter := letters b member
  simp only [isLetter, Bool.not_eq_true', Bool.or_eq_false_iff] at letter
  exact letter.1.2

theorem isLetter_high (b : UInt8) (high : 128 ≤ b) : isLetter b = true := by
  grind [isLetter, isSpace, isDigit, isPunct, inRange]

theorem char_letters (c : Str) (char : Utf8.isChar c = true) : (∃ b, c = [b]) ∨ ∀ b ∈ c, isLetter b = true := by
  match c, char with
  | [a], _ => exact .inl ⟨a, rfl⟩
  | [a, b], valid =>
      simp only [Utf8.isChar, Utf8.isTail, Bool.and_eq_true, decide_eq_true_eq] at valid
      refine .inr ?_
      have first := isLetter_high a (by grind)
      have second := isLetter_high b (by grind)
      simp [first, second]
  | [a, b, c], valid =>
      simp only [Utf8.isChar, Utf8.isTail, Bool.and_eq_true, Bool.or_eq_true, decide_eq_true_eq,
        beq_iff_eq] at valid
      refine .inr ?_
      have first := isLetter_high a (by grind)
      have second := isLetter_high b (by grind)
      have third := isLetter_high c (by grind)
      simp [first, second, third]
  | [a, b, c, d], valid =>
      simp only [Utf8.isChar, Utf8.isTail, Bool.and_eq_true, Bool.or_eq_true, decide_eq_true_eq,
        beq_iff_eq] at valid
      refine .inr ?_
      have first := isLetter_high a (by grind)
      have second := isLetter_high b (by grind)
      have third := isLetter_high c (by grind)
      have fourth := isLetter_high d (by grind)
      simp [first, second, third, fourth]

theorem splitOnP_front (front s : Str) (letters : ∀ b ∈ front, isLetter b = true) :
    (front ++ s).splitOnP (fun b => !isLetter b) =
      (s.splitOnP fun b => !isLetter b).modifyHead (front ++ ·) := by
  induction front with
  | nil => exact (congrFun List.modifyHead_id _).symm
  | cons b front ih =>
      have letter : isLetter b = true := letters b (by simp)
      rw [List.cons_append, List.splitOnP_cons_eq_if_modifyHead,
        ih fun a member => letters a (by simp [member])]
      simp [letter, List.modifyHead_modifyHead, Function.comp_def]

theorem splitOnP_chars (cs : List Str) (chars : ∀ c ∈ cs, Utf8.isChar c = true) :
    ∀ part ∈ cs.flatten.splitOnP (fun b => !isLetter b), ∃ ds ⊆ cs, part = ds.flatten := by
  induction cs with
  | nil =>
      intro part member
      exact ⟨[], List.nil_subset _, by simpa using member⟩
  | cons c cs ih =>
      have later := ih fun d member => chars d (by simp [member])
      rw [List.flatten_cons]
      by_cases letters : ∀ b ∈ c, isLetter b = true
      · rw [splitOnP_front c _ letters]
        intro part member
        rcases mem_modifyHead _ _ _ member with old | ⟨rest, old, rfl⟩
        · obtain ⟨ds, among, rfl⟩ := later part old
          exact ⟨ds, List.subset_cons_of_subset c among, rfl⟩
        · obtain ⟨ds, among, rfl⟩ := later rest old
          exact ⟨c :: ds, List.cons_subset_cons c among, rfl⟩
      · obtain ⟨b, rfl⟩ := (char_letters c (chars c (by simp))).resolve_right letters
        have separates : isLetter b = false := by simpa using letters
        rw [List.singleton_append, List.splitOnP_cons_eq_if_modifyHead]
        simp only [separates, Bool.not_false, if_true]
        intro part member
        rcases List.mem_cons.mp member with rfl | old
        · exact ⟨[], List.nil_subset _, rfl⟩
        · obtain ⟨ds, among, rfl⟩ := later part old
          exact ⟨ds, List.subset_cons_of_subset [b] among, rfl⟩

theorem words_encoded {text w : Str} (encoded : Utf8.Encoded text) (member : w ∈ words text) : Utf8.Encoded w := by
  obtain ⟨cs, chars, rfl⟩ := encoded
  obtain ⟨ds, among, whole⟩ := splitOnP_chars cs chars w (List.mem_of_mem_filter member)
  exact ⟨ds, fun c inside => chars c (among inside), whole⟩

theorem words_valid {text w : Str} (valid : Utf8.Valid text) (member : w ∈ words text) :
    Utf8.Valid w := by
  obtain ⟨cs, readable, rfl⟩ := valid
  have chars : ∀ c ∈ cs, Utf8.isChar c = true := fun c inside => (readable c inside).1
  obtain ⟨ds, among, whole⟩ := splitOnP_chars cs chars w (List.mem_of_mem_filter member)
  exact ⟨ds, fun c inside => readable c (among inside), whole⟩

theorem words_separated {a b : Str} {x : UInt8} (separates : isLetter x = false) :
    words (a ++ x :: b) = words a ++ words b := by
  rw [words, List.splitOnP_append_cons a b (by simp [separates]), List.filter_append]
  rfl

theorem words_append {a b : Str}
    (apart : ∀ x ∈ a.getLast?, ∀ y ∈ b.head?, isLetter x = false ∨ isLetter y = false) :
    words (a ++ b) = words a ++ words b := by
  have none' : words [] = [] := rfl
  cases b with
  | nil => rw [List.append_nil, none', List.append_nil]
  | cons y b =>
      rcases List.eq_nil_or_concat' a with rfl | ⟨a, x, rfl⟩
      · rfl
      · rcases apart x (by simp) y rfl with separates | separates
        · rw [List.append_assoc, List.singleton_append, words_separated separates, words_separated separates, none',
            List.append_nil]
        · have alone : words (y :: b) = words b := words_separated (a := []) separates
          rw [words_separated separates, alone]

theorem words_run {w rest : Str} (filled : w ≠ []) (within : ∀ b ∈ w, isLetter b = true)
    (ended : ∀ b ∈ rest.head?, isLetter b = false) : words (w ++ rest) = w :: words rest := by
  have whole : words w = [w] := by
    rw [words, List.splitOnP_eq_singleton (by simpa using within)]
    simp [filled]
  rw [words_append fun _ _ y member => .inr (ended y member), whole, List.singleton_append]

theorem words_gap {w : Str} (outside : ∀ b ∈ w, isLetter b = false) : words w = [] := by
  induction w with
  | nil => rfl
  | cons b w ih =>
      have alone : words (b :: w) = words w := words_separated (a := []) (outside b List.mem_cons_self)
      rw [alone, ih fun c member => outside c (List.mem_cons_of_mem b member)]

theorem words_gap_append {w rest : Str} (outside : ∀ b ∈ w, isLetter b = false) : words (w ++ rest) = words rest := by
  rw [words_append fun b last _ _ => .inl (outside b (List.mem_of_mem_getLast? last)), words_gap outside, List.nil_append]

theorem words_append_gap {front w : Str} (outside : ∀ b ∈ w, isLetter b = false) : words (front ++ w) = words front := by
  rw [words_append fun _ _ b first => .inr (outside b (List.mem_of_mem_head? first)), words_gap outside, List.append_nil]

theorem plain_valid {w : Str} (valid : Utf8.Valid w) : ∃ p, plain w = .ok p := by
  obtain ⟨cs, readable, rfl⟩ := valid
  exact ⟨_, Utf8.replace_flatten cs readable _⟩

end Maccer
