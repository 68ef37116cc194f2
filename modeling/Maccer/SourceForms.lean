import Maccer.SourceWords
import Maccer.Trimming

/-! What `replaceintext` makes of a source: the searches of its three rounds, one after the other. -/

namespace Maccer

open Lua

/-! Letters and their capitals. -/

/-- The capital of a character, as `macra.utf8upper` puts it in. -/
def upperChar (u : Unicode) (c : Str) : Str :=
  if c.length = 1 then upper c else (field u.capstbl c).getD c

/-- A word with its first letter capitalized, whether that has a macron or not. -/
def capitalForm (u : Unicode) (w : Str) : Str := ((Utf8.chars w).1.modifyHead (upperChar u)).flatten

def allcaps (u : Unicode) (w : Str) : Str := ((Utf8.chars w).1.map (upperChar u)).flatten

/-- What `macra.utf8capitalize` makes of a word. -/
def firstByteCapital (w : Str) : Str := upper (w.take 1) ++ w.drop 1

/-- A word of letters, in valid text. -/
structure SearchWord (w : Str) : Prop where
  filled : w ≠ []
  letters : ∀ b ∈ w, isPlainLetter b = true
  valid : Utf8.Valid w

/-! The words of a text. -/

/-- Each whole word outside comments that is one of the given words gives way to its replacement, unless a period is
behind it. -/
def replaceWords (forms : List (Str × Str)) : List SourceWord → List SourceWord
  | [] => []
  | w :: rest =>
      (if w.commented = false ∧ rest.head?.any (fun next => next.delimiter != 46) = true then
        { w with word := (forms.lookup w.word).getD w.word } else w) :: replaceWords forms rest

/-- The text with these words, and all else as it is. -/
def replacedText (comments : List (Int × Int)) (forms : List (Str × Str)) (text : Str) : Str :=
  (cutWords comments 0 text).1 ++ joinWords (replaceWords forms (cutWords comments 0 text).2)

/-- The word, the word with a capital, and the word in capitals. -/
def caseForms (u : Unicode) (orig repl : Str) : List (Str × Str) :=
  [(orig, repl), (capitalForm u orig, capitalForm u repl), (allcaps u orig, allcaps u repl)]

/-- The searches of `replacesingle`. -/
def wordSearches (orig repl : Str) : List Search :=
  [⟨isSpace, isSpace, orig, repl⟩, ⟨isPunct, isSpace, orig, repl⟩, ⟨isSpace, isBound, orig, repl⟩,
    ⟨isPunct, isBound, orig, repl⟩]

/-- The searches of `replaceintext`. -/
def caseSearches (u : Unicode) (orig repl : Str) : List Search :=
  wordSearches orig repl ++ wordSearches (firstByteCapital orig) (firstByteCapital repl) ++
    wordSearches (allcaps u orig) (allcaps u repl)

/-- Each search goes right on what the ones before it have left. -/
def AllSmooth (comments : List (Int × Int)) (place : Nat) : List Search → List SourceWord → Prop
  | [], _ => True
  | p :: ps, ws => p.Smooth comments place 0 ws ∧ AllSmooth comments place ps (p.run ws)

/-- The whole words outside comments, but those with a period behind. -/
def wholeWords : List SourceWord → List Str
  | [] => []
  | w :: rest =>
      if w.commented = false ∧ rest.head?.any (fun next => next.delimiter != 46) = true then w.word :: wholeWords rest
      else wholeWords rest

/-- The words and their replacements with the capitals that the script makes. -/
def scriptForms (u : Unicode) (orig repl : Str) : List (Str × Str) :=
  [(orig, repl), (firstByteCapital orig, firstByteCapital repl), (allcaps u orig, allcaps u repl)]

def CapitalMeant (u : Unicode) (orig repl : Str) : Prop :=
  ((scriptForms u orig repl).lookup (capitalForm u orig)).getD (capitalForm u orig) =
    ((caseForms u orig repl).lookup (capitalForm u orig)).getD (capitalForm u orig)

/-- The capitals of the script do for the capitalized word, or it does not stand in the text; and each search goes right
on what the ones before it have left. -/
structure Manageable (u : Unicode) (comments : List (Int × Int)) (text orig repl : Str) : Prop where
  capitals : CapitalMeant u orig repl ∨ capitalForm u orig ∉ wholeWords (cutWords comments 0 text).2
  smooth : AllSmooth comments (cutWords comments 0 text).1.length (caseSearches u orig repl) (cutWords comments 0 text).2

instance (p : Search) (comments : List (Int × Int)) : (place init : Nat) → (ws : List SourceWord) →
    Decidable (p.Smooth comments place init ws)
  | _, _, [] => .isTrue trivial
  | place, init, w :: rest =>
      have := instDecidableSmooth p comments (place + 1 + p.repl.length) (place + 1 + p.orig.length) rest
      have := instDecidableSmooth p comments (place + 1 + w.word.length) init rest
      inferInstanceAs (Decidable (if p.Found w rest then init ≤ place ∧ inComment comments place = w.commented ∧
          if w.commented then p.run rest = rest
          else w.word = p.orig ∧ p.Smooth comments (place + 1 + p.repl.length) (place + 1 + p.orig.length) rest
        else p.Smooth comments (place + 1 + w.word.length) init rest))

instance (comments : List (Int × Int)) (place : Nat) : (ps : List Search) → (ws : List SourceWord) →
    Decidable (AllSmooth comments place ps ws)
  | [], _ => .isTrue trivial
  | p :: ps, ws =>
      have := instDecidableAllSmooth comments place ps (p.run ws)
      inferInstanceAs (Decidable (p.Smooth comments place 0 ws ∧ AllSmooth comments place ps (p.run ws)))

instance (u : Unicode) (orig repl : Str) : Decidable (CapitalMeant u orig repl) :=
  inferInstanceAs (Decidable (_ = _))

instance (u : Unicode) (comments : List (Int × Int)) (text orig repl : Str) :
    Decidable (Manageable u comments text orig repl) :=
  decidable_of_iff (_ ∧ _) ⟨fun here => ⟨here.1, here.2⟩, fun here => ⟨here.capitals, here.smooth⟩⟩

/-! The searches, word by word. -/

namespace Search

/-- What a search makes of a word that has a delimiter behind it, or the end of the text. -/
def turn (p : Search) (w : SourceWord) (behind : Option UInt8) (word : Str) : Str :=
  if w.commented = false ∧ p.before w.delimiter = true ∧ word = p.orig ∧ behind.any p.after = true then p.repl else word

theorem run_cons (p : Search) (w : SourceWord) (rest : List SourceWord) :
    p.run (w :: rest) = { w with word := p.turn w (rest.head?.map SourceWord.delimiter) w.word } :: p.run rest := by
  rw [run, turn, Option.any_map]
  split <;> rfl

theorem run_behind (p : Search) (ws : List SourceWord) :
    (p.run ws).head?.map SourceWord.delimiter = ws.head?.map SourceWord.delimiter := by
  cases ws with
  | nil => rfl
  | cons w rest => rw [run_cons]; rfl

end Search

def runSearches (ps : List Search) (ws : List SourceWord) : List SourceWord := ps.foldl (fun ws p => p.run ws) ws

def turns (ps : List Search) (w : SourceWord) (behind : Option UInt8) (word : Str) : Str :=
  ps.foldl (fun word p => p.turn w behind word) word

theorem runSearches_cons (ps : List Search) (w : SourceWord) (rest : List SourceWord) :
    runSearches ps (w :: rest) =
      { w with word := turns ps w (rest.head?.map SourceWord.delimiter) w.word } :: runSearches ps rest := by
  induction ps generalizing w rest with
  | nil => rfl
  | cons p ps ih =>
      have step : runSearches (p :: ps) (w :: rest) = runSearches ps (p.run (w :: rest)) := rfl
      rw [step, Search.run_cons, ih, Search.run_behind]
      rfl

theorem runSearches_nil (ps : List Search) : runSearches ps [] = [] := by
  induction ps with
  | nil => rfl
  | cons p ps ih => exact ih

theorem turns_append (ps qs : List Search) (w : SourceWord) (behind : Option UInt8) (word : Str) :
    turns (ps ++ qs) w behind word = turns qs w behind (turns ps w behind word) :=
  List.foldl_append

/-- Of a delimiter only the period is none of the bytes behind a word. -/
theorem isBound_delimiter {b : UInt8} (delimits : isDelimiter b = true) : isBound b = (b != 46) := by
  grind [isBound, isDelimiter, isSpace, isPunct, isDigit, inRange]

/-- The four searches of one word replace it wherever it is whole. -/
theorem turns_word (orig repl : Str) (w : SourceWord) (delimits : isDelimiter w.delimiter = true) (behind : Option UInt8)
    (delimits' : ∀ b ∈ behind, isDelimiter b = true) (word : Str) :
    turns (wordSearches orig repl) w behind word =
      if w.commented = false ∧ behind.any (· != 46) = true ∧ word = orig then repl else word := by
  have last : behind.any isBound = behind.any (· != 46) := by
    cases behind with
    | none => rfl
    | some b => exact isBound_delimiter (delimits' b rfl)
  have space : behind.any isSpace = true → behind.any (· != 46) = true := by
    cases behind with
    | none => exact id
    | some b =>
        intro inside
        have delimits := isBound_delimiter (delimits' b rfl)
        have bound : isBound b = true := by
          rw [isBound, show isSpace b = true from inside]
          rfl
        exact delimits.symm.trans bound
  have either : isSpace w.delimiter = true ∨ isPunct w.delimiter = true := by
    rwa [isDelimiter, Bool.or_eq_true] at delimits
  simp only [turns, wordSearches, List.foldl_cons, List.foldl_nil, Search.turn, last]
  by_cases same : repl = orig
  · subst same
    grind
  · by_cases here : word = orig
    · grind
    · grind

/-! Capitals of capitals. -/

theorem upper_upper (s : Str) : upper (upper s) = upper s := by
  rw [upper, upper, List.map_map]
  refine List.map_congr_left fun b _ => ?_
  grind [isLower, inRange]

theorem firstByteCapital_cons (b : UInt8) (w : Str) : firstByteCapital (b :: w) = (if isLower b then b - 32 else b) :: w :=
  rfl

theorem firstByteCapital_twice (w : Str) : firstByteCapital (firstByteCapital w) = firstByteCapital w := by
  cases w with
  | nil => rfl
  | cons b w =>
      rw [firstByteCapital_cons, firstByteCapital_cons, List.cons.injEq]
      exact ⟨by grind [isLower, inRange], rfl⟩

set_option maxRecDepth 8000 in
theorem capitals_long : ∀ e ∈ unicode.capstbl.entries, e.1.length ≠ 1 → 1 < e.2.length ∧
    field unicode.capstbl e.2 = none ∧ Utf8.isChar e.2 = true ∧ e.2.all (128 ≤ ·) = true := by
  decide

theorem upperChar_single (c : Str) (single : c.length = 1) : upperChar unicode c = upper c := if_pos single

theorem upperChar_cases (c : Str) (long : c.length ≠ 1) :
    upperChar unicode c = c ∨ field unicode.capstbl c = some (upperChar unicode c) := by
  rw [upperChar, if_neg long]
  cases field unicode.capstbl c with
  | none => exact .inl rfl
  | some capital => exact .inr rfl

theorem upperChar_twice (c : Str) : upperChar unicode (upperChar unicode c) = upperChar unicode c := by
  by_cases single : c.length = 1
  · have again : (upper c).length = 1 := by rw [upper, List.length_map, single]
    rw [upperChar_single c single, upperChar_single _ again, upper_upper]
  · cases upperChar_cases c single with
    | inl same => rw [same, same]
    | inr capital =>
        obtain ⟨long, last, _⟩ := capitals_long ⟨c, upperChar unicode c⟩ (AList.mem_lookup_iff.mp capital) single
        rw [upperChar, if_neg (Nat.ne_of_gt long), last, Option.getD_none]

theorem upper_readable {c : Str} (readable : Utf8.Readable c) (single : c.length = 1) : Utf8.Readable (upper c) := by
  obtain ⟨b, rfl⟩ := List.length_eq_one_iff.mp single
  obtain ⟨char, filled⟩ := readable
  have low : b ≤ 0x7F := by simpa [Utf8.isChar] using char
  have nonzero : b ≠ 0 := fun zero => filled (by rw [zero])
  have shape : upper [b] = [if isLower b then b - 32 else b] := rfl
  rw [shape]
  constructor
  · simp only [Utf8.isChar, decide_eq_true_eq]
    grind [isLower, inRange]
  · rw [Ne, List.cons.injEq]
    grind [isLower, inRange]

theorem upperChar_readable {c : Str} (readable : Utf8.Readable c) : Utf8.Readable (upperChar unicode c) := by
  by_cases single : c.length = 1
  · rw [upperChar_single c single]
    exact upper_readable readable single
  · cases upperChar_cases c single with
    | inl same => rwa [same]
    | inr capital =>
        obtain ⟨long, _, char, _⟩ := capitals_long ⟨c, upperChar unicode c⟩ (AList.mem_lookup_iff.mp capital) single
        exact ⟨char, fun zero => absurd (congrArg List.length zero) (Nat.ne_of_gt long)⟩

theorem plainLetter_upper (b : UInt8) (letter : isPlainLetter b = true) :
    isPlainLetter (if isLower b then b - 32 else b) = true := by
  grind [isPlainLetter, isAlpha, isUpper, isLower, inRange]

theorem upperChar_letters {c : Str} (letters : ∀ b ∈ c, isPlainLetter b = true) :
    ∀ b ∈ upperChar unicode c, isPlainLetter b = true := by
  by_cases single : c.length = 1
  · rw [upperChar_single c single]
    intro b member
    obtain ⟨a, inside, rfl⟩ := List.mem_map.mp member
    exact plainLetter_upper a (letters a inside)
  · cases upperChar_cases c single with
    | inl same => rwa [same]
    | inr capital =>
        obtain ⟨_, _, _, high⟩ := capitals_long ⟨c, upperChar unicode c⟩ (AList.mem_lookup_iff.mp capital) single
        intro b member
        have above := of_decide_eq_true (List.all_eq_true.mp high b member)
        rw [isPlainLetter, decide_eq_true above, Bool.or_true]

section

variable {cs : List Str} (readable : ∀ c ∈ cs, Utf8.Readable c)
include readable

theorem allcaps_flatten : allcaps unicode cs.flatten = (cs.map (upperChar unicode)).flatten := by
  rw [allcaps, Utf8.chars_flatten cs readable]

theorem allcaps_twice : allcaps unicode (allcaps unicode cs.flatten) = allcaps unicode cs.flatten := by
  have inside : ∀ c ∈ cs.map (upperChar unicode), Utf8.Readable c := by
    intro c member
    obtain ⟨d, before, rfl⟩ := List.mem_map.mp member
    exact upperChar_readable (readable d before)
  rw [allcaps_flatten readable, allcaps, Utf8.chars_flatten _ inside, List.map_map]
  congr 1
  exact List.map_congr_left fun c _ => upperChar_twice c

/-- The word with its first byte capitalized, by characters. -/
theorem firstByteCapital_flatten : ∃ ds : List Str, (∀ d ∈ ds, Utf8.Readable d) ∧
    firstByteCapital cs.flatten = ds.flatten ∧ ds.map (upperChar unicode) = cs.map (upperChar unicode) := by
  cases cs with
  | nil => exact ⟨[], by simp, rfl, rfl⟩
  | cons c cs =>
      obtain ⟨b, tail, rfl, size⟩ := Utf8.charbytes_of_readable c (readable c List.mem_cons_self)
      have rest := fun d member => readable d (List.mem_cons_of_mem _ member)
      have first : firstByteCapital ((b :: tail) :: cs).flatten =
          ((if isLower b then b - 32 else b) :: tail) ++ cs.flatten := rfl
      by_cases single : tail = []
      · subst single
        have lone : ([b] : Str).length = 1 := rfl
        refine ⟨upper [b] :: cs, ?_, first, ?_⟩
        · rw [List.forall_mem_cons]
          exact ⟨upper_readable (readable _ List.mem_cons_self) rfl, rest⟩
        · rw [List.map_cons, List.map_cons, ← upperChar_single [b] lone, upperChar_twice]
      · have high : isLower b = false := by
          have multi := Tables.high_of_multi (readable _ List.mem_cons_self).1 (by
            have := List.length_pos_iff.mpr single
            rw [List.length_cons]
            omega) b List.mem_cons_self
          grind [isLower, inRange]
        rw [high] at first
        exact ⟨(b :: tail) :: cs, readable, first, rfl⟩

theorem allcaps_firstByteCapital : allcaps unicode (firstByteCapital cs.flatten) = allcaps unicode cs.flatten := by
  obtain ⟨ds, readable', shape, same⟩ := firstByteCapital_flatten readable
  rw [shape, allcaps_flatten readable', allcaps_flatten readable, same]

/-- `macra.utf8upper` on a word. -/
theorem utf8upper_run : utf8upper unicode cs.flatten = .ok (allcaps unicode cs.flatten) := by
  have decodes := Utf8.decodes_of_readable readable
  have loop (front back : List Str) (shape : cs = front ++ back) (capstr : Str) :
      ((List.range' (front.length + 1) back.length).map fun pos : Nat => (pos : Int)).foldlM (fun capstr pos => do
        let poschar ← Utf8.sub cs.flatten pos pos
        return capstr ++
          if poschar.length = 1 then upper poschar else (field unicode.capstbl poschar).getD poschar) capstr =
        (.ok (capstr ++ (back.map (upperChar unicode)).flatten) : Run Str) := by
    induction back generalizing front capstr with
    | nil => simp
    | cons c back ih =>
        have here : cs[front.length]? = some c := by
          rw [shape, List.getElem?_append_right le_rfl, Nat.sub_self]
          rfl
        have char := Utf8.sub_char decodes here
        have next := ih (front ++ [c]) (by rw [shape]; simp) (capstr ++ upperChar unicode c)
        rw [List.length_append, List.length_singleton] at next
        rw [List.length_cons, List.range'_succ, List.map_cons, List.foldlM_cons, Nat.cast_add, Nat.cast_one, char,
          run_bind_ok]
        refine next.trans ?_
        rw [List.map_cons, List.flatten_cons, List.append_assoc]
  have numbers : (do let pos ← List.range' 1 cs.length; pure (pos : Int)) =
      (List.range' 1 cs.length).map fun pos : Nat => (pos : Int) := bind_pure_comp _ _
  rw [utf8upper, Utf8.len_decodes decodes, run_bind_ok, allcaps_flatten readable, numbers]
  exact loop [] cs rfl []

theorem utf8capitalize_run (filled : cs ≠ []) : utf8capitalize cs.flatten = .ok (firstByteCapital cs.flatten) := by
  obtain ⟨c, rest, rfl⟩ := List.exists_cons_of_ne_nil filled
  have first := Utf8.sub_char (Utf8.decodes_of_readable readable) (i := 0) (c := c) rfl
  rw [Nat.cast_zero, Int.zero_add] at first
  rw [utf8capitalize, first]
  rfl

end

/-! One word after another. -/

/-- What the three rounds make of a word, with the capitals that the script makes. -/
def rounds (u : Unicode) (orig repl word : Str) : Str :=
  let word := if word = orig then repl else word
  let word := if word = firstByteCapital orig then firstByteCapital repl else word
  if word = allcaps u orig then allcaps u repl else word

theorem turns_rounds (u : Unicode) (orig repl : Str) (w : SourceWord) (delimits : isDelimiter w.delimiter = true)
    (behind : Option UInt8) (delimits' : ∀ b ∈ behind, isDelimiter b = true) (word : Str) :
    turns (caseSearches u orig repl) w behind word =
      if w.commented = false ∧ behind.any (· != 46) = true then rounds u orig repl word else word := by
  rw [caseSearches, turns_append, turns_append, turns_word orig repl w delimits behind delimits',
    turns_word _ _ w delimits behind delimits', turns_word _ _ w delimits behind delimits']
  by_cases outside : w.commented = false ∧ behind.any (· != 46) = true
  · simp only [outside, rounds, true_and, and_self, if_true]
  · have never (word' : Str) (P : Prop) : ¬ (w.commented = false ∧ behind.any (· != 46) = true ∧ P) :=
      fun here => outside ⟨here.1, here.2.1⟩
    rw [if_neg (never word _), if_neg (never word _), if_neg (never word _), if_neg outside]

theorem firstByteCapital_or {w : Str} (word : SearchWord w) :
    firstByteCapital w = capitalForm unicode w ∨ firstByteCapital w = w := by
  obtain ⟨cs, readable, rfl⟩ := word.valid
  rw [capitalForm, Utf8.chars_flatten cs readable]
  cases cs with
  | nil => exact .inr rfl
  | cons c cs =>
      by_cases single : c.length = 1
      · obtain ⟨b, rfl⟩ := List.length_eq_one_iff.mp single
        exact .inl (congrArg (· ++ cs.flatten) (upperChar_single [b] single).symm)
      · refine .inr ?_
        obtain ⟨b, tail, rfl, size⟩ := Utf8.charbytes_of_readable c (readable c List.mem_cons_self)
        have filled : tail ≠ [] := fun empty => single (by rw [empty]; rfl)
        have high := Tables.high_of_multi (readable _ List.mem_cons_self).1 (by
          have := List.length_pos_iff.mpr filled
          rw [List.length_cons]
          omega) b List.mem_cons_self
        have kept : isLower b = false := by grind [isLower, inRange]
        rw [List.flatten_cons, List.cons_append, firstByteCapital_cons, kept]
        rfl

section

variable {orig repl : Str} (origw : SearchWord orig) (replw : SearchWord repl)
include origw replw

/-- A word is replaced in one round only: what it is replaced by stays in the later ones. -/
theorem rounds_lookup (word : Str) :
    rounds unicode orig repl word = ((scriptForms unicode orig repl).lookup word).getD word := by
  obtain ⟨os, origs, shape⟩ := origw.valid
  obtain ⟨rs, repls, shape'⟩ := replw.valid
  have twice := allcaps_twice origs
  have caps := allcaps_firstByteCapital repls
  rw [← shape] at twice
  rw [← shape'] at caps
  have first : repl = firstByteCapital orig → firstByteCapital repl = repl := fun same => by
    rw [same, firstByteCapital_twice]
  have all : repl = allcaps unicode orig → allcaps unicode repl = repl := fun same => by rw [same, twice]
  have mixed : firstByteCapital repl = allcaps unicode orig → allcaps unicode repl = firstByteCapital repl := fun same => by
    rw [← caps, same, twice]
  simp only [rounds, scriptForms, List.lookup_cons, List.lookup_nil]
  grind

/-- Only for the capitalized word is this not always what it is to be. -/
theorem lookup_forms {word : Str} (capitals : CapitalMeant unicode orig repl ∨ word ≠ capitalForm unicode orig) :
    rounds unicode orig repl word = ((caseForms unicode orig repl).lookup word).getD word := by
  rw [rounds_lookup origw replw]
  by_cases capital : word = capitalForm unicode orig
  · cases capitals with
    | inl meant => rw [capital, meant]
    | inr other => exact absurd capital other
  · have either := firstByteCapital_or origw
    simp only [scriptForms, caseForms, List.lookup_cons, List.lookup_nil]
    grind

end

theorem plain_firstByteCapital {w : Str} (letters : ∀ b ∈ w, isPlainLetter b = true) :
    ∀ b ∈ firstByteCapital w, isPlainLetter b = true := by
  cases w with
  | nil => exact fun b member => by cases member
  | cons a w =>
      rw [firstByteCapital_cons, List.forall_mem_cons]
      exact ⟨plainLetter_upper a (letters a List.mem_cons_self), fun b member => letters b (List.mem_cons_of_mem a member)⟩

theorem plain_allcaps {w : Str} (word : SearchWord w) : ∀ b ∈ allcaps unicode w, isPlainLetter b = true := by
  obtain ⟨cs, readable, rfl⟩ := word.valid
  rw [allcaps_flatten readable]
  intro b member
  obtain ⟨d, inside, here⟩ := List.mem_flatten.mp member
  obtain ⟨c, before, rfl⟩ := List.mem_map.mp inside
  exact upperChar_letters (fun a own => word.letters a (List.mem_flatten.mpr ⟨c, before, own⟩)) b here

/-- The rounds do to the words of a text what is meant. -/
theorem runSearches_replaceWords {orig repl : Str} (origw : SearchWord orig) (replw : SearchWord repl)
    {ws : List SourceWord} (cutting : Cutting ws) (capitals : CapitalMeant unicode orig repl ∨ capitalForm unicode orig ∉ wholeWords ws) :
    runSearches (caseSearches unicode orig repl) ws = replaceWords (caseForms unicode orig repl) ws := by
  induction ws with
  | nil => exact runSearches_nil _
  | cons w rest ih =>
      have delimits' : ∀ b ∈ rest.head?.map SourceWord.delimiter, isDelimiter b = true := by
        intro b member
        obtain ⟨next, head, rfl⟩ := Option.map_eq_some_iff.mp (Option.mem_def.mp member)
        exact (cutting next (List.mem_cons_of_mem w (List.mem_of_mem_head? head))).1
      have later := ih (fun v member => cutting v (List.mem_cons_of_mem w member)) (capitals.imp_right fun absent inside =>
        absent (by rw [wholeWords]; split; exacts [List.mem_cons_of_mem _ inside, inside]))
      rw [runSearches_cons, later, turns_rounds unicode orig repl w (cutting w List.mem_cons_self).1 _ delimits',
        replaceWords, Option.any_map]
      congr 1
      by_cases outside : w.commented = false ∧ rest.head?.any (fun next => next.delimiter != 46) = true
      · have own : CapitalMeant unicode orig repl ∨ w.word ≠ capitalForm unicode orig :=
          capitals.imp_right fun absent same => absent (by rw [wholeWords, if_pos outside, same]; exact List.mem_cons_self)
        rw [if_pos outside, if_pos outside, lookup_forms origw replw own]
      · rw [if_neg outside, if_neg outside]

/-! One search after another. -/

theorem allSmooth_append (comments : List (Int × Int)) (place : Nat) (ps qs : List Search) (ws : List SourceWord) :
    AllSmooth comments place (ps ++ qs) ws ↔
      AllSmooth comments place ps ws ∧ AllSmooth comments place qs (runSearches ps ws) := by
  induction ps generalizing ws with
  | nil => exact iff_of_eq (true_and _).symm
  | cons p ps ih =>
      rw [List.cons_append, AllSmooth, AllSmooth, ih, and_assoc]
      rfl

theorem length_le_joinWords (ws : List SourceWord) : ws.length ≤ (joinWords ws).length := by
  induction ws with
  | nil => exact le_rfl
  | cons w rest ih =>
      rw [joinWords_cons, List.length_cons, List.length_cons, List.length_append]
      omega

/-- What is left of a text: what comes before its first delimiter, and its words. -/
structure Left (first : Str) (ws : List SourceWord) (n : Nat) : Prop where
  plain : ∀ b ∈ first, isDelimiter b = false
  cutting : Cutting ws
  size : ws.length = n

namespace Search

variable {comments : List (Int × Int)} {first : Str} {ws : List SourceWord} {n fuel : Nat}

theorem loop_left {p : Search} {before after : Str} (pattern : p.Matches before after) (left : Left first ws n)
    (enough : n < fuel) (smooth : p.Smooth comments first.length 0 ws) :
    p.loop before after comments fuel (first ++ joinWords ws) 0 = .ok (first ++ joinWords (p.run ws)) ∧
      Left first (p.run ws) n := by
  refine ⟨loop_words pattern left.cutting (left.size ▸ enough) (fun j _ less => ?_) smooth, left.plain,
    run_cutting pattern.letters' left.cutting, (p.run_length ws).trans left.size⟩
  have inner := @between_inside p pattern.delimits [] first (joinWords ws) left.plain j (Nat.zero_le j)
    (by rw [List.length_nil, Nat.zero_add]; exact less)
  exact inner

end Search

theorem space_delimits (b : UInt8) (space : isSpace b = true) : isDelimiter b = true := by
  rw [isDelimiter, space, Bool.true_or]

theorem punct_delimits (b : UInt8) (punct : isPunct b = true) : isDelimiter b = true := by
  rw [isDelimiter, punct, Bool.or_true]

section

variable {orig repl first : Str} {comments : List (Int × Int)} {ws : List SourceWord} {n fuel : Nat}

/-- `replacesingle`: the four searches, one after the other. -/
theorem replacesingle_words (letters : ∀ b ∈ orig, isPlainLetter b = true) (letters' : ∀ b ∈ repl, isPlainLetter b = true)
    (left : Left first ws n) (enough : n < fuel) (smooth : AllSmooth comments first.length (wordSearches orig repl) ws) :
    replacesingle fuel (first ++ joinWords ws) orig repl comments =
        .ok (first ++ joinWords (runSearches (wordSearches orig repl) ws)) ∧
      Left first (runSearches (wordSearches orig repl) ws) n := by
  obtain ⟨smooth₁, smooth₂, smooth₃, smooth₄, _⟩ := smooth
  have spaced : lit "(%s)" = 40 :: (lit "%s" ++ [41]) := by decide
  have marked : lit "(%p)" = 40 :: (lit "%p" ++ [41]) := by decide
  have shape (before after : Str) :
      40 :: (before ++ [41]) ++ orig ++ (40 :: (after ++ [41])) = wordPattern before orig after := by
    simp [wordPattern]
  have bounded (front : Str) : front ++ lit "(" ++ PUNCT ++ lit ")" = front ++ 40 :: (PUNCT ++ [41]) := by
    rw [show lit "(" = [40] by decide, show lit ")" = [41] by decide]
    simp
  obtain ⟨ran₁, left₁⟩ :=
    Search.loop_left ⟨stands_space, stands_space, space_delimits, letters, letters'⟩ left enough smooth₁
  obtain ⟨ran₂, left₂⟩ :=
    Search.loop_left ⟨stands_punct, stands_space, punct_delimits, letters, letters'⟩ left₁ enough smooth₂
  obtain ⟨ran₃, left₃⟩ :=
    Search.loop_left ⟨stands_space, stands_bound, space_delimits, letters, letters'⟩ left₂ enough smooth₃
  obtain ⟨ran₄, left₄⟩ :=
    Search.loop_left ⟨stands_punct, stands_bound, punct_delimits, letters, letters'⟩ left₃ enough smooth₄
  refine ⟨?_, left₄⟩
  have steps (p : Search) (before after s : Str) : p.loop before after comments fuel s 0 =
      (do
        let found ← find s (wordPattern before p.orig after) 1
        replaceFrom (wordPattern before p.orig after) (lit "%1" ++ p.repl ++ lit "%2") comments fuel s found) := rfl
  rw [steps] at ran₁ ran₂ ran₃ ran₄
  rw [replacesingle]
  simp only [bounded, spaced, marked, shape]
  rw [List.foldlM_cons, ran₁, run_bind_ok, List.foldlM_cons, ran₂, run_bind_ok, List.foldlM_cons, ran₃, run_bind_ok,
    List.foldlM_cons, ran₄, run_bind_ok]
  rfl

end

/-- Where the searches go right, `replaceintext` replaces the whole words outside comments, in each of their cases, and
leaves the rest of the text as it is. -/
theorem replaceintext_words {text orig repl : Str} {comments : List (Int × Int)} (origw : SearchWord orig)
    (replw : SearchWord repl) (found : getcommentset text = .ok comments)
    (manageable : Manageable unicode comments text orig repl) (fuel : Nat) (enough : text.length < fuel) :
    replaceintext unicode fuel text orig repl = .ok (replacedText comments (caseForms unicode orig repl) text) := by
  have joined := cutWords_join comments 0 text
  obtain ⟨plain, cutting⟩ := cutWords_cutting comments 0 text
  have smooth := manageable.smooth
  have meant := runSearches_replaceWords origw replw cutting manageable.capitals
  rw [replacedText, ← meant]
  generalize (cutWords comments 0 text).1 = first at joined plain smooth
  generalize (cutWords comments 0 text).2 = ws at joined cutting smooth
  have short : ws.length < fuel := by
    have sizes := congrArg List.length joined
    have words := length_le_joinWords ws
    rw [List.length_append] at sizes
    omega
  rw [caseSearches, allSmooth_append, allSmooth_append] at smooth
  obtain ⟨⟨smooth, smooth'⟩, smooth''⟩ := smooth
  obtain ⟨ran, left⟩ := replacesingle_words origw.letters replw.letters ⟨plain, cutting, rfl⟩ short smooth
  obtain ⟨ran', left'⟩ := replacesingle_words (plain_firstByteCapital origw.letters) (plain_firstByteCapital replw.letters)
    left short smooth'
  have rest : runSearches (wordSearches orig repl ++ wordSearches (firstByteCapital orig) (firstByteCapital repl)) ws =
      runSearches (wordSearches (firstByteCapital orig) (firstByteCapital repl))
        (runSearches (wordSearches orig repl) ws) := List.foldl_append
  rw [rest] at smooth''
  obtain ⟨ran'', _⟩ := replacesingle_words (plain_allcaps origw) (plain_allcaps replw) left' short smooth''
  have whole : runSearches (caseSearches unicode orig repl) ws =
      runSearches (wordSearches (allcaps unicode orig) (allcaps unicode repl))
        (runSearches (wordSearches (firstByteCapital orig) (firstByteCapital repl))
          (runSearches (wordSearches orig repl) ws)) := by
    rw [← rest]
    exact List.foldl_append
  obtain ⟨os, origs, shape⟩ := origw.valid
  obtain ⟨rs, repls, shape'⟩ := replw.valid
  have filled : os ≠ [] := fun empty => origw.filled (by rw [shape, empty]; rfl)
  have filled' : rs ≠ [] := fun empty => replw.filled (by rw [shape', empty]; rfl)
  have cap := utf8capitalize_run origs filled
  have cap' := utf8capitalize_run repls filled'
  have all := utf8upper_run origs
  have all' := utf8upper_run repls
  rw [← shape] at cap all
  rw [← shape'] at cap' all'
  rw [whole, ← ran'', replaceintext, cap, run_bind_ok, cap', run_bind_ok, all, run_bind_ok, all', run_bind_ok, found,
    run_bind_ok]
  conv_lhs => rw [← joined]
  rw [ran, run_bind_ok, ran', run_bind_ok]

theorem searchWord {w : Str} (filled : w ≠ []) (letters : w.all isPlainLetter = true) (whole : (Utf8.chars w).2 = [])
    (readable : ∀ c ∈ (Utf8.chars w).1, Utf8.Readable c) : SearchWord w :=
  ⟨filled, List.all_eq_true.mp letters, Utf8.valid_of_chars w whole readable⟩

/-- Three words of which two share the delimiter, one with a capital, and one more in a comment. -/
theorem replaceintext_words_amo : replaceintext unicode 40 (lit " Amo amo, amo amo. // amo te\n") (lit "amo") (lit "amō") =
    .ok (lit " Amō amō, amō amo. // amo te\n") := by
  have meant : replacedText [(20, 28)] (caseForms unicode (lit "amo") (lit "amō")) (lit " Amo amo, amo amo. // amo te\n") =
      lit " Amō amō, amō amo. // amo te\n" := by decide +kernel
  rw [← meant]
  exact replaceintext_words (searchWord (by decide) (by decide) (by decide) (by decide))
    (searchWord (by decide) (by decide) (by decide) (by decide)) (by decide +kernel) (by decide +kernel) 40 (by decide)

/-- The searches end at the word in the comment. -/
theorem replaceintext_commented : ¬ ∀ (text orig repl : Str) (comments : List (Int × Int)) (fuel : Nat), SearchWord orig →
    SearchWord repl → getcommentset text = .ok comments → text.length < fuel →
    replaceintext unicode fuel text orig repl = .ok (replacedText comments (caseForms unicode orig repl) text) := by
  intro claim
  have replaced := claim (lit "// a b\n a b") (lit "a") (lit "o") [(1, 6)] 12
    (searchWord (by decide) (by decide) (by decide) (by decide))
    (searchWord (by decide) (by decide) (by decide) (by decide)) (by decide +kernel) (by decide)
  have kept : replaceintext unicode 12 (lit "// a b\n a b") (lit "a") (lit "o") = .ok (lit "// a b\n a b") := by
    decide +kernel
  have meant : replacedText [(1, 6)] (caseForms unicode (lit "a") (lit "o")) (lit "// a b\n a b") = lit "// a b\n o b" := by
    decide +kernel
  rw [kept, meant] at replaced
  exact absurd (Except.ok.inj replaced) (by decide)

end Maccer
