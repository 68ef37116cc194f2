import Maccer.Reading

/-! The words of a run of letters, and what `ignorechars` takes off it for `formatsource`. -/

namespace Maccer

open Lua

namespace Tables

variable (t : Tables)

/-- A run of letters, cut behind each period. -/
def cutPieces : List Str → List (List Str)
  | [] => []
  | c :: cs =>
      if c = lit "." then [c] :: cutPieces cs
      else match cutPieces cs with
        | [] => [[c]]
        | piece :: later => (c :: piece) :: later

/-- A word is taken for an abbreviation if `macra.USER_ABBREV` is taken off its front, or if it has a capital. -/
def isAbbrev (left word : List Str) : Bool :=
  t.userMarked left || word.head?.any fun c => (field t.unicode.capsinvtbl c).isSome

/-- The word without its final period, unless it is an abbreviation. -/
def spared (left word : List Str) : List Str :=
  if word.getLast? = some (lit ".") ∧ t.isAbbrev left word = false then word.dropLast else word

/-- The word of a piece, if there is one: with the characters to ignore off its ends, and none inside. -/
def meantWord (piece : List Str) : Option (List Str) :=
  let left := t.dropFinal piece
  let word := t.spared left (t.strip left)
  if word = [] ∨ word.any t.ignores = true then none else some word

def meantWords (w : Str) : List (List Str) := (cutPieces (Utf8.chars w).1).filterMap t.meantWord

/-- The piece that `ignorechars` takes. -/
def taken (w : Str) : List Str := upToPeriod ((Utf8.chars w).1.dropWhile (· = lit "."))

/-- The characters to ignore are characters, and none means anything in a pattern where it stands alone. -/
def Searchable : Prop :=
  ∀ c, t.ignores c = true → Utf8.isChar c = true ∧ c ∉ (lit "^$(%.[").map ([·])

variable {t}

/-! The pieces of a run. -/

theorem cutPieces_first {cs : List Str} (filled : cs ≠ []) : ∃ later, cutPieces cs = upToPeriod cs :: later := by
  induction cs with
  | nil => exact absurd rfl filled
  | cons c cs ih =>
      by_cases period : c = lit "."
      · exact ⟨cutPieces cs, by rw [cutPieces, upToPeriod, if_pos period, if_pos period]⟩
      · rw [cutPieces, upToPeriod, if_neg period, if_neg period]
        cases cs with
        | nil => exact ⟨[], rfl⟩
        | cons d cs =>
            obtain ⟨later, first⟩ := ih (List.cons_ne_nil d cs)
            rw [first]
            exact ⟨later, rfl⟩

theorem meantWord_period (given : t.unicode = Maccer.unicode) (outside : t.ignores (lit ".") = false) :
    t.meantWord [lit "."] = none := by
  have lone : t.dropFinal [lit "."] = [lit "."] := rfl
  have word : t.strip [lit "."] = [lit "."] :=
    (t.strip_ends [] [] (lit ".") outside (by simp)).trans (by simp [outside])
  have small : t.isAbbrev [lit "."] [lit "."] = false := by
    rw [isAbbrev, userMarked, List.takeWhile_cons_of_neg (by simp [outside]), List.head?_cons, Option.any_some, given,
      period_char.2.2]
    rfl
  simp only [meantWord, lone, word, spared, small]
  rfl

theorem meantWords_taken (given : t.unicode = Maccer.unicode) (outside : t.ignores (lit ".") = false) {w : Str}
    (single : ∀ piece ∈ (cutPieces ((Utf8.chars w).1.dropWhile (· = lit "."))).tail, t.meantWord piece = none) :
    t.meantWords w = (t.meantWord (taken w)).toList := by
  rw [meantWords, taken]
  generalize (Utf8.chars w).1 = cs at single ⊢
  induction cs with
  | nil => rfl
  | cons c cs ih =>
      by_cases period : c = lit "."
      · rw [List.dropWhile_cons_of_pos (by simpa using period)] at single ⊢
        rw [cutPieces, if_pos period, period, List.filterMap_cons_none (meantWord_period given outside)]
        exact ih single
      · rw [List.dropWhile_cons_of_neg (by simpa using period)] at single ⊢
        obtain ⟨later, first⟩ := cutPieces_first (List.cons_ne_nil c cs)
        rw [first, List.tail_cons] at single
        rw [first, List.filterMap_cons, List.filterMap_eq_nil_iff.mpr single]
        cases t.meantWord (upToPeriod (c :: cs)) <;> rfl

/-! What `ignorechars` finds inside a word. -/

theorem findIgnored_any {w : Str} {igs : List Str} {found : Str → Bool}
    (each : ∀ ig ∈ igs, ∃ place, find w ig 1 = .ok place ∧ place.isSome = found ig) :
    findIgnored w igs = .ok (igs.any found) := by
  induction igs with
  | nil => rfl
  | cons ig igs ih =>
      obtain ⟨place, here, same⟩ := each ig List.mem_cons_self
      rw [findIgnored, here, run_bind_ok, same, List.any_cons,
        ih fun ig member => each ig (List.mem_cons_of_mem _ member)]
      cases found ig <;> rfl

theorem readable_bytes {c : Str} (readable : Utf8.Readable c) : 0 ∉ c := by
  intro zero
  obtain ⟨b, tail, rfl, size⟩ := Utf8.charbytes_of_readable c readable
  rcases List.mem_cons.mp zero with rfl | later
  · exact (Utf8.lead_byte size).1 rfl
  · exact absurd (Utf8.tail_bytes readable.1 0 later).1 (by decide)

theorem find_char {cs : List Str} (readable : ∀ c ∈ cs, Utf8.Readable c)
    (letters : ∀ b ∈ cs.flatten, isLetter b = true) {c : Str} (char : Utf8.isChar c = true)
    (plain : c ∉ (lit "^$(%.[").map ([·])) :
    ∃ place, find cs.flatten c 1 = .ok place ∧ place.isSome = decide (c ∈ cs) := by
  cases magic : hasPattern c with
  | true =>
      obtain ⟨b, inside, special⟩ := List.any_eq_true.mp magic
      have low : (lit "^$*+?.([%-").all fun b => decide (Utf8.Readable [b]) := by decide
      obtain rfl := Utf8.char_of_byte
        (of_decide_eq_true (List.all_eq_true.mp low b (of_decide_eq_true special))) char inside
      have mark : b ∈ lit "*+?-" := by
        have marks : (lit "^$*+?.([%-").all
            fun b => decide (b ∈ lit "*+?-" ∨ [b] ∈ (lit "^$(%.[").map ([·])) := by decide
        exact (of_decide_eq_true (List.all_eq_true.mp marks b (of_decide_eq_true special))).resolve_right plain
      have outer : (lit "*+?-").all fun b => decide (isLetter b = false ∧ isMagic b = false ∧ b ≠ 94) := by decide
      obtain ⟨separates, literal, free⟩ := of_decide_eq_true (List.all_eq_true.mp outer b mark)
      have absent : b ∉ cs.flatten := fun member => by simp [letters b member] at separates
      refine ⟨none, find_none magic (by simpa using free) (Nat.zero_le _) fun j _ => ?_, ?_⟩
      · rw [matchAt, matchHere_literal _ _ _ _ b [] literal rfl, if_neg]
        exact fun here => absent (List.mem_of_getElem? here)
      · rw [eq_comm, Option.isSome_none, decide_eq_false_iff_not]
        exact fun member => absent (List.mem_flatten.mpr ⟨[b], member, List.mem_singleton_self b⟩)
  | false =>
      by_cases nul : c = [0]
      · subst nul
        obtain ⟨place, here, same⟩ := find_byte 0 magic cs.flatten
        refine ⟨place, here, ?_⟩
        have absent : (0 : UInt8) ∉ cs.flatten := by
          intro member
          obtain ⟨d, inside, zero⟩ := List.mem_flatten.mp member
          exact readable_bytes (readable d inside) zero
        rw [eq_comm, Bool.eq_iff_iff, decide_eq_true_iff, same]
        exact iff_of_false (fun member => (readable [0] member).2 rfl) absent
      · have letter : Utf8.Readable c := ⟨char, nul⟩
        have filled := Utf8.Char.ne_nil (letter.char True)
        rcases firstAt_or_none c cs.flatten 0 with ⟨i, first⟩ | absent
        · have member := char_occurs letter (fun c member => (readable c member).1) first.here
          exact ⟨_, find_literal_first magic filled first, by simpa using member⟩
        · refine ⟨none, find_literal_none magic filled 0 absent, ?_⟩
          rw [eq_comm, Option.isSome_none, decide_eq_false_iff_not]
          intro member
          obtain ⟨before, after, rfl⟩ := List.append_of_mem member
          apply absent before.flatten.length (Nat.zero_le _)
          rw [List.flatten_append, List.drop_left, List.flatten_cons]
          exact List.prefix_append c after.flatten

theorem findIgnored_chars (searchable : t.Searchable) {cs : List Str} (readable : ∀ c ∈ cs, Utf8.Readable c)
    (letters : ∀ b ∈ cs.flatten, isLetter b = true) :
    findIgnored cs.flatten ((pairs t.hash t.ignoretbl).map (·.1)) = .ok (cs.any t.ignores) := by
  have stored (ig : Str) : ig ∈ (pairs t.hash t.ignoretbl).map (·.1) ↔ t.ignores ig = true := by
    rw [List.mem_map, ignores, Option.isSome_iff_exists]
    constructor
    · rintro ⟨⟨ig, v⟩, pair, rfl⟩
      exact ⟨v, (mem_pairs _ _ _ _).mp pair⟩
    · rintro ⟨v, here⟩
      exact ⟨(ig, v), (mem_pairs _ _ _ _).mpr here, rfl⟩
  have each (ig : Str) (member : ig ∈ (pairs t.hash t.ignoretbl).map (·.1)) :
      ∃ place, find cs.flatten ig 1 = .ok place ∧ place.isSome = decide (ig ∈ cs) := by
    obtain ⟨char, plain⟩ := searchable ig ((stored ig).mp member)
    exact find_char readable letters char plain
  rw [findIgnored_any each, Except.ok.injEq, Bool.eq_iff_iff, List.any_eq_true, List.any_eq_true]
  constructor
  · rintro ⟨ig, member, inside⟩
    exact ⟨ig, of_decide_eq_true inside, (stored ig).mp member⟩
  · rintro ⟨c, member, ignored⟩
    exact ⟨c, (stored c).mpr ignored, decide_eq_true member⟩

/-! What is left of a piece. -/

theorem mem_strip {cs : List Str} {c : Str} (inside : c ∈ cs) (keep : t.ignores c = false) : c ∈ t.strip cs := by
  have dropped : c ∈ cs.dropWhile t.ignores := by
    rw [← List.takeWhile_append_dropWhile (p := t.ignores) (l := cs)] at inside
    refine (List.mem_append.mp inside).resolve_left fun gone => ?_
    rw [List.mem_takeWhile_imp gone] at keep
    cases keep
  rw [← List.rdropWhile_append_rtakeWhile (p := t.ignores) (l := cs.dropWhile t.ignores)] at dropped
  refine (List.mem_append.mp dropped).resolve_right fun gone => ?_
  rw [List.mem_rtakeWhile_imp gone] at keep
  cases keep

theorem strip_subset (cs : List Str) : t.strip cs ⊆ cs := fun _ member =>
  (List.dropWhile_sublist _).mem ((List.rdropWhile_prefix _ _).subset member)

theorem strip_nil_iff (cs : List Str) : t.strip cs = [] ↔ ∀ c ∈ cs, t.ignores c = true := by
  constructor
  · intro empty c member
    by_contra keep
    have inside := mem_strip member (Bool.not_eq_true _ ▸ keep)
    rw [empty] at inside
    cases inside
  · intro all
    rw [strip, List.dropWhile_eq_nil_iff.mpr all]
    rfl

theorem strip_ne_period {cs : List Str} (chars : ∀ c ∈ cs, Utf8.isChar c = true) (first : cs.head? ≠ some (lit ".")) :
    t.strip (t.dropFinal (upToPeriod cs)) ≠ [lit "."] := by
  intro alone
  have period : (46 : UInt8) ∈ lit "." := by decide
  have inside : lit "." ∈ t.dropFinal (upToPeriod cs) := strip_subset _ (alone ▸ List.mem_singleton_self _)
  rcases upToPeriod_cases chars with ⟨same, none⟩ | ⟨front, back, shape, none, cut⟩
  · rw [same] at inside
    exact none (List.mem_flatten.mpr ⟨_, (t.dropFinal_front cs).subset inside, period⟩)
  · rw [cut, dropFinal, List.dropLast_concat] at inside alone
    rcases List.eq_nil_or_concat' front with rfl | ⟨front, d, rfl⟩
    · rw [shape] at first
      exact first rfl
    have absent : lit "." ∉ front ++ [d] := fun member => none (List.mem_flatten.mpr ⟨_, member, period⟩)
    cases keep : t.ignores d with
    | true =>
        rw [if_pos (by simp [keep])] at inside
        exact absent inside
    | false =>
        rw [if_neg (by simp [keep])] at alone
        have kept : d ∈ t.strip (front ++ [d] ++ [lit "."]) := mem_strip (by simp) keep
        rw [alone, List.mem_singleton] at kept
        exact absent (by simp [kept])

/-! Abbreviations. -/

theorem checkAbbrev_ok {word : List Str} (filled : word ≠ []) (readable : ∀ c ∈ word, Utf8.Readable c) (wend : Int)
    (userabbrev middlefound : Bool) : ∃ r, t.checkAbbrev word.flatten wend userabbrev middlefound = .ok r := by
  obtain ⟨c, rest, rfl⟩ := List.exists_cons_of_ne_nil filled
  have first := Utf8.sub_char (Utf8.decodes_of_readable readable) (i := 0) (c := c) rfl
  rw [Nat.cast_zero, Int.zero_add] at first
  rw [checkAbbrev, first]
  split
  · exact ⟨_, rfl⟩
  · split
    · rw [run_bind_ok]
      split
      · exact ⟨_, rfl⟩
      · exact ⟨_, rfl⟩
    · exact ⟨_, rfl⟩

theorem checkAbbrev_word {left word : List Str} (filled : word ≠ []) (readable : ∀ c ∈ word, Utf8.Readable c)
    (marked : t.userMarked left = true → word.getLast? = some (lit ".")) (wstart : Int) :
    ∃ isabbrev, t.checkAbbrev word.flatten (wstart + word.flatten.length - 1) (t.userMarked left) false =
        .ok ((t.spared left word).flatten, wstart + (t.spared left word).flatten.length - 1, isabbrev) ∧
      (isabbrev = true → t.isAbbrev left word = true) := by
  obtain ⟨front, c, shape⟩ : ∃ front c, word = front ++ [c] := ⟨_, _, (List.dropLast_append_getLast filled).symm⟩
  have last := last_period front c (readable c (by simp [shape])).1
  rw [← shape] at last
  have ends : word.getLast? = some (lit ".") ↔ c = lit "." := by simp [shape]
  obtain ⟨d, rest, shape'⟩ := List.exists_cons_of_ne_nil filled
  have first := Utf8.sub_char (Utf8.decodes_of_readable readable) (i := 0) (c := d) (by rw [shape']; rfl)
  rw [Nat.cast_zero, Int.zero_add] at first
  have capital : t.isAbbrev left word = (t.userMarked left || (field t.unicode.capsinvtbl d).isSome) := by
    rw [isAbbrev, shape', List.head?_cons, Option.any_some]
  have spared' : t.spared left word =
      if c = lit "." ∧ (t.userMarked left || (field t.unicode.capsinvtbl d).isSome) = false then word.dropLast
      else word := by
    rw [spared, capital]
    simp only [ends]
  rw [checkAbbrev, spared', capital]
  cases user : t.userMarked left with
  | true =>
      have period := ends.mp (marked user)
      rw [if_pos rfl, if_neg (not_not.mpr (last.mpr period)), if_neg (by simp)]
      exact ⟨true, rfl, fun _ => rfl⟩
  | false =>
      rw [if_neg Bool.false_ne_true, Bool.false_or]
      by_cases period : c = lit "."
      · rw [if_pos (last.mpr period), first, run_bind_ok, Bool.not_false, Bool.and_true]
        cases large : (field t.unicode.capsinvtbl d).isSome with
        | true => exact ⟨true, by simp, fun _ => rfl⟩
        | false =>
            rw [if_neg Bool.false_ne_true, if_pos ⟨period, rfl⟩]
            have size : word.flatten.length = front.flatten.length + 1 := by
              have dot : (lit ".").length = 1 := by decide
              rw [shape, List.flatten_append, List.flatten_singleton, List.length_append, period, dot]
            have before : word.dropLast.flatten = front.flatten := by rw [shape, List.dropLast_concat]
            have cut : sub word.flatten 1 ((word.flatten.length : Int) - 1) = word.dropLast.flatten := by
              rw [size, Nat.cast_succ, Int.add_sub_cancel, sub_first, before, shape, List.flatten_append, List.take_left]
            refine ⟨false, ?_, by simp⟩
            rw [cut, before, show wstart + (word.flatten.length : Int) - 1 - 1 = wstart + front.flatten.length - 1 by omega]
            rfl
      · rw [if_neg (mt last.mp period), if_neg fun both => period both.1]
        exact ⟨false, rfl, by simp⟩

theorem spared_front (left word : List Str) : t.spared left word <+: word := by
  rw [spared]
  split
  · exact List.dropLast_prefix word
  · exact List.prefix_rfl

/-- A piece without a word has nothing but characters to ignore, or has one of them inside. -/
theorem strip_of_missing {cs : List Str} (chars : ∀ c ∈ cs, Utf8.isChar c = true) (first : cs.head? ≠ some (lit "."))
    (missing : t.meantWord (upToPeriod cs) = none) :
    t.strip (t.dropFinal (upToPeriod cs)) = [] ∨ (t.strip (t.dropFinal (upToPeriod cs))).any t.ignores = true := by
  have lone := t.strip_ne_period chars first
  rw [meantWord] at missing
  by_contra both
  obtain ⟨filled, clean⟩ := not_or.mp both
  split at missing
  case isFalse => cases missing
  case isTrue gone =>
    rcases gone with empty | inside
    · rw [spared] at empty
      split at empty
      case isTrue period =>
        obtain ⟨front, c, shape⟩ : ∃ front c, t.strip (t.dropFinal (upToPeriod cs)) = front ++ [c] :=
          ⟨_, _, (List.dropLast_append_getLast filled).symm⟩
        rw [shape, List.dropLast_concat] at empty
        rw [shape, List.getLast?_concat, Option.some.injEq] at period
        exact lone (by rw [shape, empty, period.1, List.nil_append])
      case isFalse => exact filled empty
    · obtain ⟨c, member, ignored⟩ := List.any_eq_true.mp inside
      exact clean (List.any_eq_true.mpr ⟨c, (spared_front _ _).subset member, ignored⟩)

theorem Searchable.period (searchable : t.Searchable) : t.ignores (lit ".") = false := by
  by_contra ignored
  exact absurd (searchable _ ((Bool.not_eq_false _).mp ignored)).2 (by decide)

theorem meantWord_some {piece word : List Str} (found : t.meantWord piece = some word) :
    t.spared (t.dropFinal piece) (t.strip (t.dropFinal piece)) = word ∧ word ≠ [] ∧ word.any t.ignores = false := by
  obtain ⟨kept, same⟩ := Option.ite_none_left_eq_some.mp found
  obtain rfl := Option.some.inj same
  exact ⟨rfl, fun empty => kept (.inl empty), (Bool.not_eq_true _).mp fun inside => kept (.inr inside)⟩

theorem spared_clean (outside : t.ignores (lit ".") = false) {left word : List Str}
    (clean : (t.spared left word).any t.ignores = false) : word.any t.ignores = false := by
  rw [spared] at clean
  split at clean
  case isTrue period =>
    obtain ⟨front, shape⟩ := List.getLast?_eq_some_iff.mp period.1
    rw [shape, List.dropLast_concat] at clean
    rw [shape, List.any_append, clean, List.any_cons, outside]
    rfl
  case isFalse => exact clean

/-! A run of letters. -/

theorem findIgnored_strip (searchable : t.Searchable) {cs : List Str} (readable : ∀ c ∈ cs, Utf8.Readable c)
    (letters : ∀ b ∈ cs.flatten, isLetter b = true) :
    findIgnored (t.strip (t.remaining cs)).flatten ((pairs t.hash t.ignoretbl).map (·.1)) =
      .ok ((t.strip (t.remaining cs)).any t.ignores) := by
  have inside : t.strip (t.remaining cs) ⊆ cs := fun c member => (List.dropWhile_sublist _).mem
    ((upToPeriod_front _).subset ((t.dropFinal_front _).subset (strip_subset _ member)))
  refine findIgnored_chars searchable (fun c member => readable c (inside member)) fun b member => ?_
  obtain ⟨c, among, within⟩ := List.mem_flatten.mp member
  exact letters b (List.mem_flatten.mpr ⟨c, inside among, within⟩)

section Taken

variable {cs : List Str} (readable : ∀ c ∈ cs, Utf8.Readable c) (more : cs.dropWhile (· = lit ".") ≠ [])
  (separate : t.Separate (t.remaining cs)) (front : Str)
include readable more separate

theorem ignorechars_loop : ∃ e,
    t.ignorechars cs.flatten (front.length + 1) (front.length + cs.flatten.length) true = t.afterLoop true e ∧
      t.Exact (t.remaining cs) (afterPeriods front cs) e.w e.wstart e.wend ∧
      (e.w ≠ none → e.userabbrev = t.userMarked (t.remaining cs)) := by
  have chars : ∀ c ∈ cs, Utf8.isChar c = true := fun c member => (readable c member).1
  have inner : ∀ c ∈ upToPeriod (cs.dropWhile (· = lit ".")), Utf8.Readable c := fun c member =>
    readable c ((List.dropWhile_sublist _).mem ((upToPeriod_front _).subset member))
  have left : ∀ c ∈ t.remaining cs, Utf8.Readable c := fun c member => inner c ((t.dropFinal_front _).subset member)
  obtain ⟨e, run, exact, marked⟩ := t.trimEnds_exact (t.remaining cs) (Utf8.decodes_of_readable left)
    (t.dropFinal_ne_nil (upToPeriod_ne_nil more)) (afterPeriods front cs)
  exact ⟨e, t.ignorechars_ends chars front more (fun nul => (inner _ nul).2 rfl) e run true, exact.mpr separate,
    marked separate⟩

variable (letters : ∀ b ∈ cs.flatten, isLetter b = true) (searchable : t.Searchable)
include letters searchable

theorem ignorechars_dropped (missing : t.meantWord (upToPeriod (cs.dropWhile (· = lit "."))) = none) : ∃ trimmed,
    t.ignorechars cs.flatten (front.length + 1) (front.length + cs.flatten.length) true = .ok trimmed ∧
      (trimmed.w = none ∨ trimmed.middlefound = true) := by
  have chars : ∀ c ∈ cs.dropWhile (· = lit "."), Utf8.isChar c = true := fun c member =>
    (readable c ((List.dropWhile_sublist _).mem member)).1
  obtain ⟨e, ran, exact, marked⟩ := ignorechars_loop readable more separate front
  have nothing := t.strip_of_missing chars (head_token cs) missing
  rw [← remaining] at nothing
  rw [ran, afterLoop]
  cases word : e.w with
  | none => exact ⟨_, rfl, .inl rfl⟩
  | some w =>
      have kept : ¬ ∀ c ∈ t.remaining cs, t.ignores c = true := fun all => by
        rw [exact.1.mpr all] at word
        cases word
      have filled : t.strip (t.remaining cs) ≠ [] := fun empty => kept ((strip_nil_iff _).mp empty)
      have inside := nothing.resolve_left filled
      have readable' : ∀ c ∈ t.strip (t.remaining cs), Utf8.Readable c := fun c member =>
        readable c ((List.dropWhile_sublist _).mem
          ((upToPeriod_front _).subset ((t.dropFinal_front _).subset (strip_subset _ member))))
      obtain ⟨⟨w', wend, isabbrev⟩, checked⟩ := t.checkAbbrev_ok filled readable' e.wend e.userabbrev true
      obtain rfl := (exact.2 w word).1
      dsimp only
      rw [findIgnored_strip searchable readable letters, run_bind_ok, inside, if_pos rfl, checked]
      exact ⟨_, rfl, .inr rfl⟩

theorem ignorechars_kept {word : List Str} (found : t.meantWord (upToPeriod (cs.dropWhile (· = lit "."))) = some word)
    (marked : t.userMarked (t.remaining cs) = true → (t.strip (t.remaining cs)).getLast? = some (lit ".")) :
    ∃ before after isabbrev, cs.flatten = before ++ word.flatten ++ after ∧
      t.ignorechars cs.flatten (front.length + 1) (front.length + cs.flatten.length) true =
        .ok ⟨some word.flatten, (front ++ before).length + 1, (front ++ before).length + word.flatten.length, false,
          isabbrev⟩ ∧
      (isabbrev = true → t.isAbbrev (t.remaining cs) word = true) := by
  obtain ⟨shape, filled, clean⟩ := meantWord_some found
  rw [← remaining] at shape
  obtain ⟨e, ran, exact, user⟩ := ignorechars_loop readable more separate front
  obtain ⟨behind, strips⟩ := shape ▸ t.spared_front (t.remaining cs) (t.strip (t.remaining cs))
  have filled' : t.strip (t.remaining cs) ≠ [] := fun empty => by
    rw [empty, List.append_eq_nil_iff] at strips
    exact filled strips.1
  have left : e.w ≠ none := fun gone => filled' ((strip_nil_iff _).mpr (exact.1.mp gone))
  obtain ⟨w, some'⟩ := Option.ne_none_iff_exists'.mp left
  obtain ⟨rfl, first, last⟩ := exact.2 w some'
  have readable' : ∀ c ∈ t.strip (t.remaining cs), Utf8.Readable c := fun c member =>
    readable c ((List.dropWhile_sublist _).mem
      ((upToPeriod_front _).subset ((t.dropFinal_front _).subset (strip_subset _ member))))
  obtain ⟨isabbrev, checked, abbreviated⟩ := t.checkAbbrev_word filled' readable' marked e.wstart
  obtain ⟨rest, whole⟩ := t.word_within cs
  have begun : e.wstart =
      ((front ++ (cs.takeWhile (· = lit ".") ++ (t.remaining cs).takeWhile t.ignores).flatten).length : Int) + 1 := by
    rw [first, afterPeriods]
    simp only [List.length_append, List.flatten_append, Nat.cast_add]
    omega
  refine ⟨(cs.takeWhile (· = lit ".") ++ (t.remaining cs).takeWhile t.ignores).flatten, (behind ++ rest).flatten, isabbrev,
    ?_, ?_, fun short => ?_⟩
  · conv_lhs => rw [whole]
    rw [← strips]
    simp only [List.flatten_append, List.append_assoc]
  · rw [ran, afterLoop, some']
    dsimp only
    rw [findIgnored_strip searchable readable letters, run_bind_ok, t.spared_clean searchable.period (shape ▸ clean),
      if_pos rfl, user left, last, checked, run_bind_ok, shape, begun, Int.add_right_comm, Int.add_sub_cancel]
    rfl
  · have same : t.spared (t.remaining cs) (t.strip (t.remaining cs)) = t.strip (t.remaining cs) := by
      rw [spared, if_neg]
      intro period
      rw [abbreviated short] at period
      cases period.2
    rw [← shape, same]
    exact abbreviated short

end Taken

end Tables

end Maccer
