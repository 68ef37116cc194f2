import Maccer.CommentMarks
import Maccer.SourceRuns

/-! The words that `formatsource` leaves in a source text. -/

namespace Maccer

open Lua

namespace Tables

variable (t : Tables)

/-- The word in lowercase, with the sure substitutions if they are to be made. -/
def sureWord (fuel : Nat) (repairOrth : Bool) (w : Str) : Run Str :=
  if repairOrth then pure w else (·.1) <$> t.subword fuel w false false none

/-- The words that a text without comments should give. -/
def sourceTokens (fuel : Nat) (repairOrth : Bool) (text : Str) : Run (List Str) := do
  let sure ← ((words text).flatMap t.meantWords).mapM fun word =>
    t.sureWord fuel repairOrth (word.map lowerChar).flatten
  return sure.flatMap words

/-- A run of letters that `formatsource` makes the right words of. -/
structure Heeded (fuel : Nat) (repairOrth : Bool) (w : Str) : Prop where
  readable : 0 ∉ w
  separate : t.Separate (t.dropFinal (taken w))
  single : ∀ piece ∈ (cutPieces ((Utf8.chars w).1.dropWhile (· = lit "."))).tail, t.meantWord piece = none
  marked : t.userMarked (t.dropFinal (taken w)) = true → (t.meantWord (taken w)).isSome = true →
    (t.strip (t.dropFinal (taken w))).getLast? = some (lit ".")
  capital : ∀ word s, t.meantWord (taken w) = some word → t.isAbbrev (t.dropFinal (taken w)) word = true →
    t.sureWord fuel repairOrth (word.map lowerChar).flatten = .ok s → ∀ b ∈ s.head?, (Utf8.charbytes b).isSome = true
  periods : (Utf8.chars w).1.dropWhile (· = lit ".") = [] → t.sureWord fuel repairOrth [] = .ok []

variable {t} {fuel : Nat} {repairOrth : Bool}

/-! One pass of `formatsource`. -/

theorem lower_length (ds : List Str) : (ds.map lowerChar).flatten.length = ds.flatten.length := by
  induction ds with
  | nil => rfl
  | cons d ds ih => rw [List.map_cons, List.flatten_cons, List.flatten_cons, List.length_append, List.length_append, ih,
      lowerChar_length]

theorem splice_front (front w rest new : Str) :
    splice (front ++ w ++ rest) (front.length + 1) (front.length + w.length) new = front ++ new ++ rest := by
  have before : sub (front ++ w ++ rest) 1 ((front.length : Int) + 1 - 1) = front := by
    rw [Int.add_sub_cancel, sub_first, List.append_assoc, List.take_left]
  have behind : subFrom (front ++ w ++ rest) ((front.length : Int) + w.length + 1) = rest := by
    rw [← Nat.cast_add, subFrom_succ, ← List.length_append, List.drop_left]
  rw [splice, before, behind]

theorem utf8capitalize_begins {s : Str} (begins : ∀ b ∈ s.head?, (Utf8.charbytes b).isSome = true) :
    ∃ w, utf8capitalize s = .ok w := by
  have first : ∃ c, Utf8.sub s 1 1 = .ok c := by
    cases s with
    | nil => exact ⟨[], by decide⟩
    | cons b rest =>
        obtain ⟨n, size⟩ := Option.isSome_iff_exists.mp (begins b rfl)
        have some' : 1 ≤ (Utf8.chars (b :: rest)).1.length := by
          rw [Utf8.chars, List.length_cons, Utf8.charsFrom, size]
          simp
        have inside : (1 : Int) ≤ (Utf8.chars (b :: rest)).1.length := by omega
        simp only [Utf8.sub, zero_le_one, le_refl, inside, and_self, if_true, run_pure, run_bind_ok, gt_iff_lt,
          lt_irrefl, if_false]
        exact ⟨_, rfl⟩
  obtain ⟨c, first⟩ := first
  exact ⟨_, by rw [utf8capitalize, first]; rfl⟩

section Pass

variable {f : Formatted} {wstart wend first last : Int} {isabbrev : Bool} {v lv : Str}
  (trimmed : t.ignorechars (sub f.text wstart wend) wstart wend true = .ok ⟨some v, first, last, false, isabbrev⟩)
  (lowered : lower t.unicode v = .ok lv)
include trimmed lowered

/-- What is taken off the word goes from the text, then the lowercase word with its substitutions is put in its
place. -/
theorem formatWord_sure {s : Str} (sure : t.sureWord fuel repairOrth lv = .ok s)
    (capitalize : isabbrev = true → ∃ w, utf8capitalize s = .ok w) :
    ∃ f', t.formatWord fuel repairOrth f wstart wend =
        .ok (f', (if first ≠ wstart ∨ last ≠ wend then last - (first - wstart) else wend) +
          ((s.length : Int) - lv.length) + 1) ∧
      f'.text = splice
        (if first ≠ wstart ∨ last ≠ wend then splice f.text wstart wend (sub f.text first last) else f.text)
        wstart (if first ≠ wstart ∨ last ≠ wend then last - (first - wstart) else wend) s := by
  have next (place : Int) : (if s = lv then place else place + ((s.length : Int) - lv.length)) =
      place + ((s.length : Int) - lv.length) := by
    split
    case isTrue same => rw [same, Int.sub_self, Int.add_zero]
    case isFalse => rfl
  unfold Tables.formatWord
  rw [trimmed, run_bind_ok]
  dsimp only
  rw [lowered, run_bind_ok]
  cases repairOrth with
  | true =>
      obtain rfl := Except.ok.inj (show Except.ok lv = Except.ok s from sure)
      rw [if_pos rfl, run_pure, run_bind_ok]
      cases isabbrev with
      | true =>
          obtain ⟨capitalized, capitalize⟩ := capitalize rfl
          simp only [if_true, capitalize, run_map_ok, run_bind_ok, Int.sub_self, Int.add_zero]
          exact ⟨_, rfl, rfl⟩
      | false =>
          simp only [if_true, Int.sub_self, Int.add_zero]
          exact ⟨_, rfl, rfl⟩
  | false =>
      have called : (·.1) <$> t.subword fuel lv false false none = .ok s := sure
      rw [if_neg Bool.false_ne_true, called, run_bind_ok, next]
      cases isabbrev with
      | true =>
          obtain ⟨capitalized, capitalize⟩ := capitalize rfl
          rw [if_pos rfl, capitalize]
          exact ⟨_, rfl, rfl⟩
      | false => exact ⟨_, rfl, rfl⟩

theorem formatWord_fails {fault : Fault} (fails : t.sureWord fuel repairOrth lv = .error fault) :
    t.formatWord fuel repairOrth f wstart wend = .error fault := by
  unfold Tables.formatWord
  rw [trimmed, run_bind_ok]
  dsimp only
  rw [lowered, run_bind_ok]
  cases repairOrth with
  | true => cases fails
  | false =>
      have called : (·.1) <$> t.subword fuel lv false false none = .error fault := fails
      rw [if_neg Bool.false_ne_true, called]
      rfl

end Pass

/-- A pass over a run of letters that has `before` and `after` taken off. -/
theorem formatWord_placed {f : Formatted} {front w rest before after v lv s : Str} {isabbrev : Bool}
    (text : f.text = front ++ w ++ rest) (shape : w = before ++ v ++ after)
    (trimmed : t.ignorechars w (front.length + 1) (front.length + w.length) true =
      .ok ⟨some v, (front ++ before).length + 1, (front ++ before).length + v.length, false, isabbrev⟩)
    (lowered : lower t.unicode v = .ok lv) (size : lv.length = v.length) (sure : t.sureWord fuel repairOrth lv = .ok s)
    (capitalize : isabbrev = true → ∃ w, utf8capitalize s = .ok w) :
    ∃ f', t.formatWord fuel repairOrth f (front.length + 1) (front.length + w.length) =
        .ok (f', (front ++ s).length + 1) ∧ f'.text = front ++ s ++ rest := by
  have here : sub f.text (front.length + 1) (front.length + w.length) = w := by rw [text, sub_middle]
  obtain ⟨f', ran, text'⟩ := formatWord_sure (by rwa [here]) lowered sure capitalize
  have kept : sub f.text ((front ++ before).length + 1) ((front ++ before).length + v.length) = v := by
    rw [text, shape, ← List.append_assoc, ← List.append_assoc, List.append_assoc (front ++ before ++ v), sub_middle]
  have ended :
      (if ((front ++ before).length : Int) + 1 ≠ front.length + 1 ∨
          ((front ++ before).length : Int) + v.length ≠ front.length + w.length
        then ((front ++ before).length : Int) + v.length - ((front ++ before).length + 1 - (front.length + 1))
        else front.length + w.length) = front.length + v.length := by
    split <;> omega
  have trimmedText :
      (if ((front ++ before).length : Int) + 1 ≠ front.length + 1 ∨
          ((front ++ before).length : Int) + v.length ≠ front.length + w.length
        then splice f.text (front.length + 1) (front.length + w.length)
          (sub f.text ((front ++ before).length + 1) ((front ++ before).length + v.length))
        else f.text) = front ++ v ++ rest := by
    split
    case isTrue => rw [kept, text, splice_front]
    case isFalse same =>
      have lengths := congrArg List.length shape
      simp only [List.length_append, Nat.cast_add] at same lengths
      obtain rfl : before = [] := List.length_eq_zero_iff.mp (by omega)
      obtain rfl : after = [] := List.length_eq_zero_iff.mp (by omega)
      rw [text, shape, List.nil_append, List.append_nil]
  rw [ended, size] at ran
  rw [ended, trimmedText, splice_front] at text'
  refine ⟨f', ?_, text'⟩
  rw [ran, List.length_append, Nat.cast_add]
  congr 3
  omega

/-- A run of letters without a word goes from the text. -/
theorem formatWord_dropped {f : Formatted} {front w rest : Str} (text : f.text = front ++ w ++ rest) {trimmed : Trimmed}
    (ran : t.ignorechars w (front.length + 1) (front.length + w.length) true = .ok trimmed)
    (gone : trimmed.w = none ∨ trimmed.middlefound = true) :
    ∃ f', t.formatWord fuel repairOrth f (front.length + 1) (front.length + w.length) = .ok (f', front.length + 1) ∧
      f'.text = front ++ rest := by
  have here : sub f.text (front.length + 1) (front.length + w.length) = w := by rw [text, sub_middle]
  have cut : splice f.text (front.length + 1) (front.length + w.length) [] = front ++ rest := by
    rw [text, splice_front, List.append_nil]
  obtain ⟨v, first, last, middlefound, isabbrev⟩ := trimmed
  unfold Tables.formatWord
  rw [here, ran, run_bind_ok]
  cases v with
  | none => exact ⟨_, by rw [Int.add_sub_cancel]; rfl, cut⟩
  | some v =>
      obtain rfl : middlefound = true := by simpa using gone
      exact ⟨_, by rw [Int.add_sub_cancel]; rfl, cut⟩

theorem dropPeriods_all (n : Nat) (wstart : Int) :
    dropPeriods (List.replicate (n + 1) 46) wstart (wstart + n) = ([], wstart + n + 1, wstart + n + 1) := by
  induction n generalizing wstart with
  | zero =>
      rw [List.replicate_one, dropPeriods, if_pos (by omega)]
      simp [dropPeriods]
  | succ n ih =>
      have step := ih (wstart + 1)
      rw [List.replicate_succ, dropPeriods, if_neg (by omega), Nat.cast_succ,
        show wstart + ((n : Int) + 1) = wstart + 1 + n by omega, step]

theorem ignorechars_replicate (n : Nat) (wstart : Int) (abbrevcheck : Bool) :
    t.ignorechars (List.replicate (n + 1) 46) wstart (wstart + n) abbrevcheck =
      .ok ⟨some [], wstart + n + 1, wstart + n + 1, false, false⟩ := by
  rw [ignorechars, dropPeriods_all]
  rfl

theorem sub_next (front rest : Str) : sub (front ++ rest) (front.length + 1) (front.length + 1) = rest.take 1 := by
  rw [sub_of_toNat _ _ _ (by omega) (by omega)]
  have last : ((front.length : Int) + 1).toNat = front.length + 1 := by omega
  have first : ((front.length : Int) + 1 - 1).toNat = front.length := by omega
  rw [last, first, List.take_length_add_append, List.drop_left]

/-- Of a run of periods the empty word is left, with the byte behind the run for its place: that byte is put in and
taken out again, and the search goes on behind it. -/
theorem formatWord_periods {f : Formatted} {front rest : Str} {n : Nat}
    (text : f.text = front ++ List.replicate (n + 1) 46 ++ rest) (sure : t.sureWord fuel repairOrth [] = .ok []) :
    ∃ f', t.formatWord fuel repairOrth f (front.length + 1)
          (front.length + (List.replicate (n + 1) (46 : UInt8)).length) = .ok (f', front.length + 2) ∧
      f'.text = front ++ rest := by
  have size : ((List.replicate (n + 1) (46 : UInt8)).length : Int) = n + 1 := by
    rw [List.length_replicate, Nat.cast_succ]
  have here : sub f.text (front.length + 1) (front.length + (List.replicate (n + 1) (46 : UInt8)).length) =
      List.replicate (n + 1) 46 := by rw [text, sub_middle]
  have trimmed := t.ignorechars_replicate n (front.length + 1) true
  rw [Int.add_assoc, Int.add_comm 1, ← size] at trimmed
  obtain ⟨f', ran, text'⟩ := formatWord_sure (by rw [here]; exact trimmed) rfl sure (fun short => by cases short)
  have moved : (front.length : Int) + (List.replicate (n + 1) (46 : UInt8)).length + 1 ≠ front.length + 1 := by omega
  rw [if_pos (.inl moved)] at ran
  rw [if_pos (.inl moved), if_pos (.inl moved)] at text'
  refine ⟨f', ?_, ?_⟩
  · rw [ran]
    congr 2
    simp only [List.length_nil, Nat.cast_zero]
    omega
  · have behind : sub f.text (front.length + (List.replicate (n + 1) (46 : UInt8)).length + 1)
        (front.length + (List.replicate (n + 1) (46 : UInt8)).length + 1) = rest.take 1 := by
      rw [text, ← Nat.cast_add, ← List.length_append, sub_next]
    have before : sub (front ++ rest.take 1 ++ rest) 1 ((front.length : Int) + 1 - 1) = front := by
      rw [Int.add_sub_cancel, sub_first, List.append_assoc, List.take_left]
    have after : subFrom (front ++ rest.take 1 ++ rest) ((front.length : Int) + 1 + 1) = rest := by
      rw [← Nat.cast_succ, subFrom_succ, List.append_assoc, Nat.succ_eq_add_one, ← List.drop_drop, List.drop_left]
      cases rest <;> rfl
    rw [text', behind, text, splice_front, Int.sub_sub_self, splice, before, after, List.append_nil]

/-! The loop. -/

theorem formatLoop_congr {f : Formatted} {init init' : Int}
    (same : findRun isLetter f.text init = findRun isLetter f.text init')
    (rounds : Nat) : t.formatLoop fuel repairOrth rounds f init = t.formatLoop fuel repairOrth rounds f init' := by
  cases rounds with
  | zero => rfl
  | succ rounds => rw [formatLoop, formatLoop, same]

/-- What a pass over a run of letters leaves in its place, and where the next search may begin. -/
def Passes (t : Tables) (fuel : Nat) (repairOrth : Bool) (f : Formatted) (front w rest new : Str) : Prop :=
  ∃ f' init, t.formatWord fuel repairOrth f (front.length + 1) (front.length + w.length) = .ok (f', init) ∧
    f'.text = front ++ new ++ rest ∧
    findRun isLetter f'.text init = findRun isLetter f'.text ((front ++ new).length + 1)

section Run

variable {w front rest : Str} {f : Formatted} (searchable : t.Searchable) (encoded : Utf8.Encoded w)
  (letters : ∀ b ∈ w, isLetter b = true) (heeded : t.Heeded fuel repairOrth w) (text : f.text = front ++ w ++ rest)

include encoded heeded in
theorem Heeded.chars : (∀ c ∈ (Utf8.chars w).1, Utf8.Readable c) ∧ (Utf8.chars w).1.flatten = w := by
  obtain ⟨cs, chars, rfl⟩ := encoded
  have readable : ∀ c ∈ cs, Utf8.Readable c := fun c member =>
    ⟨chars c member, fun nul => heeded.readable (List.mem_flatten.mpr ⟨c, member, by simp [nul]⟩)⟩
  rw [Utf8.chars_flatten cs readable]
  exact ⟨readable, rfl⟩

include searchable encoded letters heeded text

theorem Heeded.drops (filled : w ≠ []) (ended : ∀ b ∈ rest.head?, isLetter b = false)
    (missing : t.meantWord (taken w) = none) : t.Passes fuel repairOrth f front w rest [] := by
  obtain ⟨readable, whole⟩ := Heeded.chars encoded heeded
  rw [Passes, List.append_nil]
  by_cases periods : (Utf8.chars w).1.dropWhile (· = lit ".") = []
  · obtain ⟨n, rfl⟩ : ∃ n, w = List.replicate (n + 1) 46 := by
      have bytes := flatten_dropWhile fun c member => (readable c member).1
      rw [whole, periods, List.flatten_nil, List.dropWhile_eq_nil_iff] at bytes
      refine ⟨w.length - 1, List.eq_replicate_iff.mpr ⟨?_, fun b member => by simpa using bytes b member⟩⟩
      have long := List.length_pos_iff.mpr filled
      omega
    obtain ⟨f', ran, text'⟩ := formatWord_periods text (heeded.periods periods)
    have behind := @findRun_behind isLetter [] 2 (by omega) rfl (by simp) front rest fun _ => ended
    rw [List.append_nil, ← text', Int.add_comm] at behind
    exact ⟨f', _, ran, text', behind⟩
  · have dropped := ignorechars_dropped readable periods heeded.separate front (by rwa [whole]) searchable missing
    rw [whole] at dropped
    obtain ⟨trimmed, ran, gone⟩ := dropped
    obtain ⟨f', ran', text'⟩ := @formatWord_dropped t fuel repairOrth f front w rest text trimmed ran gone
    exact ⟨f', _, ran', text', rfl⟩

variable {word : List Str} (found : t.meantWord (taken w) = some word)
include found

omit text in
theorem Heeded.placed (given : t.unicode = Maccer.unicode) (front : Str) : ∃ before after isabbrev,
    w = before ++ word.flatten ++ after ∧
    t.ignorechars w (front.length + 1) (front.length + w.length) true =
      .ok ⟨some word.flatten, (front ++ before).length + 1, (front ++ before).length + word.flatten.length, false,
        isabbrev⟩ ∧
    (isabbrev = true → t.isAbbrev (t.dropFinal (taken w)) word = true) ∧
    lower t.unicode word.flatten = .ok (word.map lowerChar).flatten := by
  obtain ⟨readable, whole⟩ := Heeded.chars encoded heeded
  have more : (Utf8.chars w).1.dropWhile (· = lit ".") ≠ [] := by
    intro periods
    rw [taken, periods] at found
    cases found
  have kept := ignorechars_kept readable more heeded.separate front (by rwa [whole]) searchable found
    fun user => heeded.marked user (by rw [found]; rfl)
  rw [whole] at kept
  obtain ⟨before, after, isabbrev, shape, trimmed, abbreviated⟩ := kept
  have inside : word ⊆ (Utf8.chars w).1 := fun c member => (List.dropWhile_sublist _).mem
    ((upToPeriod_front _).subset ((t.dropFinal_front _).subset (strip_subset _
      ((spared_front _ _).subset ((meantWord_some found).1.symm ▸ member)))))
  refine ⟨before, after, isabbrev, shape, trimmed, abbreviated, ?_⟩
  rw [given]
  exact lower_flatten fun c member => readable c (inside member)

theorem Heeded.keeps (given : t.unicode = Maccer.unicode) {s : Str}
    (sure : t.sureWord fuel repairOrth (word.map lowerChar).flatten = .ok s) :
    t.Passes fuel repairOrth f front w rest s := by
  obtain ⟨before, after, isabbrev, shape, trimmed, abbreviated, lowered⟩ :=
    Heeded.placed searchable encoded letters heeded found given front
  obtain ⟨f', ran, text'⟩ := formatWord_placed text shape trimmed lowered (lower_length word) sure fun short =>
    utf8capitalize_begins (heeded.capital word s found (abbreviated short) sure)
  exact ⟨f', _, ran, text', rfl⟩

theorem Heeded.fails (given : t.unicode = Maccer.unicode) {fault : Fault}
    (fails : t.sureWord fuel repairOrth (word.map lowerChar).flatten = .error fault) :
    t.formatWord fuel repairOrth f (front.length + 1) (front.length + w.length) = .error fault := by
  obtain ⟨before, after, isabbrev, shape, trimmed, abbreviated, lowered⟩ :=
    Heeded.placed searchable encoded letters heeded found given front
  have here : sub f.text (front.length + 1) (front.length + w.length) = w := by rw [text, sub_middle]
  exact formatWord_fails (by rwa [here]) lowered fails

end Run

theorem sourceTokens_congr {text text' : Str} (same : words text = words text') :
    t.sourceTokens fuel repairOrth text = t.sourceTokens fuel repairOrth text' := by
  rw [sourceTokens, sourceTokens, same]

theorem sourceTokens_dropped {text w rest : Str} (first : words text = w :: words rest) (dropped : t.meantWords w = []) :
    t.sourceTokens fuel repairOrth text = t.sourceTokens fuel repairOrth rest := by
  rw [sourceTokens, sourceTokens, first, List.flatMap_cons, dropped, List.nil_append]

theorem sourceTokens_word {text w rest : Str} {word : List Str} (first : words text = w :: words rest)
    (single : t.meantWords w = [word]) :
    t.sourceTokens fuel repairOrth text = (do
      let s ← t.sureWord fuel repairOrth (word.map lowerChar).flatten
      (words s ++ ·) <$> t.sourceTokens fuel repairOrth rest) := by
  rw [sourceTokens, sourceTokens, first, List.flatMap_cons, single, List.singleton_append, List.mapM_cons]
  cases t.sureWord fuel repairOrth (word.map lowerChar).flatten with
  | error fault => rfl
  | ok s =>
      simp only [run_bind_ok]
      cases ((words rest).flatMap t.meantWords).mapM
          fun word => t.sureWord fuel repairOrth (word.map lowerChar).flatten with
      | error fault => rfl
      | ok sure => rfl

theorem formatLoop_passes {f : Formatted} {front w rest new : Str}
    (found : findRun isLetter f.text (front.length + 1) =
      some ((front.length : Int) + 1, (front.length : Int) + w.length))
    (passes : t.Passes fuel repairOrth f front w rest new) (rounds : Nat) :
    ∃ f', f'.text = front ++ new ++ rest ∧ t.formatLoop fuel repairOrth (rounds + 1) f (front.length + 1) =
      t.formatLoop fuel repairOrth rounds f' ((front ++ new).length + 1) := by
  obtain ⟨f', init, ran, text, same⟩ := passes
  refine ⟨f', text, ?_⟩
  rw [formatLoop, found]
  dsimp only
  rw [ran, run_bind_ok]
  exact formatLoop_congr same rounds

theorem formatLoop_tokens (given : t.unicode = Maccer.unicode) (searchable : t.Searchable) {cut : List Str}
    (pieced : Pieced isLetter cut) (each : ∀ w ∈ words cut.flatten, Utf8.Encoded w ∧ t.Heeded fuel repairOrth w)
    (front : Str) (apart : ∀ x ∈ front.getLast?, ∀ y ∈ cut.flatten.head?, isLetter x = false ∨ isLetter y = false)
    (f : Formatted) (text : f.text = front ++ cut.flatten) (rounds : Nat) (enough : cut.flatten.length ≤ rounds) :
    (fun f' => words f'.text) <$> t.formatLoop fuel repairOrth (rounds + 1) f (front.length + 1) =
      (words front ++ ·) <$> t.sourceTokens fuel repairOrth cut.flatten := by
  induction pieced generalizing front f rounds with
  | nil =>
      have missing : findRun isLetter f.text (front.length + 1) = none := by
        rw [text, List.flatten_nil, List.append_nil]
        exact findRun_beyond isLetter front _ (by omega)
      rw [formatLoop, missing]
      show Except.ok (words f.text) = Except.ok (words front ++ [])
      rw [text, List.flatten_nil, List.append_nil, List.append_nil]
  | gap piece later outside pieced ih =>
      have text' : f.text = front ++ piece ++ later.flatten := by rw [text, List.flatten_cons, List.append_assoc]
      have behind := @findRun_behind isLetter piece 1 le_rfl (findRun_outside outside) (by omega) front later.flatten
        fun beyond => by omega
      rw [← text', Int.add_comm] at behind
      have passed : words (piece :: later).flatten = words later.flatten := by
        rw [List.flatten_cons, words_gap_append outside]
      rw [formatLoop_congr behind, sourceTokens_congr passed, ← words_append_gap outside]
      refine ih (by rwa [passed] at each) _ (fun x last y first => ?_) f text' rounds ?_
      · rcases List.eq_nil_or_concat' piece with rfl | ⟨piece, b, rfl⟩
        · rw [List.append_nil] at last
          exact apart x last y first
        · rw [← List.append_assoc, List.getLast?_concat, Option.mem_some_iff] at last
          exact .inl (outside x (by simp [last]))
      · rw [List.flatten_cons, List.length_append] at enough
        omega
  | run piece later filled within ended pieced ih =>
      have first : words (piece :: later).flatten = piece :: words later.flatten := by
        rw [List.flatten_cons, words_run filled within ended]
      rw [first, List.forall_mem_cons] at each
      obtain ⟨⟨encoded, heeded⟩, each⟩ := each
      have text' : f.text = front ++ piece ++ later.flatten := by rw [text, List.flatten_cons, List.append_assoc]
      have found := findRun_context le_rfl (findRun_whole isLetter piece filled within) front ended
      rw [← text', Int.add_comm 1, Int.add_comm (piece.length : Int)] at found
      have long := List.length_pos_iff.mpr filled
      rw [List.flatten_cons, List.length_append] at enough
      obtain ⟨rounds, rfl⟩ : ∃ n, rounds = n + 1 := ⟨rounds - 1, by omega⟩
      have apart' (new : Str) : ∀ x ∈ (front ++ new).getLast?, ∀ y ∈ later.flatten.head?,
          isLetter x = false ∨ isLetter y = false := fun _ _ y member => .inr (ended y member)
      have single := meantWords_taken given searchable.period heeded.single
      cases meant : t.meantWord (taken piece) with
      | none =>
          rw [meant] at single
          obtain ⟨f', text'', pass⟩ := formatLoop_passes found
            (Heeded.drops searchable encoded within heeded text' filled ended meant) (rounds + 1)
          rw [pass, sourceTokens_dropped first single, ih each _ (apart' []) f' text'' rounds (by omega),
            List.append_nil]
      | some word =>
          rw [meant] at single
          rw [sourceTokens_word first single]
          cases sure : t.sureWord fuel repairOrth (word.map lowerChar).flatten with
          | error fault =>
              rw [formatLoop, found]
              dsimp only
              rw [Heeded.fails searchable encoded within heeded text' meant given sure]
              rfl
          | ok s =>
              obtain ⟨f', text'', pass⟩ := formatLoop_passes found
                (Heeded.keeps searchable encoded within heeded text' meant given sure) (rounds + 1)
              have new : words (front ++ s) = words front ++ words s := by
                apply words_append
                intro x last _ _
                obtain ⟨b, piece, rfl⟩ := List.exists_cons_of_ne_nil filled
                have letter := within b List.mem_cons_self
                exact .inl ((apart x last b rfl).resolve_right (by simp [letter]))
              rw [pass, ih each _ (apart' s) f' text'' rounds (by omega), new, run_bind_ok]
              cases t.sourceTokens fuel repairOrth later.flatten with
              | error fault => rfl
              | ok tokens => exact congrArg Except.ok (List.append_assoc _ _ _)

/-- The words that `formatsource` leaves are those of the text without its comments, each cut, trimmed and substituted,
if it can make the right words of each run of letters. -/
theorem formatsource_tokens (given : t.unicode = Maccer.unicode) (searchable : t.Searchable) {text : Str}
    (encoded : Utf8.Encoded text) (enough : text.length < fuel)
    (heeded : ∀ d, decomment text = .ok d → ∀ w ∈ words d, t.Heeded fuel repairOrth w) :
    (fun f => words f.text) <$> t.formatsource fuel repairOrth text =
      decomment text >>= t.sourceTokens fuel repairOrth := by
  rw [formatsource]
  cases bare : decomment text with
  | error fault => rfl
  | ok d =>
      obtain ⟨encoded', shorter⟩ := decomment_encoded encoded bare
      have each : ∀ w ∈ words (pieces isLetter d).flatten, Utf8.Encoded w ∧ t.Heeded fuel repairOrth w := by
        rw [pieces_flatten]
        exact fun w member => ⟨words_encoded encoded' member, heeded d bare w member⟩
      have ran := formatLoop_tokens given searchable (pieces_pieced d) each [] (by simp) ⟨d, ∅, [], ∅⟩
        (by rw [pieces_flatten]; rfl) (fuel - 1) (by rw [pieces_flatten]; omega)
      rw [show fuel - 1 + 1 = fuel by omega, pieces_flatten] at ran
      rw [run_bind_ok, run_bind_ok]
      refine ran.trans ?_
      cases t.sourceTokens fuel repairOrth d <;> rfl

/-- What is behind an inner period goes with the characters that are taken off the word before it. -/
theorem formatsource_inner : ¬ ∀ (t : Tables) (fuel : Nat) (repairOrth : Bool) (text : Str),
    t.unicode = Maccer.unicode → (∀ c, t.ignores c = true → Utf8.isChar c = true) → Utf8.Encoded text →
    text.length < fuel →
    (fun f => words f.text) <$> t.formatsource fuel repairOrth text =
      decomment text >>= t.sourceTokens fuel repairOrth := by
  intro claim
  have encoded : Utf8.Encoded (lit "a.b") := ⟨[lit "a", lit ".", lit "b"], by decide, rfl⟩
  have same := claim Tables.empty 9 true (lit "a.b") rfl (fun c ignored => by cases ignored) encoded (by decide)
  have left : (fun f => words f.text) <$> Tables.empty.formatsource 9 true (lit "a.b") = .ok [lit "a"] := by
    decide +kernel
  have meant : decomment (lit "a.b") >>= Tables.empty.sourceTokens 9 true = .ok [lit "a", lit "b"] := by
    decide +kernel
  rw [left, meant] at same
  exact absurd same (by decide)

def quotedTables : Tables :=
  { Tables.empty with
    ignoretbl := AList.insert (lit "«") () (AList.insert (lit "»") () ∅)
    rules := [⟨lit "j", lit "i", none⟩] }

def quotedText : Str := lit "«Jam et», Q. /* x */o.» ..."

theorem quotedTables_searchable : quotedTables.Searchable := by
  intro c ignored
  have stored : c ∈ quotedTables.ignoretbl := AList.lookup_isSome.mp ignored
  have keys : ∀ c ∈ quotedTables.ignoretbl.keys, Utf8.isChar c = true ∧ c ∉ (lit "^$(%.[").map ([·]) := by decide
  exact keys c stored

theorem Heeded.of_word {w : Str} (word : List Str) (s : Str) (readable : 0 ∉ w)
    (separate : t.Separate (t.dropFinal (taken w)))
    (single : ∀ piece ∈ (cutPieces ((Utf8.chars w).1.dropWhile (· = lit "."))).tail, t.meantWord piece = none)
    (unmarked : t.userMarked (t.dropFinal (taken w)) = false) (found : t.meantWord (taken w) = some word)
    (sure : t.sureWord fuel repairOrth (word.map lowerChar).flatten = .ok s)
    (begins : s.head?.all fun b => (Utf8.charbytes b).isSome) : t.Heeded fuel repairOrth w where
  readable := readable
  separate := separate
  single := single
  marked user _ := by
    rw [unmarked] at user
    cases user
  capital word' s' found' _ sure' := by
    obtain rfl := Option.some.inj (found.symm.trans found')
    obtain rfl := Except.ok.inj (sure.symm.trans sure')
    exact (Option.all_eq_true _ _).mp begins
  periods alone := by
    rw [taken, alone] at found
    cases found

/-- Characters to ignore, a substitution, an abbreviation, a comment, a word cut at its period, and periods alone. -/
theorem formatsource_tokens_jam : (fun f => words f.text) <$> quotedTables.formatsource 40 false quotedText =
    .ok [lit "iam", lit "et", lit "q.", lit "o"] := by
  have encoded : Utf8.Encoded quotedText := ⟨(Utf8.chars quotedText).1, by decide, by decide⟩
  have bare : decomment quotedText = .ok (lit "«Jam et», Q. o.» ...") := by decide +kernel
  refine (formatsource_tokens rfl quotedTables_searchable encoded (by decide) fun d same w member => ?_).trans
    (by decide +kernel)
  obtain rfl := Except.ok.inj (bare.symm.trans same)
  have runs : words (lit "«Jam et», Q. o.» ...") = [lit "«Jam", lit "et»", lit "Q.", lit "o.»", lit "..."] := by
    decide
  rw [runs] at member
  simp only [List.mem_cons, List.not_mem_nil, or_false] at member
  rcases member with rfl | rfl | rfl | rfl | rfl
  · exact Heeded.of_word [lit "J", lit "a", lit "m"] (lit "iam") (by decide) (.inr (.inl (by decide)))
      (by decide) (by decide) (by decide +kernel) (by decide +kernel) (by decide)
  · refine Heeded.of_word [lit "e", lit "t"] (lit "et") (by decide) (.inr (.inr ?_))
      (by decide) (by decide) (by decide +kernel) (by decide +kernel) (by decide)
    exact ⟨[], lit "e", lit "t", lit "»", by decide, by decide, by decide⟩
  · exact Heeded.of_word [lit "Q", lit "."] (lit "q.") (by decide) (.inr (.inl (by decide)))
      (by decide) (by decide) (by decide +kernel) (by decide +kernel) (by decide)
  · exact Heeded.of_word [lit "o"] (lit "o") (by decide) (.inr (.inl (by decide)))
      (by decide) (by decide) (by decide +kernel) (by decide +kernel) (by decide)
  · exact ⟨by decide, .inl (by decide), by decide, fun _ found => (by cases found), fun _ _ found => (by cases found),
      fun _ => by decide +kernel⟩

end Tables

end Maccer
