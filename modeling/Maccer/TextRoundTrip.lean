import Maccer.Lifecycle
import Maccer.SourceTokens

/-! Reading undoes learning: a source text that the key was learned from is got back from its plain text. -/

namespace Maccer

open Lua

namespace Tables

variable (t : Tables) {fuel rounds : Nat} {repairOrth : Bool}

/-! What `formatsource` makes of a text. -/

/-- A word that is learned as the form of `ds`, with what stands behind that taken off. -/
structure Learns (fuel : Nat) (repairOrth : Bool) (w : Str) (ds : List Str) : Prop where
  filled : ds ≠ []
  readable : ∀ d ∈ ds, Utf8.Readable d
  front : ds.flatten <+: w
  trimmed : ∃ isabbrev, t.ignorechars w 1 w.length true = .ok ⟨some ds.flatten, 1, ds.flatten.length, false, isabbrev⟩
  untouched : repairOrth = true ∨ ∃ positions,
    t.subword fuel (ds.map lowerChar).flatten false false none = .ok ((ds.map lowerChar).flatten, positions)

variable {t}

theorem utf8capitalize_ok {ds : List Str} (filled : ds ≠ []) (readable : ∀ d ∈ ds, Utf8.Readable d) :
    ∃ w, utf8capitalize ds.flatten = .ok w := by
  obtain ⟨d, rest, rfl⟩ := List.exists_cons_of_ne_nil filled
  have first := Utf8.sub_char (Utf8.decodes_of_readable readable) (i := 0) (c := d) rfl
  rw [Nat.cast_zero, Int.zero_add] at first
  exact ⟨_, by rw [utf8capitalize, first]; rfl⟩

theorem Learns.formatWord {w : Str} {ds : List Str} (given : t.unicode = Maccer.unicode)
    (learns : t.Learns fuel repairOrth w ds) (front rest : Str) (f : Formatted) (text : f.text = front ++ w ++ rest) :
    ∃ f', t.formatWord fuel repairOrth f (front.length + 1) (front.length + w.length) =
        .ok (f', (front ++ (ds.map lowerChar).flatten).length + 1) ∧
      f'.text = front ++ (ds.map lowerChar).flatten ++ rest := by
  obtain ⟨isabbrev, trimmed⟩ := learns.trimmed
  obtain ⟨behind, cut⟩ := learns.front
  have placed : t.ignorechars w (front.length + 1) (front.length + w.length) true =
      .ok ⟨some ds.flatten, (front ++ []).length + 1, (front ++ []).length + ds.flatten.length, false, isabbrev⟩ := by
    have moved := t.ignorechars_shift w 1 w.length front.length true
    rw [trimmed, Int.add_comm 1, Int.add_comm (w.length : Int)] at moved
    rw [moved, List.append_nil, Int.add_comm _ 1, Int.add_comm (front.length : Int)]
    rfl
  have lowered : lower t.unicode ds.flatten = .ok (ds.map lowerChar).flatten := by
    rw [given]
    exact lower_flatten learns.readable
  have sure : t.sureWord fuel repairOrth (ds.map lowerChar).flatten = .ok (ds.map lowerChar).flatten := by
    rcases learns.untouched with rfl | ⟨positions, called⟩
    · rfl
    · rw [sureWord, called]
      cases repairOrth <;> rfl
  exact formatWord_placed text cut.symm placed lowered (lower_length ds) sure fun _ =>
    utf8capitalize_ok (by simpa using learns.filled) (lowered_readable learns.readable)

variable (t) in
/-- A piece of a text, and what `formatsource` makes of it. -/
def Formats (fuel : Nat) (repairOrth : Bool) (piece new : Str) : Prop :=
  if piece.any isLetter then ∃ ds, t.Learns fuel repairOrth piece ds ∧ new = (ds.map lowerChar).flatten else new = piece

theorem formats_gap {piece new : Str} (outside : ∀ b ∈ piece, isLetter b = false) :
    t.Formats fuel repairOrth piece new ↔ new = piece := by
  rw [Formats, if_neg]
  simpa using outside

theorem formats_run {piece new : Str} (filled : piece ≠ []) (within : ∀ b ∈ piece, isLetter b = true) :
    t.Formats fuel repairOrth piece new ↔
      ∃ ds, t.Learns fuel repairOrth piece ds ∧ new = (ds.map lowerChar).flatten := by
  obtain ⟨b, member⟩ := List.exists_mem_of_ne_nil _ filled
  rw [Formats, if_pos (List.any_eq_true.mpr ⟨b, member, within b member⟩)]

theorem formatLoop_pieces (given : t.unicode = Maccer.unicode) {cut news : List Str} (pieced : Pieced isLetter cut)
    (formats : List.Forall₂ (t.Formats fuel repairOrth) cut news) (front : Str) (f : Formatted)
    (text : f.text = front ++ cut.flatten) (rounds : Nat) (enough : cut.flatten.length ≤ rounds) :
    ∃ f', t.formatLoop fuel repairOrth (rounds + 1) f (front.length + 1) = .ok f' ∧ f'.text = front ++ news.flatten := by
  induction pieced generalizing news front f rounds with
  | nil =>
      obtain rfl := List.forall₂_nil_left_iff.mp formats
      have missing : findRun isLetter f.text (front.length + 1) = none := by
        rw [text, List.flatten_nil, List.append_nil]
        exact findRun_beyond isLetter front _ (by omega)
      exact ⟨f, by rw [formatLoop, missing]; rfl, text⟩
  | gap piece later outside pieced ih =>
      obtain ⟨new, news, here, rest, rfl⟩ := List.forall₂_cons_left_iff.mp formats
      obtain rfl := (formats_gap outside).mp here
      have size : new.length + later.flatten.length ≤ rounds := by
        rwa [List.flatten_cons, List.length_append] at enough
      have text' : f.text = front ++ new ++ later.flatten := by
        rw [text, List.flatten_cons, List.append_assoc]
      have behind := @findRun_behind isLetter new 1 le_rfl (findRun_outside outside) (by omega) front later.flatten
        fun beyond => by omega
      obtain ⟨f', ran, result⟩ := ih rest (front ++ new) f text' rounds (by omega)
      rw [← text', Int.add_comm] at behind
      refine ⟨f', by rw [formatLoop_congr behind, ran], ?_⟩
      rw [result, List.flatten_cons, List.append_assoc]
  | run piece later filled within ended pieced ih =>
      obtain ⟨new, news, here, rest, rfl⟩ := List.forall₂_cons_left_iff.mp formats
      obtain ⟨ds, learns, rfl⟩ := (formats_run filled within).mp here
      have long := List.length_pos_iff.mpr filled
      have size : piece.length + later.flatten.length ≤ rounds := by
        rwa [List.flatten_cons, List.length_append] at enough
      have text' : f.text = front ++ piece ++ later.flatten := by
        rw [text, List.flatten_cons, List.append_assoc]
      have found := findRun_context le_rfl (findRun_whole isLetter piece filled within) front ended
      rw [← text', Int.add_comm 1, Int.add_comm (piece.length : Int)] at found
      obtain ⟨next, pass, text''⟩ := learns.formatWord given front later.flatten f text'
      obtain ⟨f', ran, result⟩ := ih rest (front ++ (ds.map lowerChar).flatten) next text'' (rounds - 1) (by omega)
      rw [show rounds - 1 + 1 = rounds by omega] at ran
      refine ⟨f', ?_, by rw [result, List.flatten_cons, List.append_assoc]⟩
      rw [formatLoop, found]
      simp only [pass, run_bind_ok, ran]

theorem Learns.unique {w : Str} {ds ds' : List Str} (learns : t.Learns fuel repairOrth w ds)
    (learns' : t.Learns fuel repairOrth w ds') : ds = ds' := by
  obtain ⟨_, trimmed⟩ := learns.trimmed
  obtain ⟨_, trimmed'⟩ := learns'.trimmed
  have same := congrArg Trimmed.w (Except.ok.inj (trimmed.symm.trans trimmed'))
  exact (flatten_injective learns.readable learns'.readable).mp (Option.some.inj same)

set_option maxRecDepth 8000 in
theorem lowercase_letters : ∀ e ∈ Maccer.unicode.capsinvtbl.entries, ∀ b ∈ e.2, isLetter b = true := by
  decide

theorem lowerChar_letters (d : Str) : lowerChar d = d ∨ ∀ b ∈ lowerChar d, isLetter b = true := by
  cases lowerChar_cases d with
  | inl same => exact .inl same.1
  | inr capital =>
      generalize lowerChar d = letter at capital ⊢
      exact .inr (lowercase_letters ⟨d, letter⟩ (AList.mem_lookup_iff.mp capital))

theorem mapped_letters {f : Str → Str} (each : ∀ d, f d = d ∨ ∀ b ∈ f d, isLetter b = true) {ds : List Str}
    (letters : ∀ b ∈ ds.flatten, isLetter b = true) : ∀ b ∈ (ds.map f).flatten, isLetter b = true := by
  intro b member
  obtain ⟨c, inside, within⟩ := List.mem_flatten.mp member
  obtain ⟨d, among, rfl⟩ := List.mem_map.mp inside
  rcases each d with same | own
  · rw [same] at within
    exact letters b (List.mem_flatten.mpr ⟨d, among, within⟩)
  · exact own b within

theorem Learns.word {w : Str} {ds : List Str} (learns : t.Learns fuel repairOrth w ds)
    (letters : ∀ b ∈ w, isLetter b = true) :
    (ds.map lowerChar).flatten ≠ [] ∧ ∀ b ∈ (ds.map lowerChar).flatten, isLetter b = true := by
  constructor
  · obtain ⟨d, rest, rfl⟩ := List.exists_cons_of_ne_nil learns.filled
    have char := Utf8.Char.ne_nil ((lowerChar_readable (learns.readable d (by simp))).char True)
    rw [List.map_cons, List.flatten_cons]
    exact List.append_ne_nil_of_left_ne_nil char _
  · exact mapped_letters lowerChar_letters fun b member => letters b (learns.front.subset member)

theorem formatted_word (given : t.unicode = Maccer.unicode) {text : Str} (bare : decomment text = .ok text)
    (enough : text.length < fuel) (each : ∀ w ∈ words text, ∃ ds, t.Learns fuel repairOrth w ds) {w : Str}
    {ds : List Str}
    (member : w ∈ words text) (learns : t.Learns fuel repairOrth w ds) :
    (ds.map lowerChar).flatten ∈ formattedWords t fuel repairOrth text := by
  choose! forms learned using each
  let format (piece : Str) : Str := if piece.any isLetter then ((forms piece).map lowerChar).flatten else piece
  have gap (piece : Str) (outside : ∀ b ∈ piece, isLetter b = false) : format piece = piece :=
    if_neg (by simpa using outside)
  have run (piece : Str) (word : piece ∈ words text) : format piece = ((forms piece).map lowerChar).flatten := by
    rw [words_pieces, List.mem_filter] at word
    exact if_pos word.2
  have formats :
      List.Forall₂ (t.Formats fuel repairOrth) (pieces isLetter text) ((pieces isLetter text).map format) := by
    apply List.forall₂_map_right_iff.mpr
    apply List.forall₂_same.mpr
    intro piece inside
    rcases piece_cases inside with outside | word
    · exact (formats_gap outside).mpr (gap piece outside)
    · exact (formats_run (words_ne_nil word) (words_letters word)).mpr ⟨forms piece, learned piece word, run piece word⟩
  have pieced : Pieced isLetter ((pieces isLetter text).map format) := by
    apply (pieces_pieced text).map fun piece _ => gap piece
    intro piece inside filled within
    rcases piece_cases inside with outside | word
    · exact absurd (within _ (List.head_mem filled)) (by simp [outside _ (List.head_mem filled)])
    · rw [run piece word]
      exact (learned piece word).word within
  obtain ⟨f', ran, result⟩ := formatLoop_pieces given (pieces_pieced text) formats [] ⟨text, ∅, [], ∅⟩
    (by rw [pieces_flatten]; rfl) (fuel - 1) (by rw [pieces_flatten]; omega)
  have formatted : t.formatsource fuel repairOrth text = .ok f' := by
    rw [formatsource, bare, run_bind_ok]
    rwa [show fuel - 1 + 1 = fuel by omega] at ran
  obtain ⟨filled, within⟩ := learns.word (words_letters member)
  obtain ⟨b, letter⟩ := List.exists_mem_of_ne_nil _ filled
  have inside : w ∈ pieces isLetter text := by
    rw [words_pieces] at member
    exact (List.mem_filter.mp member).1
  rw [formattedWords, formatted]
  dsimp only
  rw [result, List.nil_append, words_pieced pieced, List.mem_filter]
  refine ⟨List.mem_map.mpr ⟨w, inside, ?_⟩, List.any_eq_true.mpr ⟨b, letter, within b letter⟩⟩
  rw [run w member, (learned w member).unique learns]

/-! Plain text. -/

theorem plainChar_unmarked (c : Str) : field Maccer.unicode.macroninvtbl (plainChar c) = none := by
  cases mark : field Maccer.unicode.macroninvtbl c with
  | none => rw [plainChar_bare mark, mark]
  | some letter =>
      rw [plainChar, mark, Option.getD_some]
      exact (letters_plain ⟨c, letter⟩ (AList.mem_lookup_iff.mp mark)).2.2

set_option maxRecDepth 8000 in
theorem marks_letters : ∀ e ∈ Maccer.unicode.macroninvtbl.entries,
    (∀ b ∈ e.1, isLetter b = true) ∧ ∀ b ∈ e.2, isLetter b = true := by
  decide

set_option maxRecDepth 8000 in
theorem flags_letters : ∀ flag ∈ flagChars, ∀ b ∈ flag, isLetter b = true := by
  decide

theorem plainChar_letters (d : Str) : plainChar d = d ∨ ∀ b ∈ plainChar d, isLetter b = true := by
  cases mark : field Maccer.unicode.macroninvtbl d with
  | none => exact .inl (plainChar_bare mark)
  | some letter =>
      rw [plainChar, mark, Option.getD_some]
      exact .inr (marks_letters ⟨d, letter⟩ (AList.mem_lookup_iff.mp mark)).2

theorem gap_plain {piece : Str} (outside : ∀ b ∈ piece, isLetter b = false) :
    ∀ c ∈ piece.map ([·]), plainChar c = c ∧ c ∉ flagChars := by
  intro c member
  obtain ⟨b, inside, rfl⟩ := List.mem_map.mp member
  have other : ¬ isLetter b = true := by simp [outside b inside]
  constructor
  · apply plainChar_bare
    by_contra marked
    obtain ⟨letter, mark⟩ := Option.ne_none_iff_exists'.mp marked
    exact other ((marks_letters ⟨[b], letter⟩ (AList.mem_lookup_iff.mp mark)).1 b (by simp))
  · exact fun flag => other (flags_letters [b] flag b (by simp))

def plainPiece (piece : Str) : Str := ((Utf8.chars piece).1.map plainChar).flatten

def Unflagged (piece : Str) : Prop := ∃ cs : List Str, (∀ c ∈ cs, Utf8.Readable c ∧ c ∉ flagChars) ∧ piece = cs.flatten

theorem plainPiece_flatten {cs : List Str} (readable : ∀ c ∈ cs, Utf8.Readable c) :
    plainPiece cs.flatten = (cs.map plainChar).flatten := by
  rw [plainPiece, Utf8.chars_flatten cs readable]

theorem Unflagged.remmacs {piece : Str} (unflagged : Unflagged piece) :
    Maccer.remmacs Maccer.unicode piece = .ok (plainPiece piece) := by
  obtain ⟨cs, each, rfl⟩ := unflagged
  have readable (c : Str) (member : c ∈ cs) := (each c member).1
  have kept : cs.filter (· ∉ flagChars) = cs := List.filter_eq_self.mpr fun c member => by simpa using (each c member).2
  rw [remmacs_flatten readable, stripped, kept, plainPiece_flatten readable]

theorem Unflagged.flatten {ps : List Str} (each : ∀ piece ∈ ps, Unflagged piece) :
    Unflagged ps.flatten ∧ plainPiece ps.flatten = (ps.map plainPiece).flatten := by
  induction ps with
  | nil => exact ⟨⟨[], by simp, rfl⟩, rfl⟩
  | cons piece ps ih =>
      obtain ⟨cs, readable, rfl⟩ := each piece List.mem_cons_self
      obtain ⟨⟨later, readable', joined⟩, bared⟩ := ih fun piece member => each piece (List.mem_cons_of_mem _ member)
      have both : ∀ c ∈ cs ++ later, Utf8.Readable c ∧ c ∉ flagChars := fun c member =>
        (List.mem_append.mp member).elim (readable c) (readable' c)
      have whole : (cs.flatten :: ps).flatten = (cs ++ later).flatten := by
        rw [List.flatten_cons, joined, List.flatten_append]
      refine ⟨⟨cs ++ later, both, whole⟩, ?_⟩
      rw [whole, plainPiece_flatten fun c member => (both c member).1, List.map_append, List.flatten_append,
        List.map_cons,
        List.flatten_cons, ← bared, joined, plainPiece_flatten fun c member => (readable c member).1,
        plainPiece_flatten fun c member => (readable' c member).1]

theorem unflagged_gap {piece : Str} (outside : ∀ b ∈ piece, isLetter b = false) :
    Unflagged piece ∧ plainPiece piece = piece := by
  have readable := gap_readable outside
  have kept : (piece.map ([·])).map plainChar = piece.map ([·]) :=
    (List.map_congr_left fun c member => (gap_plain outside c member).1).trans (List.map_id _)
  refine ⟨⟨piece.map ([·]), fun c member => ⟨readable c member, (gap_plain outside c member).2⟩,
    (gap_flatten piece).symm⟩, ?_⟩
  have bared := plainPiece_flatten readable
  rwa [kept, gap_flatten] at bared

theorem unflagged_word {ds : List Str} (each : ∀ d ∈ ds, Utf8.Readable d ∧ d ∉ flagChars) (period : Bool) :
    Unflagged (ds.flatten ++ dot period) ∧
      plainPiece (ds.flatten ++ dot period) = (ds.map plainChar).flatten ++ dot period := by
  have readable (d : Str) (member : d ∈ ds) := (each d member).1
  cases period with
  | false =>
      have none' : dot false = [] := rfl
      rw [none', List.append_nil, List.append_nil]
      exact ⟨⟨ds, each, rfl⟩, plainPiece_flatten readable⟩
  | true =>
      have stop : lit "." ∉ flagChars := by decide
      have last : ∀ d ∈ ds ++ [lit "."], Utf8.Readable d ∧ d ∉ flagChars := by
        intro d member
        rcases List.mem_append.mp member with old | new
        · exact each d old
        · exact List.mem_singleton.mp new ▸ ⟨period_char.1, stop⟩
      have whole : ds.flatten ++ dot true = (ds ++ [lit "."]).flatten := by
        rw [List.flatten_append, List.flatten_singleton]
        rfl
      refine ⟨⟨_, last, whole⟩, ?_⟩
      rw [whole, plainPiece_flatten fun d member => (last d member).1, List.map_append, List.map_singleton,
        plainChar_bare period_char.2.1, List.flatten_append, List.flatten_singleton]
      rfl

theorem plain_word {ds : List Str} {period : Bool} {src : Str} (each : ∀ d ∈ ds, Utf8.Readable d ∧ d ∉ flagChars)
    (member : ds.flatten ++ dot period ∈ words src) :
    (ds.map plainChar).flatten ++ dot period ≠ [] ∧ ∀ b ∈ (ds.map plainChar).flatten ++ dot period, isLetter b = true := by
  constructor
  · cases ds with
    | nil => exact words_ne_nil member
    | cons d ds =>
        have char := Utf8.Char.ne_nil ((plainChar_readable.mpr (each d (by simp)).1).char True)
        rw [List.map_cons, List.flatten_cons, List.append_assoc]
        exact List.append_ne_nil_of_left_ne_nil char _
  · intro b inside
    have own := words_letters member
    rcases List.mem_append.mp inside with front | stop
    · exact mapped_letters plainChar_letters (fun b there => own b (List.mem_append_left _ there)) b front
    · exact own b (List.mem_append_right _ stop)

/-! What is read. -/

theorem respell_self (ds : List Str) : respell (ds.map plainChar) (ds.map lowerChar) = ds := by
  induction ds with
  | nil => rfl
  | cons d ds ih =>
      have first : respellChar (plainChar d) (lowerChar d) = d := by
        rw [respellChar, plainChar_capital]
        cases lowerChar_cases d with
        | inl lower => rw [lower.2, Option.isSome_none, if_neg Bool.false_ne_true, lower.1]
        | inr capital => rw [capital, Option.isSome_some, if_pos rfl, capital_iff.mp capital, Option.getD_some]
      rw [respell] at ih ⊢
      rw [List.map_cons, List.map_cons, List.zipWith_cons_cons, first, ih]

variable (t) in
/-- A word of a source that is read again as the form of `ds`: nothing is taken off its plain letters but a period that
the key does not have, and no sure substitution changes them. -/
structure Regained (fuel : Nat) (w : Str) (ds : List Str) (period : Bool) : Prop where
  whole : w = ds.flatten ++ dot period
  unflagged : ∀ d ∈ ds, d ∉ flagChars
  intact : t.Intact ((ds.map plainChar).flatten ++ dot period)
  untouched : t.subword fuel (((ds.map plainChar).map lowerChar).flatten ++ dot period) false true none =
    .ok (((ds.map plainChar).map lowerChar).flatten ++ dot period, [])
  unabbreviated : period = true → t.Unabbreviated ((ds.map plainChar).map lowerChar).flatten

theorem Regained.reads {w : Str} {ds : List Str} {period : Bool} (regained : t.Regained fuel w ds period)
    (readable : ∀ d ∈ ds, Utf8.Readable d)
    (single : chain t.keytbl ((ds.map plainChar).map lowerChar).flatten = [(ds.map lowerChar).flatten]) :
    t.Reads fuel (ds.map plainChar) (ds.map lowerChar) period where
  readable c member := by
    obtain ⟨d, among, rfl⟩ := List.mem_map.mp member
    exact plainChar_readable.mpr (readable d among)
  bare c member := by
    obtain ⟨d, among, rfl⟩ := List.mem_map.mp member
    exact plainChar_unmarked d
  lowercase v member := by
    obtain ⟨d, among, rfl⟩ := List.mem_map.mp member
    exact ⟨lowerChar_readable (readable d among), lowerChar_lower d⟩
  same := by
    rw [List.map_map, List.map_map]
    exact List.map_congr_left fun d _ => (lowerChar_plainChar d).symm
  intact := regained.intact
  untouched := regained.untouched
  single := single
  unabbreviated := regained.unabbreviated

theorem macronize_again (given : t.unicode = Maccer.unicode) {overwrite : Bool} {raw src text : Str}
    (plainText : remmacs t.unicode src = .ok text)
    (shown : (if overwrite then remmacs t.unicode raw else .ok raw) = .ok text) (bare : hascomments text = .ok false)
    (enough : text.length + 4 ≤ fuel)
    (readable : ∀ w ∈ words src, ∃ (ds : List Str) (period : Bool), w = ds.flatten ++ dot period ∧
      (∀ d ∈ ds, Utf8.Readable d ∧ d ∉ flagChars) ∧ t.Reads fuel (ds.map plainChar) (ds.map lowerChar) period) :
    t.macronize (t.desktop fuel) overwrite fuel raw = .ok src := by
  have unflagged : ∀ piece ∈ pieces isLetter src, Unflagged piece := by
    intro piece member
    rcases piece_cases member with outside | word
    · exact (unflagged_gap outside).1
    · obtain ⟨ds, period, rfl, each, _⟩ := readable piece word
      exact (unflagged_word each period).1
  have cut : text = ((pieces isLetter src).map plainPiece).flatten := by
    have joined := Unflagged.flatten unflagged
    rw [pieces_flatten] at joined
    rw [given, joined.1.remmacs, joined.2] at plainText
    exact (Except.ok.inj plainText).symm
  have pieced : Pieced isLetter ((pieces isLetter src).map plainPiece) := by
    apply (pieces_pieced src).map
    · exact fun piece _ outside => (unflagged_gap outside).2
    · intro piece member run within
      rcases piece_cases member with outside | word
      · exact absurd (within _ (List.head_mem run)) (by simp [outside _ (List.head_mem run)])
      · obtain ⟨ds, period, rfl, each, _⟩ := readable piece word
        rw [(unflagged_word each period).2]
        exact plain_word each word
  have turned : List.Forall₂ (t.Turned (t.desktop fuel) overwrite fuel) ((pieces isLetter src).map plainPiece)
      (pieces isLetter src) := by
    apply List.forall₂_map_left_iff.mpr
    apply List.forall₂_same.mpr
    intro piece member
    rcases piece_cases member with outside | word
    · rw [(unflagged_gap outside).2]
      exact ⟨0, Nat.zero_le _, .stop _ _ (findRun_outside outside) (by omega)⟩
    · obtain ⟨ds, period, rfl, each, reads⟩ := readable piece word
      obtain ⟨filled, letters⟩ := plain_word each word
      have turned := reads.turned given overwrite letters filled (by omega)
      rwa [respell_self, ← (unflagged_word each period).2] at turned
  have whole := t.macronize_cut (t.desktop_local fuel) pieced (by rw [← cut, shown]) (by rw [← cut, bare])
    (by rw [← cut]; omega) turned
  rwa [pieces_flatten] at whole

theorem plain_lower {ds : List Str} (readable : ∀ d ∈ ds, Utf8.Readable d) :
    plain (ds.map lowerChar).flatten = .ok ((ds.map plainChar).map lowerChar).flatten := by
  rw [plain_flatten (lowered_readable readable), List.map_map, List.map_map]
  exact congrArg (fun cs : List Str => Except.ok cs.flatten)
    (List.map_congr_left fun d _ => (lowerChar_plainChar d).symm)

theorem chain_single {keytbl : Table Str} (wf : WellFormed keytbl) {u p : Str} (word : DigitFree p)
    (same : plain u = .ok p)
    (stored : Stored keytbl u) (only : ∀ v, Stored keytbl v → plain v = .ok p → v = u) : chain keytbl p = [u] := by
  have member : u ∈ chain keytbl p := by
    rw [wf.represents.chain p word]
    exact (wf.represents.stored_plain same).mp stored
  have all : ∀ v ∈ chain keytbl p, v = u := by
    intro v inside
    obtain ⟨i, here, _⟩ := (mem_chain_iff _ _ _).mp inside
    exact only v ⟨_, here⟩ (wf.demacronises p i v word here)
  have repeated := List.eq_replicate_of_mem all
  have distinct := wf.chain_nodup p
  rw [repeated, List.nodup_replicate] at distinct
  have positive := List.length_pos_of_mem member
  have one : (chain keytbl p).length = 1 := by omega
  rw [repeated, one]
  rfl

variable (t)

/-- A source that the key is learned from is got back from its plain text with the saved key, when each of its words has
no other form in the key or in the sources. -/
theorem learned_returned (m : Tables) (given : t.unicode = Maccer.unicode) (given' : m.unicode = Maccer.unicode)
    {hash : HashOrder} {steps : Nat} {overwrite : Bool} {newsourcestbl : Table Str} {key key' loaded : Key} {file : Str}
    {count : Nat} {header src raw text : Str} (sound : Sound key) (clean : ∀ h ∈ newsourcestbl, CleanHeader h)
    (contributing : Contributing t fuel repairOrth key.headersbynumtbl (sortedpairs newsourcestbl) key.keytbl)
    (learned : learnSources t fuel repairOrth newsourcestbl key = .ok key')
    (saved : savekey hash key' = .ok (file, count))
    (load : loadkey file = .ok loaded) (keytbl : m.keytbl = loaded.keytbl)
    (source : field newsourcestbl header = some src) (commentless : decomment src = .ok src) (long : src.length < fuel)
    (each : ∀ w ∈ words src, ∃ ds period, t.Learns fuel repairOrth w ds ∧ m.Regained steps w ds period ∧
      ∀ v, Stored key.keytbl v ∨ v ∈ (sourceEntries t fuel repairOrth (sortedpairs newsourcestbl)).map Prod.snd →
        plain v = plain (ds.map lowerChar).flatten → v = (ds.map lowerChar).flatten)
    (plainText : remmacs m.unicode src = .ok text)
    (shown : (if overwrite then remmacs m.unicode raw else .ok raw) = .ok text) (bare : hascomments text = .ok false)
    (enough : text.length + 4 ≤ steps) : m.macronize (m.desktop steps) overwrite steps raw = .ok src := by
  obtain ⟨sound', entered⟩ := sound.learnSources clean contributing learned
  obtain ⟨again, kept⟩ := sound'.reload saved load
  have stored (v : Str) : Stored loaded.keytbl v ↔ Stored key.keytbl v ∨
      v ∈ (sourceEntries t fuel repairOrth (sortedpairs newsourcestbl)).map Prod.snd := by
    have forms := key.ledger.mem_forms_recordAll (sourceEntries t fuel repairOrth (sortedpairs newsourcestbl)) v
    rwa [← entered, ← kept] at forms
  have learns : ∀ w ∈ words src, ∃ ds, t.Learns fuel repairOrth w ds := fun w member =>
    (each w member).imp fun _ known => known.choose_spec.1
  refine macronize_again given' plainText shown bare enough fun w member => ?_
  obtain ⟨ds, period, own, regained, only⟩ := each w member
  refine ⟨ds, period, regained.whole, fun d inside => ⟨own.readable d inside, regained.unflagged d inside⟩, ?_⟩
  refine regained.reads own.readable ?_
  have letters : ∀ b ∈ ((ds.map plainChar).map lowerChar).flatten, isLetter b = true := by
    apply mapped_letters lowerChar_letters
    apply mapped_letters plainChar_letters
    exact fun b inside => words_letters member b (own.front.subset inside)
  have same := plain_lower own.readable
  have entry : (header, src) ∈ sortedpairs newsourcestbl := (mem_pairs _ _ _ _).mpr source
  have among : (ds.map lowerChar).flatten ∈
      (sourceEntries t fuel repairOrth (sortedpairs newsourcestbl)).map Prod.snd := by
    have formed := formatted_word given commentless long learns member own
    refine List.mem_map.mpr ⟨(header, _), List.mem_flatMap.mpr ⟨_, entry, ?_⟩, rfl⟩
    exact List.mem_map_of_mem formed
  rw [keytbl]
  refine chain_single again.ready.wellFormed (digitFree_of_letters letters) same ((stored _).mpr (.inr among)) ?_
  exact fun v known alike => only v ((stored v).mp known) (alike.trans same.symm)

set_option maxRecDepth 8000 in
theorem learned_returned_hoc : ∃ key' file count loaded,
    learnSources .empty 20 false (AList.insert (lit "Tacitus") (lit "Hōc est") ∅) hocKey = .ok key' ∧
      savekey .stored key' = .ok (file, count) ∧ loadkey file = .ok loaded ∧
      macronize { Tables.empty with keytbl := loaded.keytbl }
        (desktop { Tables.empty with keytbl := loaded.keytbl } 20) false 20 (lit "Hoc est") = .ok (lit "Hōc est") := by
  obtain ⟨key', learned, _⟩ := bind_eq_ok.mp hocSession_learned.1
  have contributing := hocSession_contributing
  rw [← hocSession_sources] at contributing
  obtain ⟨sound, entered⟩ := hocKey_sound.learnSources hocSession_clean contributing learned
  have known : lit "hōc" ∈ key'.ledger.forms := by
    rw [entered]
    exact (Ledger.mem_forms_recordAll _ _ _).mpr (.inl (by decide : Stored hocKey.keytbl (lit "hōc")))
  obtain ⟨file, count, loaded, saved, load, _⟩ := sound.saved ⟨_, known⟩ .stored
  refine ⟨key', file, count, loaded, learned, saved, load, ?_⟩
  have hoc : Tables.empty.Learns 20 false (lit "Hōc") [lit "H", lit "ō", lit "c"] :=
    ⟨by decide, by decide, by decide, ⟨false, by decide⟩, .inr ⟨[], by decide⟩⟩
  have est : Tables.empty.Learns 20 false (lit "est") [lit "e", lit "s", lit "t"] :=
    ⟨by decide, by decide, by decide, ⟨false, by decide⟩, .inr ⟨[], by decide⟩⟩
  have hoc' (keytbl : Table Str) :
      Regained { Tables.empty with keytbl } 20 (lit "Hōc") [lit "H", lit "ō", lit "c"] false :=
    ⟨by decide, by decide, of_decide_eq_true rfl, of_decide_eq_true rfl, fun other => absurd other Bool.false_ne_true⟩
  have est' (keytbl : Table Str) :
      Regained { Tables.empty with keytbl } 20 (lit "est") [lit "e", lit "s", lit "t"] false :=
    ⟨by decide, by decide, of_decide_eq_true rfl, of_decide_eq_true rfl, fun other => absurd other Bool.false_ne_true⟩
  have words' : words (lit "Hōc est") = [lit "Hōc", lit "est"] := by decide
  have entries' :
      (sourceEntries .empty 20 false [(lit "Tacitus", lit "Hōc est")]).map Prod.snd = [lit "hōc", lit "est"] := by
    decide
  have forms (v : Str) (stored : Stored hocKey.keytbl v ∨
      v ∈ (sourceEntries .empty 20 false (sortedpairs (AList.insert (lit "Tacitus") (lit "Hōc est") ∅))).map Prod.snd) :
      v = lit "hōc" ∨ v = lit "est" := by
    rw [hocSession_sources, entries'] at stored
    rcases stored with old | new
    · exact .inl (hocKey_stored v old)
    · simpa using new
  have source : field (AList.insert (lit "Tacitus") (lit "Hōc est") ∅) (lit "Tacitus") = some (lit "Hōc est") := by
    decide
  have plainText : remmacs Maccer.unicode (lit "Hōc est") = .ok (lit "Hoc est") := by decide
  refine learned_returned .empty _ rfl rfl hocKey_sound hocSession_clean contributing learned saved load rfl source
    (by decide) (by decide) (fun w member => ?_) plainText rfl (by decide) (by decide)
  rw [words'] at member
  rcases List.mem_cons.mp member with rfl | member
  · refine ⟨[lit "H", lit "ō", lit "c"], false, hoc, hoc' _, fun v stored alike => ?_⟩
    rcases forms v stored with rfl | rfl
    · decide
    · exact absurd alike (by decide)
  · rw [List.mem_singleton.mp member]
    refine ⟨[lit "e", lit "s", lit "t"], false, est, est' _, fun v stored alike => ?_⟩
    rcases forms v stored with rfl | rfl
    · exact absurd alike (by decide)
    · decide

end Tables

end Maccer
