import Maccer.Affixes
import Maccer.Marking

/-! A word that `macronize` looks up, and when it keeps its letters. -/

namespace Maccer

open Lua

open Tables (lowerChar)

namespace Tables

variable {t : Tables}

/-! The substitutions of a word. -/

variable (t) in
/-- The round of `subword` that the attempts with this doubtful word come from. -/
inductive Round (fuel : Nat) (wlower : Str) : Option (Str × Positions) → Bool → Option (Str × Positions) → Prop
  | sure : Round fuel wlower none false none
  | doubtful {doubt prev : Option (Str × Positions)} {includedoubtful : Bool} {s plainw : Str} {subatpostbl : Positions}
      (before : Round fuel wlower doubt includedoubtful prev)
      (ran : t.subword fuel wlower true true doubt = .ok (s, subatpostbl)) (shown : plain s = .ok plainw) :
      Round fuel wlower (some (plainw, subatpostbl)) true doubt

variable (t) in
/-- The attempt comes from a round of substitutions. -/
def Rooted (fuel : Nat) (wlower : Str) (v : Variation) : Prop :=
  ∃ includedoubtful prev s, t.Round fuel wlower v.doubt includedoubtful prev ∧
    t.subword fuel wlower includedoubtful true prev = .ok (s, v.subatpostbl)

theorem Rooted.next (given : t.unicode = Maccer.unicode) {fuel : Nat} {wlower suresubw : Str} {v next : Variation}
    (rooted : t.Rooted fuel wlower v) (ran : t.nextTry (t.desktop fuel) wlower suresubw v = .ok (some next)) :
    t.Rooted fuel wlower next := by
  obtain ⟨includedoubtful, prev, s, round, substituted⟩ := rooted
  unfold nextTry at ran
  split at ran
  case isTrue =>
    obtain rfl := Option.some.inj (Except.ok.inj ran)
    unfold tryEnclitic
    repeat' split
    all_goals exact ⟨_, _, _, round, substituted⟩
  case isFalse =>
    split at ran
    case isTrue =>
      obtain rfl := Option.some.inj (Except.ok.inj ran)
      unfold tryPrefix
      split
      all_goals exact ⟨_, _, _, round, substituted⟩
    case isFalse =>
      split at ran
      case isTrue =>
        obtain rfl := Option.some.inj (Except.ok.inj ran)
        exact ⟨_, _, _, round, substituted⟩
      case isFalse =>
        split at ran
        case isTrue =>
          obtain rfl := Option.some.inj (Except.ok.inj ran)
          exact ⟨_, _, _, round, substituted⟩
        case isFalse =>
          obtain ⟨⟨doubtsubw, positions⟩, called, ran⟩ := bind_eq_ok.mp ran
          obtain ⟨plainw, shown, ran⟩ := bind_eq_ok.mp ran
          have call : t.subword fuel wlower true true v.doubt = .ok (doubtsubw, positions) := called
          rw [given] at shown
          split at ran
          case isFalse => cases ran
          case isTrue =>
            obtain rfl := Option.some.inj (Except.ok.inj ran)
            exact ⟨true, v.doubt, doubtsubw, .doubtful round call shown, call⟩

theorem variationLoop_rooted (given : t.unicode = Maccer.unicode) {fuel : Nat} {wlower suresubw : Str} (rounds : Nat)
    {v v' : Variation} {macronw : Str} (rooted : t.Rooted fuel wlower v)
    (ran : t.variationLoop (t.desktop fuel) wlower suresubw rounds v = .ok (some (v', macronw))) :
    t.Rooted fuel wlower v' := by
  induction rounds generalizing v with
  | zero => cases ran
  | succ rounds ih =>
      unfold variationLoop at ran
      cases found : field t.keytbl v.plainwtry with
      | some here =>
          rw [found] at ran
          cases ran
          exact rooted
      | none =>
          rw [found] at ran
          simp only [bind_eq_ok] at ran
          obtain ⟨next, step, ran⟩ := ran
          cases next with
          | none => cases ran
          | some next => exact ih (rooted.next given step) ran

/-! A word. -/

variable (t) in
/-- What `macronize` looks up for a word, and the attempt that finds it. -/
def foundForm (fuel : Nat) (w : Str) : Run (Option (Variation × Str)) := do
  let wlower ← Utf8.replace w (field t.unicode.capsinvtbl)
  let (suresubw, subatpostbl) ← t.subword fuel wlower false true none
  let suresubw ← Utf8.replace suresubw (field t.unicode.macroninvtbl)
  t.variationLoop (t.desktop fuel) wlower suresubw fuel (.start suresubw false subatpostbl none)

variable (t) in
/-- If a form is found for the word, its prefix, stem and enclitic make up the plain word, and `getpars` finds no other
forms; and every substitution can be undone, with the period standing behind the word where that has been taken off. -/
structure Kept (fuel : Nat) (w : Str) : Prop where
  valid : Utf8.Valid w
  whole : ∀ v macronw, t.foundForm fuel w = .ok (some (v, macronw)) →
    t.Separable v.plainw ∧ DigitFree v.plainw ∧ dot v.periodremoved <:+ w ∧
      (v.plainwtry = lit "." → field t.keytbl [] = none)
  undone : ∀ v macronw wlower includedoubtful prev s, t.foundForm fuel w = .ok (some (v, macronw)) →
    lower Maccer.unicode w = .ok wlower → t.Round fuel wlower v.doubt includedoubtful prev →
    t.subword fuel wlower includedoubtful true prev = .ok (s, v.subatpostbl) →
    plain s = .ok (v.plainw ++ dot v.periodremoved) ∧
      (s = wlower ∨ ∀ made ∈ t.made fuel wlower includedoubtful prev,
        made.Undoable ∧ made.Before (dot v.periodremoved))

variable (t) in
/-- The affixes are texts, and the macrons of a prefix are put on the prefix itself. -/
structure Affixes : Prop where
  prefixes : ∀ pfplain ∈ t.prefixtbl, Utf8.Valid (t.prefixmac pfplain) ∧ plain (t.prefixmac pfplain) = .ok pfplain
  enclitics : ∀ enc ∈ t.enclitictbl, Utf8.Valid enc

/-! A word that is found. -/

/-- A text of characters with another inside is one in front of that and behind it. -/
theorem flatten_middle {cs es : List Str} (readable : ∀ c ∈ cs, Utf8.Readable c)
    (readable' : ∀ e ∈ es, Utf8.Readable e) (filled : es ≠ []) {front rest : Str} (joined : cs.flatten = front ++ (es.flatten ++ rest)) :
    ∃ fs rs, cs = fs ++ (es ++ rs) ∧ front = fs.flatten ∧ rest = rs.flatten := by
  induction cs generalizing front with
  | nil =>
      have empty : front ++ (es.flatten ++ rest) = [] := joined.symm
      have none := (List.append_eq_nil_iff.mp (List.append_eq_nil_iff.mp empty).2).1
      exact absurd ((flatten_injective readable' (by simp)).mp (none.trans List.flatten_nil.symm)) filled
  | cons c cs ih =>
      have later := fun d (member : d ∈ cs) => readable d (List.mem_cons_of_mem c member)
      by_cases whole : front = []
      · subst whole
        obtain ⟨rs, shape, rfl⟩ := Utf8.flatten_front readable readable' joined
        exact ⟨[], rs, shape, rfl, rfl⟩
      · rw [List.flatten_cons] at joined
        rcases List.append_eq_append_iff.mp joined with ⟨between, rfl, shorter⟩ | ⟨between, here, longer⟩
        · obtain ⟨fs, rs, rfl, rfl, rfl⟩ := ih later shorter
          exact ⟨c :: fs, rs, rfl, rfl, rfl⟩
        · cases between with
          | nil =>
              obtain ⟨rs, shape, rfl⟩ := Utf8.flatten_front later readable' longer.symm
              exact ⟨[c], rs, by rw [shape]; rfl, by simpa using here.symm, rfl⟩
          | cons b between =>
              obtain ⟨e, es, rfl⟩ := List.exists_cons_of_ne_nil filled
              obtain ⟨lead, tail, rfl, size⟩ := Utf8.charbytes_of_readable e (readable' e List.mem_cons_self)
              obtain ⟨first, behind, rfl⟩ := List.exists_cons_of_ne_nil whole
              have char := (readable c List.mem_cons_self).1
              rw [here] at char
              have continued := Utf8.tail_bytes char b (List.mem_append_right behind List.mem_cons_self)
              have same : lead = b := (List.cons.inj longer).1
              exact absurd (same ▸ continued) (Utf8.lead_byte size).2

theorem flatten_back {cs es : List Str} (readable : ∀ c ∈ cs, Utf8.Readable c)
    (readable' : ∀ e ∈ es, Utf8.Readable e) {front : Str} (joined : cs.flatten = front ++ es.flatten) : ∃ fs, cs = fs ++ es ∧ front = fs.flatten := by
  by_cases filled : es = []
  · exact ⟨cs, by rw [filled, List.append_nil], by simpa [filled] using joined.symm⟩
  · rw [← List.append_nil es.flatten] at joined
    obtain ⟨fs, rs, rfl, rfl, empty⟩ := flatten_middle readable readable' filled joined
    have none : rs = [] := (flatten_injective
      (fun c member => readable c (List.mem_append_right _ (List.mem_append_right _ member))) (by simp)).mp
      (empty.symm.trans List.flatten_nil.symm)
    exact ⟨fs, by rw [none, List.append_nil], rfl⟩

theorem dot_chars (period : Bool) : ∃ ds : List Str, dot period = ds.flatten ∧ ∀ d ∈ ds, d = lit "." := by
  cases period with
  | false => exact ⟨[], rfl, by simp⟩
  | true => exact ⟨[lit "."], rfl, by simp⟩

theorem dot_readable {ds : List Str} (stop : ∀ d ∈ ds, d = lit ".") : ∀ d ∈ ds, Utf8.Readable d :=
  fun d member => stop d member ▸ period_char.1

/-- The letters of the parts of a word, put together. -/
theorem parts_plain {w a b c : Str} (valid : Utf8.Valid w) (plain' : plain w = .ok w) (shape : w = a ++ b ++ c)
    {x y z : Str} (front : Utf8.Valid x ∧ plain x = .ok a) (middle : plain y = .ok b)
    (back : Utf8.Valid z ∧ plain z = .ok c) :
    Utf8.Valid (x ++ y ++ z) ∧ plain (x ++ y ++ z) = .ok w ∧ Utf8.Valid b ∧ plain b = .ok b := by
  obtain ⟨ws, readable, rfl⟩ := valid
  obtain ⟨⟨xs, readableX, rfl⟩, sameX⟩ := front
  obtain ⟨⟨zs, readableZ, rfl⟩, sameZ⟩ := back
  rw [plain_flatten readableX, Except.ok.injEq] at sameX
  rw [plain_flatten readableZ, Except.ok.injEq] at sameZ
  have marksX : ∀ d ∈ xs.map plainChar, Utf8.Readable d := by
    intro d member
    obtain ⟨e, inside, rfl⟩ := List.mem_map.mp member
    exact plainChar_readable.mpr (readableX e inside)
  have marksZ : ∀ d ∈ zs.map plainChar, Utf8.Readable d := by
    intro d member
    obtain ⟨e, inside, rfl⟩ := List.mem_map.mp member
    exact plainChar_readable.mpr (readableZ e inside)
  subst sameX sameZ
  rw [List.append_assoc] at shape
  obtain ⟨rest, rfl, joined⟩ := Utf8.flatten_front readable marksX shape
  have readable' : ∀ d ∈ rest, Utf8.Readable d := fun d member => readable d (List.mem_append_right _ member)
  obtain ⟨bs, rfl, rfl⟩ := flatten_back readable' marksZ joined.symm
  have readableB : ∀ d ∈ bs, Utf8.Readable d := fun d member => readable' d (List.mem_append_left _ member)
  rw [plain_flatten readable, Except.ok.injEq, flatten_injective ?_ readable] at plain'
  · simp only [List.map_append, plainChar_map] at plain'
    have lettersB : bs.map plainChar = bs := by
      have rest := List.append_cancel_left plain'
      exact List.append_cancel_right rest
    have plainB : plain bs.flatten = .ok bs.flatten := by rw [plain_flatten readableB, lettersB]
    obtain ⟨ys, readableY, rfl, sameY⟩ := plain_same readableB (middle.trans plainB.symm)
    have readableAll : ∀ d ∈ xs ++ ys ++ zs, Utf8.Readable d := by
      intro d member
      rcases List.mem_append.mp member with left | right
      · exact (List.mem_append.mp left).elim (readableX d) (readableY d)
      · exact readableZ d right
    have whole : xs.flatten ++ ys.flatten ++ zs.flatten = (xs ++ ys ++ zs).flatten := by simp
    refine ⟨⟨_, readableAll, whole⟩, ?_, ⟨bs, readableB, rfl⟩, plainB⟩
    rw [whole, plain_flatten readableAll, List.map_append, List.map_append, sameY, lettersB, List.append_assoc]
  · intro d member
    obtain ⟨e, inside, rfl⟩ := List.mem_map.mp member
    exact plainChar_readable.mpr (readable e inside)

/-- Whichever form is chosen has the letters of the word that was tried. -/
theorem choose_plain (given : t.unicode = Maccer.unicode) (demacronises : t.Demacronises) {fuel : Nat} {p macronw : Str}
    (valid : Utf8.Valid p) (bare : plain p = .ok p) (word : DigitFree p) (alone : p = lit "." → field t.keytbl [] = none)
    (found : field t.keytbl p = some macronw)
    {partbl : Table Str} {parcount : Nat} (pars : (t.desktop fuel).getpars p = some (partbl, parcount))
    {guessw ambigw : Option Str} (chosen : t.choose p partbl parcount = .ok (guessw, ambigw)) :
    plain ((guessw.or ambigw).getD macronw) = .ok p := by
  have stored : plain macronw = .ok p := demacronises p 0 macronw word (by rwa [slot_zero])
  unfold choose at chosen
  split at chosen
  case isFalse =>
    obtain ⟨rfl, rfl⟩ := Prod.mk.inj (Except.ok.inj chosen)
    exact stored
  case isTrue =>
    cases guessed : t.guessw partbl with
    | some w =>
        rw [guessed] at chosen
        obtain ⟨rfl, rfl⟩ := Prod.mk.inj (Except.ok.inj chosen)
        exact getpars_forms demacronises word alone pars w (guessw_listed guessed)
    | none =>
        rw [guessed] at chosen
        obtain ⟨w, marked, chosen⟩ := bind_eq_ok.mp chosen
        obtain ⟨rfl, rfl⟩ := Prod.mk.inj (Except.ok.inj chosen)
        obtain ⟨ps, readable, rfl⟩ := valid
        exact (ambigw_plain given readable marked).trans bare

theorem plain_suffix {w front z : Str} (valid : Utf8.Valid w) (bare : plain w = .ok w) (shape : w = front ++ z)
    (valid' : Utf8.Valid z) : plain z = .ok z := by
  obtain ⟨ws, readable, rfl⟩ := valid
  obtain ⟨zs, readable', rfl⟩ := valid'
  obtain ⟨fs, rfl, rfl⟩ := flatten_back readable readable' shape
  have letters : ∀ c ∈ (fs ++ zs).map plainChar, Utf8.Readable c := by
    intro c member
    obtain ⟨d, inside, rfl⟩ := List.mem_map.mp member
    exact plainChar_readable.mpr (readable d inside)
  rw [plain_flatten readable, Except.ok.injEq, flatten_injective letters readable, List.map_append] at bare
  rw [plain_flatten readable', (List.append_inj bare (List.length_map _)).2]

theorem attempt_affixes (affixes : t.Affixes) {v : Variation} (attempt : t.Attempt v) :
    Utf8.Valid (v.prefixform.getD []) ∧ Utf8.Valid (v.enclitic.getD []) := by
  have nothing : Utf8.Valid [] := ⟨[], by simp, rfl⟩
  have enclitic (w : Str) : Utf8.Valid ((t.findEnclitic w).getD []) := by
    cases ends : t.findEnclitic w with
    | none => exact nothing
    | some enc =>
        have listed := List.mem_of_find?_eq_some ends
        obtain ⟨⟨_, value⟩, member, rfl⟩ := List.mem_map.mp listed
        exact affixes.enclitics _ (mem_of_field ((mem_pairs t.hash _ _ value).mp member))
  have begun {w pfplain : Str} (found : t.findPrefix w = some pfplain) : Utf8.Valid (t.prefixmac pfplain) :=
    (affixes.prefixes pfplain (findPrefix_append found).1).1
  cases attempt with
  | whole => exact ⟨nothing, nothing⟩
  | stem p => exact ⟨nothing, enclitic p⟩
  | bare p => exact ⟨nothing, enclitic p⟩
  | rest p _ _ _ _ _ _ found => exact ⟨begun found, enclitic p⟩
  | again p _ _ _ _ _ _ _ found ends => exact ⟨begun found, by simpa [ends] using enclitic p⟩
  | both p _ _ _ _ _ _ _ found ends => exact ⟨begun found, by simpa [ends] using enclitic p⟩

/-- The word as it was, before its period. -/
structure Respelt (w : Str) (marked : Marked) : Prop where
  flags : ∀ flag ∈ marked.flagstbl, flag ∈ flagChars
  letters : ∃ word, w = word ++ dot marked.periodremoved ∧ Utf8.Valid word ∧ Utf8.Valid marked.finalw ∧
    plain marked.finalw = plain word

theorem Respelt.same {w : Str} (valid : Utf8.Valid w) {flagstbl : Table Unit}
    (flags : ∀ flag ∈ flagstbl, flag ∈ flagChars) : Respelt w ⟨w, flagstbl, false⟩ :=
  ⟨flags, w, (List.append_nil w).symm, valid, valid, rfl⟩

/-- What `macronize` does with the form that it has found. -/
structure Applied (c : Copy) (positions : List Nat) (v : Variation) (macronw : Str) (marked : Marked) : Prop where
  forms : ∃ partbl parcount guessw ambigw restored lengthened, c.getpars v.plainwtry = some (partbl, parcount) ∧
    t.choose v.plainwtry partbl parcount = .ok (guessw, ambigw) ∧
    t.restore v.subatpostbl (v.prefixform.getD [] ++ (guessw.or ambigw).getD macronw ++ v.enclitic.getD []) =
      .ok restored ∧
    (if v.prefixform.isSome then lengthenBefore restored else .ok restored) = .ok lengthened ∧
    positions.foldlM t.capitalizeAt lengthened = .ok marked.finalw
  period : marked.periodremoved = v.periodremoved
  flags : ∀ flag ∈ marked.flagstbl, flag ∈ flagChars

section

variable (given : t.unicode = Maccer.unicode) (demacronises : t.Demacronises) (rules : t.ValidRules) (affixes : t.Affixes)
include given demacronises rules affixes

/-- A found form has the letters of the substituted word, and what is restored from it those of the word itself. -/
theorem Kept.restored {fuel : Nat} {w : Str} (kept : t.Kept fuel w) {v : Variation} {macronw : Str}
    (found : t.foundForm fuel w = .ok (some (v, macronw))) :
    ∃ cs : List Str, (∀ c ∈ cs, Utf8.Readable c) ∧ w = cs.flatten ++ dot v.periodremoved ∧
      ∀ partbl parcount guessw ambigw restored, (t.desktop fuel).getpars v.plainwtry = some (partbl, parcount) →
        t.choose v.plainwtry partbl parcount = .ok (guessw, ambigw) →
        t.restore v.subatpostbl (v.prefixform.getD [] ++ (guessw.or ambigw).getD macronw ++ v.enclitic.getD []) =
          .ok restored →
        plain restored = plain (cs.map lowerChar).flatten := by
  obtain ⟨separable, digits, ⟨front, ends⟩, alone⟩ := kept.whole v macronw found
  obtain ⟨ds, tail, stop⟩ := dot_chars v.periodremoved
  obtain ⟨cs, readable, rfl⟩ : ∃ cs : List Str, (∀ c ∈ cs, Utf8.Readable c) ∧
      w = cs.flatten ++ dot v.periodremoved := by
    obtain ⟨ws, readable, rfl⟩ := kept.valid
    rw [tail] at ends
    obtain ⟨cs, rfl, rfl⟩ := flatten_back readable (dot_readable stop) ends.symm
    exact ⟨cs, fun c member => readable c (List.mem_append_left _ member), by rw [tail, List.flatten_append]⟩
  refine ⟨cs, readable, rfl, fun partbl parcount guessw ambigw restored pars chosen undone => ?_⟩
  -- the word in lowercase, and the attempt on it
  have lowers : lower Maccer.unicode (cs.flatten ++ dot v.periodremoved) =
      .ok ((cs.map lowerChar).flatten ++ dot v.periodremoved) := by
    have readable' : ∀ c ∈ cs ++ ds, Utf8.Readable c := fun c member =>
      (List.mem_append.mp member).elim (readable c) (dot_readable stop c)
    have lowered : ds.map lowerChar = ds := by
      conv_rhs => rw [← List.map_id ds]
      exact List.map_congr_left fun d last => by rw [stop d last, lowerChar, period_char.2.2]; rfl
    have all := lower_flatten readable'
    rwa [List.map_append, lowered, List.flatten_append, List.flatten_append, ← tail] at all
  obtain ⟨wlower, shown, found'⟩ := bind_eq_ok.mp (show _ >>= _ = _ from found)
  rw [given] at shown
  obtain rfl := Except.ok.inj (lowers.symm.trans shown)
  obtain ⟨⟨suresubw, subs⟩, called, found'⟩ := bind_eq_ok.mp found'
  obtain ⟨plainw, _, looked⟩ := bind_eq_ok.mp found'
  obtain ⟨attempt, stored⟩ := variationLoop_attempt _ _ _ _ _ (.whole _ _ _ _) v macronw looked
  obtain ⟨includedoubtful, prev, s, round, substituted⟩ :=
    variationLoop_rooted given fuel ⟨false, none, suresubw, .sure, called⟩ looked
  obtain ⟨shownS, undoable⟩ := kept.undone v macronw _ _ _ _ found lowers round substituted
  obtain ⟨ss, readableS, rfl, back⟩ := subword_restored given rules (lowered_readable readable) substituted undoable
  -- its letters
  have letters : plain ss.flatten = .ok v.plainw := by
    have whole : ss.flatten ++ dot v.periodremoved = (ss ++ ds).flatten := by rw [List.flatten_append, tail]
    have readable' : ∀ c ∈ ss ++ ds, Utf8.Readable c := fun c member =>
      (List.mem_append.mp member).elim (readableS c) (dot_readable stop c)
    have same : ds.map plainChar = ds := by
      conv_rhs => rw [← List.map_id ds]
      exact List.map_congr_left fun d last => by rw [stop d last, plainChar_bare period_char.2.1]; rfl
    rw [whole, plain_flatten readable', List.map_append, same, List.flatten_append, ← tail, Except.ok.injEq] at shownS
    rw [plain_flatten readableS, List.append_cancel_right shownS]
  have marks : ∀ c ∈ ss.map plainChar, Utf8.Readable c := by
    intro c member
    obtain ⟨d, inside, rfl⟩ := List.mem_map.mp member
    exact plainChar_readable.mpr (readableS d inside)
  rw [plain_flatten readableS, Except.ok.injEq] at letters
  have valid : Utf8.Valid v.plainw := ⟨_, marks, letters.symm⟩
  have bare : plain v.plainw = .ok v.plainw := by rw [← letters, plain_flatten marks, plainChar_map]
  -- the parts of the form
  obtain ⟨pfplain, prefixed, joined⟩ := (attempt_whole_iff attempt (mem_of_field stored)
    fun pfplain listed => (affixes.prefixes pfplain listed).2).mpr separable
  obtain ⟨validP, validE⟩ := attempt_affixes affixes attempt
  have bareE := plain_suffix valid bare joined.symm validE
  have word : DigitFree v.plainwtry := fun b member =>
    digits b (joined ▸ List.mem_append_left _ (List.mem_append_right _ member))
  obtain ⟨_, _, validT, bareT⟩ := parts_plain valid bare joined.symm ⟨validP, prefixed⟩
    (demacronises _ 0 macronw word (by rwa [slot_zero])) ⟨validE, bareE⟩
  have form := choose_plain given demacronises validT bareT word alone stored pars chosen
  obtain ⟨_, formed, _⟩ := parts_plain valid bare joined.symm ⟨validP, prefixed⟩ form ⟨validE, bareE⟩
  obtain ⟨r, ran, same⟩ := back _ (formed.trans (by rw [plain_flatten readableS, letters]))
  rwa [Except.ok.inj (undone.symm.trans ran)]

theorem Kept.applied {fuel : Nat} {w : Str} (kept : t.Kept fuel w) {v : Variation} {macronw : Str}
    (found : t.foundForm fuel w = .ok (some (v, macronw))) {positions : List Nat} (capitals : t.cappostbl w = .ok positions)
    {marked : Marked} (applied : t.Applied (t.desktop fuel) positions v macronw marked) : Respelt w marked := by
  obtain ⟨cs, readable, shape, restored⟩ := kept.restored given demacronises rules affixes found
  obtain ⟨⟨partbl, parcount, guessw, ambigw, back, lengthened, pars, chosen, undone, long, capitalized⟩, period,
    flags⟩ := applied
  refine ⟨flags, cs.flatten, by rw [period, shape], ⟨cs, readable, rfl⟩, ?_⟩
  have lowered := lowered_readable readable
  -- the letters stay the same where vowels are made long
  have letters : plain lengthened = plain (cs.map lowerChar).flatten := by
    have same := restored _ _ _ _ _ pars chosen undone
    obtain ⟨xs, readable', rfl, _⟩ := plain_same lowered same
    split at long
    case isTrue => exact (lengthenBefore_plain ⟨xs, readable', rfl⟩ long).2.trans same
    case isFalse => exact Except.ok.inj long ▸ same
  obtain ⟨xs, readable', rfl, same⟩ := plain_same lowered letters
  -- and where capitals are put back
  have final : plain marked.finalw = plain cs.flatten := by
    obtain ⟨ds, tail, stop⟩ := dot_chars v.periodremoved
    have small : ∀ d ∈ ds, field Maccer.unicode.capsinvtbl d = none := fun d member => stop d member ▸ period_char.2.2
    have all : ∀ c ∈ cs ++ ds, Utf8.Readable c := fun c member =>
      (List.mem_append.mp member).elim (readable c) (dot_readable stop c)
    have listed := cappostbl_eq given (Utf8.decodes_of_readable all)
    rw [List.flatten_append, ← tail, ← shape, capitals, capitals_front small, Except.ok.injEq] at listed
    have size : xs.length = cs.length := by simpa using congrArg List.length same
    have mem (i : Nat) (c : Str) (here : cs[i]? = some c) :
        i + 1 ∈ positions ↔ (field Maccer.unicode.capsinvtbl c).isSome = true := by
      have inside := (List.getElem?_eq_some_iff.mp here).1
      rw [listed, List.mem_filter, List.mem_range'_1, Nat.add_sub_cancel, List.getD_eq_getElem?_getD, here,
        Option.getD_some]
      exact and_iff_right ⟨by omega, by omega⟩
    refine capitalize_plain given positions (listed ▸ (List.nodup_range' 1).filter _) readable readable' size ?_ ?_
      capitalized
    · intro pos member
      obtain ⟨first, last⟩ := List.mem_range'_1.mp (List.mem_of_mem_filter (listed ▸ member))
      obtain ⟨i, rfl⟩ : ∃ i, pos = i + 1 := ⟨pos - 1, by omega⟩
      have here := List.getElem?_eq_getElem (l := cs) (i := i) (by omega)
      obtain ⟨letter, lowers⟩ := Option.isSome_iff_exists.mp ((mem i _ here).mp member)
      exact ⟨i, _, letter, rfl, here, lowers⟩
    · intro i c x here there
      have pair := congrArg (·[i]?) same
      simp only [List.getElem?_map, here, there, Option.map_some, Option.some.injEq] at pair
      rw [pair]
      split
      case isTrue => rfl
      case isFalse other =>
        rw [mem i c here] at other
        rw [lowerChar, Option.not_isSome_iff_eq_none.mp other, Option.getD_none]
  obtain ⟨rs, readableR, shape', _⟩ := plain_same readable final
  exact ⟨⟨rs, readableR, shape'⟩, final⟩

end

end Tables

end Maccer
