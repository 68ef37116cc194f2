import Maccer.Abbreviations
import Maccer.Capitals
import Maccer.Contexts
import Maccer.Options
import Maccer.Splice

/-! Reading a text with a key: a word that has one form is given that form, with the capitals of the text. -/

namespace Maccer

open Lua

open Tables (lowerChar)

/-! Marks and capitals of a character. -/

set_option maxRecDepth 8000 in
theorem marks_capitals : ∀ e ∈ unicode.macroninvtbl.entries,
    lowerChar e.2 = plainChar (lowerChar e.1) ∧
      (field unicode.capsinvtbl e.2).isSome = (field unicode.capsinvtbl e.1).isSome ∧ e.2.length ≤ e.1.length ∧
      (field unicode.capsinvtbl e.1 = none → (field unicode.capstbl e.1).isSome = true) := by
  decide

set_option maxRecDepth 8000 in
theorem capitals_marks : ∀ e ∈ unicode.capsinvtbl.entries,
    (field unicode.macroninvtbl e.1 = none → field unicode.macroninvtbl e.2 = none) ∧
      field unicode.capsinvtbl e.2 = none ∧ e.2.length = e.1.length ∧ e.2 ≠ lit "." := by
  decide

theorem lowerChar_cases (c : Str) :
    lowerChar c = c ∧ field unicode.capsinvtbl c = none ∨ field unicode.capsinvtbl c = some (lowerChar c) := by
  rw [lowerChar]
  cases field unicode.capsinvtbl c with
  | none => exact .inl ⟨rfl, rfl⟩
  | some letter => exact .inr rfl

theorem lowerChar_lower (c : Str) : field unicode.capsinvtbl (lowerChar c) = none := by
  cases lowerChar_cases c with
  | inl same => rw [same.1, same.2]
  | inr capital =>
      generalize lowerChar c = letter at capital ⊢
      exact (capitals_marks ⟨c, letter⟩ (AList.mem_lookup_iff.mp capital)).2.1

theorem lowerChar_length (c : Str) : (lowerChar c).length = c.length := by
  cases lowerChar_cases c with
  | inl same => rw [same.1]
  | inr capital =>
      generalize lowerChar c = letter at capital ⊢
      exact (capitals_marks ⟨c, letter⟩ (AList.mem_lookup_iff.mp capital)).2.2.1

theorem lowerChar_bare {c : Str} (bare : field unicode.macroninvtbl c = none) :
    field unicode.macroninvtbl (lowerChar c) = none := by
  cases lowerChar_cases c with
  | inl same => rw [same.1, bare]
  | inr capital =>
      generalize lowerChar c = letter at capital ⊢
      exact (capitals_marks ⟨c, letter⟩ (AList.mem_lookup_iff.mp capital)).1 bare

theorem plainChar_bare {c : Str} (bare : field unicode.macroninvtbl c = none) : plainChar c = c := by
  rw [plainChar, bare, Option.getD_none]

theorem lowerChar_plainChar (c : Str) : lowerChar (plainChar c) = plainChar (lowerChar c) := by
  cases mark : field unicode.macroninvtbl c with
  | none => rw [plainChar_bare mark, plainChar_bare (lowerChar_bare mark)]
  | some letter =>
      have entry := (marks_capitals ⟨c, letter⟩ (AList.mem_lookup_iff.mp mark)).1
      rwa [plainChar, mark, Option.getD_some]

theorem plainChar_capital (c : Str) :
    (field unicode.capsinvtbl (plainChar c)).isSome = (field unicode.capsinvtbl c).isSome := by
  cases mark : field unicode.macroninvtbl c with
  | none => rw [plainChar_bare mark]
  | some letter =>
      have entry := (marks_capitals ⟨c, letter⟩ (AList.mem_lookup_iff.mp mark)).2.1
      rwa [plainChar, mark, Option.getD_some]

theorem plainChar_length (c : Str) : (plainChar c).length ≤ c.length := by
  cases mark : field unicode.macroninvtbl c with
  | none => rw [plainChar_bare mark]
  | some letter =>
      have entry := (marks_capitals ⟨c, letter⟩ (AList.mem_lookup_iff.mp mark)).2.2.1
      rwa [plainChar, mark, Option.getD_some]

theorem capital_of_plain {c v : Str} (capital : field unicode.capsinvtbl c = some (plainChar v))
    (lowercase : field unicode.capsinvtbl v = none) : ∃ upper, field unicode.capstbl v = some upper := by
  apply Option.isSome_iff_exists.mp
  cases mark : field unicode.macroninvtbl v with
  | none =>
      rw [plainChar_bare mark] at capital
      rw [capital_iff.mp capital]
      rfl
  | some letter => exact (marks_capitals ⟨v, letter⟩ (AList.mem_lookup_iff.mp mark)).2.2.2 lowercase

/-! A text without flags, macrons and tildes. -/

def flagChars : List Str := [NOTFOUND, AMBIG, GUESS, AFFIX, INVALID]

set_option maxRecDepth 8000 in
theorem flags_bare : ∀ flag ∈ flagChars, Utf8.Readable flag ∧ field unicode.macroninvtbl flag = none ∧
    field unicode.capsinvtbl flag = none ∧ ∀ e ∈ unicode.macroninvtbl.entries, e.2 ≠ flag := by
  decide

/-- What `remmacs` leaves of the characters of a text. -/
def stripped (cs : List Str) : List Str := (cs.filter (· ∉ flagChars)).map plainChar

theorem remmacs_flatten {cs : List Str} (readable : ∀ c ∈ cs, Utf8.Readable c) :
    remmacs unicode cs.flatten = .ok (stripped cs).flatten := by
  have cleared : remflags cs.flatten = .ok (cs.filter (· ∉ flagChars)).flatten := by
    have call : remflags cs.flatten = Utf8.replace cs.flatten fun c => if c ∈ flagChars then some [] else none := rfl
    rw [call, Utf8.replace_decodes (Utf8.decodes_of_readable readable), Except.ok.injEq]
    clear call readable
    induction cs with
    | nil => rfl
    | cons c cs ih =>
        rw [List.map_cons, List.flatten_cons, ih]
        by_cases flag : c ∈ flagChars
        · rw [List.filter_cons_of_neg (by simpa using flag), if_pos flag]
          rfl
        · rw [List.filter_cons_of_pos (by simpa using flag), if_neg flag]
          rfl
  rw [remmacs, cleared, run_bind_ok]
  exact plain_flatten fun c member => readable c (List.mem_of_mem_filter member)

theorem flag_plainChar (c : Str) : c ∈ flagChars ↔ plainChar c ∈ flagChars := by
  cases mark : field unicode.macroninvtbl c with
  | none => rw [plainChar_bare mark]
  | some letter =>
      have entry := AList.mem_lookup_iff.mp mark
      rw [plainChar, mark, Option.getD_some]
      refine iff_of_false (fun flag => ?_) fun flag => (flags_bare letter flag).2.2.2 ⟨c, letter⟩ entry rfl
      rw [(flags_bare c flag).2.1] at mark
      cases mark

theorem stripped_eq (cs : List Str) : stripped cs = (cs.map plainChar).filter (· ∉ flagChars) := by
  rw [stripped, List.filter_map]
  congr 1
  exact List.filter_congr fun c _ => by simp [flag_plainChar c]

def Alike (a b : Str) : Prop :=
  ∃ cs ds : List Str, (∀ c ∈ cs, Utf8.Readable c) ∧ (∀ d ∈ ds, Utf8.Readable d) ∧ a = cs.flatten ∧ b = ds.flatten ∧
    stripped cs = stripped ds

theorem Alike.remmacs {a b : Str} (alike : Alike a b) : Maccer.remmacs unicode a = Maccer.remmacs unicode b := by
  obtain ⟨cs, ds, readable, readable', rfl, rfl, same⟩ := alike
  rw [remmacs_flatten readable, remmacs_flatten readable', same]

theorem Alike.flatten {as bs : List Str} (alike : List.Forall₂ Alike as bs) : Alike as.flatten bs.flatten := by
  induction alike with
  | nil => exact ⟨[], [], by simp, by simp, rfl, rfl, rfl⟩
  | cons here later ih =>
      obtain ⟨cs, ds, readable, readable', rfl, rfl, same⟩ := here
      obtain ⟨cs', ds', later, later', joined, joined', same'⟩ := ih
      refine ⟨cs ++ cs', ds ++ ds', ?_, ?_, by simp [joined], by simp [joined'], ?_⟩
      · exact fun c member => (List.mem_append.mp member).elim (readable c) (later c)
      · exact fun c member => (List.mem_append.mp member).elim (readable' c) (later' c)
      · simp only [stripped, List.filter_append, List.map_append] at same same' ⊢
        rw [same, same']

/-! A form with the capitals of a word. -/

def respellChar (c v : Str) : Str :=
  if (field unicode.capsinvtbl c).isSome then (field unicode.capstbl v).getD v else v

def respell (cs vs : List Str) : List Str := List.zipWith respellChar cs vs

theorem respell_capitalized {cs vs : List Str} (size : vs.length = cs.length) :
    Tables.capitalized ((List.range' 1 cs.length).filter fun pos =>
      (field unicode.capsinvtbl (cs.getD (pos - 1) [])).isSome) vs = respell cs vs := by
  apply List.ext_getElem
  · simp [Tables.capitalized, respell, size]
  · intro i inside inside'
    have here : i < cs.length := by
      rw [respell, List.length_zipWith] at inside'
      omega
    have listed : i + 1 ∈ ((List.range' 1 cs.length).filter fun pos =>
        (field unicode.capsinvtbl (cs.getD (pos - 1) [])).isSome) ↔ (field unicode.capsinvtbl cs[i]).isSome = true := by
      rw [List.mem_filter, List.mem_range'_1, Nat.add_sub_cancel, List.getD_eq_getElem?_getD,
        List.getElem?_eq_getElem here, Option.getD_some]
      exact and_iff_right ⟨by omega, by omega⟩
    simp only [Tables.capitalized, respell, List.getElem_mapIdx, List.getElem_zipWith, respellChar, listed]

theorem respellChar_plain {c v : Str} (same : plainChar v = lowerChar c)
    (lowercase : field unicode.capsinvtbl v = none) : plainChar (respellChar c v) = c := by
  rw [respellChar]
  cases lowerChar_cases c with
  | inl lower => rw [lower.2, Option.isSome_none, if_neg Bool.false_ne_true, same, lower.1]
  | inr capital =>
      obtain ⟨upper, found⟩ := capital_of_plain (by rwa [same]) lowercase
      have upper_lower : lowerChar upper = v := by
        rw [lowerChar, capital_iff.mpr found, Option.getD_some]
      have upper_capital : (field unicode.capsinvtbl (plainChar upper)).isSome = true := by
        rw [plainChar_capital, capital_iff.mpr found]
        rfl
      rw [capital, Option.isSome_some, if_pos rfl, found, Option.getD_some]
      cases lowerChar_cases (plainChar upper) with
      | inl other =>
          rw [other.2] at upper_capital
          cases upper_capital
      | inr capital' =>
          rw [lowerChar_plainChar, upper_lower, same] at capital'
          exact Option.some.inj ((capital_iff.mp capital').symm.trans (capital_iff.mp capital))

theorem respellChar_readable {c v : Str} (readable : Utf8.Readable v) : Utf8.Readable (respellChar c v) := by
  rw [respellChar]
  split
  · cases upper : field unicode.capstbl v with
    | none => exact readable
    | some capital => exact (lowers_capital ⟨v, capital⟩ (AList.mem_lookup_iff.mp upper)).1
  · exact readable

theorem respellChar_length {c v : Str} (same : plainChar v = lowerChar c) : c.length ≤ (respellChar c v).length := by
  have long : c.length ≤ v.length := by
    have short := plainChar_length v
    rwa [same, lowerChar_length] at short
  rw [respellChar]
  split
  · cases upper : field unicode.capstbl v with
    | none => exact long
    | some capital =>
        have entry : v.length = capital.length :=
          (capitals_marks ⟨capital, v⟩ (AList.mem_lookup_iff.mp (capital_iff.mpr upper))).2.2.1
        rwa [Option.getD_some, ← entry]
  · exact long

theorem respell_length {cs vs : List Str} (same : vs.map plainChar = cs.map lowerChar) :
    cs.flatten.length ≤ (respell cs vs).flatten.length := by
  induction cs generalizing vs with
  | nil => simp
  | cons c cs ih =>
      cases vs with
      | nil => simp at same
      | cons v vs =>
          simp only [List.map_cons, List.cons.injEq] at same
          have first := respellChar_length same.1
          have later := ih same.2
          simp only [respell, List.zipWith_cons_cons, List.flatten_cons, List.length_append] at later ⊢
          omega

namespace Tables

variable (t : Tables)

/-! A word. -/

/-- A word that `ignorechars` takes nothing off. -/
def Intact (w : Str) : Prop := t.ignorechars w 1 w.length false = .ok ⟨some w, 1, w.length, false, false⟩

instance (w : Str) : Decidable (t.Intact w) := inferInstanceAs (Decidable (_ = _))

structure Spells (cs vs : List Str) : Prop where
  readable : ∀ c ∈ cs, Utf8.Readable c
  bare : ∀ c ∈ cs, field Maccer.unicode.macroninvtbl c = none
  lowercase : ∀ v ∈ vs, Utf8.Readable v ∧ field Maccer.unicode.capsinvtbl v = none
  same : vs.map plainChar = cs.map lowerChar

def dot (period : Bool) : Str := if period then lit "." else []

structure Unabbreviated (p : Str) : Prop where
  whole : field t.keytbl (p ++ lit ".") = none
  enclitic : t.findEnclitic (p ++ lit ".") = none
  part : ∀ pfplain ∈ t.findPrefix (p ++ lit "."), field t.keytbl (subFrom (p ++ lit ".") (pfplain.length + 1)) = none

/-- A word `cs`, perhaps with a period behind it, and its one form `vs` in the key: nothing is taken off the word, and no
sure substitution changes it. -/
structure Reads (fuel : Nat) (cs vs : List Str) (period : Bool) : Prop extends Spells cs vs where
  intact : t.Intact (cs.flatten ++ dot period)
  untouched : t.subword fuel ((cs.map lowerChar).flatten ++ dot period) false true none =
    .ok ((cs.map lowerChar).flatten ++ dot period, [])
  single : chain t.keytbl (cs.map lowerChar).flatten = [vs.flatten]
  unabbreviated : period = true → t.Unabbreviated (cs.map lowerChar).flatten

theorem char_occurs {v : Str} (letter : Utf8.Readable v) {cs : List Str} (chars : ∀ c ∈ cs, Utf8.isChar c = true)
    {i : Nat}
    (here : v <+: cs.flatten.drop i) : v ∈ cs := by
  induction cs generalizing i with
  | nil =>
      rw [List.flatten_nil, List.drop_nil, List.prefix_nil] at here
      exact absurd here (Utf8.Char.ne_nil (letter.char True))
  | cons c cs ih =>
      rw [List.flatten_cons] at here
      by_cases past : c.length ≤ i
      · obtain ⟨k, rfl⟩ := Nat.exists_eq_add_of_le past
        rw [← List.drop_drop, List.drop_left] at here
        exact List.mem_cons_of_mem c (ih (fun d member => chars d (by simp [member])) here)
      · obtain ⟨b, tail, rfl, size⟩ := Utf8.charbytes_of_readable v letter
        cases i with
        | zero =>
            rw [List.drop_zero] at here
            have first := (Utf8.char_begins letter (chars c (by simp)) [] (by rwa [List.append_nil])).1
            simp [first]
        | succ i =>
            cases c with
            | nil => simp at past
            | cons d later =>
                rw [List.length_cons] at past
                rw [List.cons_append, List.drop_succ_cons, List.drop_append_of_le_length (by omega)] at here
                -- a later byte of a character never begins one
                obtain ⟨x, rest, shape⟩ := List.exists_cons_of_ne_nil
                  (List.ne_nil_of_length_pos (by rw [List.length_drop]; omega) : later.drop i ≠ [])
                rw [shape, List.cons_append, List.cons_prefix_cons] at here
                have inside : x ∈ later := List.mem_of_mem_drop (by rw [shape]; simp)
                exact absurd (Utf8.tail_bytes (chars (d :: later) (by simp)) x inside) (here.1 ▸ (Utf8.lead_byte size).2)

theorem anyFound_bare {cs : List Str} (readable : ∀ c ∈ cs, Utf8.Readable c)
    (bare : ∀ c ∈ cs, field Maccer.unicode.macroninvtbl c = none) :
    anyFound cs.flatten ((pairs t.hash Maccer.unicode.macroninvtbl).map (·.1)) = .ok false := by
  have marks : ∀ mark ∈ (pairs t.hash Maccer.unicode.macroninvtbl).map (·.1),
      ∃ letter, field Maccer.unicode.macroninvtbl mark = some letter := by
    intro mark member
    obtain ⟨⟨mark, letter⟩, pair, rfl⟩ := List.mem_map.mp member
    exact ⟨letter, (mem_pairs _ _ _ _).mp pair⟩
  have plain : ∀ mark ∈ (pairs t.hash Maccer.unicode.macroninvtbl).map (·.1), hasPattern mark = false := by
    intro mark member
    obtain ⟨letter, stored⟩ := marks mark member
    exact marks_plain mark (AList.lookup_isSome.mp (Option.isSome_iff_exists.mpr ⟨letter, stored⟩))
  rw [anyFound_plain _ _ plain, Except.ok.injEq, List.any_eq_false]
  intro mark member
  obtain ⟨letter, stored⟩ := marks mark member
  have char := (letters_plain ⟨mark, letter⟩ (AList.mem_lookup_iff.mp stored)).1
  have missing := find_literal_none (plain mark member) (Utf8.Char.ne_nil (char.char True)) 0 fun i _ here => by
    have inside := char_occurs char (fun c member => (readable c member).1) here
    rw [bare mark inside] at stored
    cases stored
  rw [find, plain mark member] at missing
  simpa using missing

variable {t} {fuel rounds : Nat} {cs vs : List Str} {period : Bool}

theorem Spells.size (spells : Spells cs vs) : vs.length = cs.length := by
  have lengths := congrArg List.length spells.same
  rwa [List.length_map, List.length_map] at lengths

theorem Spells.letter (spells : Spells cs vs) {i : Nat} (here : i < cs.length) (there : i < vs.length) :
    plainChar vs[i] = lowerChar cs[i] := by
  have pair := congrArg (·[i]?) spells.same
  simpa [List.getElem?_map, List.getElem?_eq_getElem here, List.getElem?_eq_getElem there] using pair

/-- What stands behind a word without capitals of its own leaves the positions of capitals as they are. -/
theorem capitals_front {cs ds : List Str} (small : ∀ d ∈ ds, field Maccer.unicode.capsinvtbl d = none) :
    ((List.range' 1 (cs ++ ds).length).filter fun pos =>
      (field Maccer.unicode.capsinvtbl ((cs ++ ds).getD (pos - 1) [])).isSome) =
        (List.range' 1 cs.length).filter fun pos => (field Maccer.unicode.capsinvtbl (cs.getD (pos - 1) [])).isSome := by
  rw [List.length_append, List.range'_append_1.symm, List.filter_append]
  have behind : ((List.range' (1 + cs.length) ds.length).filter fun pos =>
      (field Maccer.unicode.capsinvtbl ((cs ++ ds).getD (pos - 1) [])).isSome) = [] := by
    apply List.filter_eq_nil_iff.mpr
    intro pos member
    obtain ⟨first, last⟩ := List.mem_range'_1.mp member
    obtain ⟨i, rfl⟩ := Nat.exists_eq_add_of_le first
    have here := List.getElem?_eq_getElem (l := ds) (i := i) (by omega)
    rw [List.getD_eq_getElem?_getD, List.getElem?_append_right (by omega),
      show 1 + cs.length + i - 1 - cs.length = i by omega, here, Option.getD_some, small _ (List.getElem_mem _)]
    simp
  rw [behind, List.append_nil]
  apply List.filter_congr
  intro pos member
  obtain ⟨first, last⟩ := List.mem_range'_1.mp member
  rw [List.getD_eq_getElem?_getD, List.getD_eq_getElem?_getD, List.getElem?_append_left (by omega)]

theorem Spells.capitals (given : t.unicode = Maccer.unicode) (spells : Spells cs vs) :
    ((List.range' 1 cs.length).filter fun pos =>
      (field Maccer.unicode.capsinvtbl (cs.getD (pos - 1) [])).isSome).foldlM t.capitalizeAt vs.flatten =
        .ok (respell cs vs).flatten := by
  have size := spells.size
  rw [← respell_capitalized size]
  refine capitalize_run given _ ((List.nodup_range' 1).filter _) (fun v member => (spells.lowercase v member).1) ?_
  intro pos member
  obtain ⟨range, capital⟩ := List.mem_filter.mp member
  obtain ⟨first, last⟩ := List.mem_range'_1.mp range
  obtain ⟨i, rfl⟩ : ∃ i, pos = i + 1 := ⟨pos - 1, by omega⟩
  have here : i < cs.length := by omega
  rw [Nat.add_sub_cancel, List.getD_eq_getElem?_getD, List.getElem?_eq_getElem here, Option.getD_some] at capital
  obtain ⟨letter, lowers⟩ := Option.isSome_iff_exists.mp capital
  have lowers' : field Maccer.unicode.capsinvtbl cs[i] = some (plainChar vs[i]) := by
    rw [spells.letter here (by omega), lowerChar, lowers, Option.getD_some]
  obtain ⟨upper, found⟩ := capital_of_plain lowers' (spells.lowercase _ (List.getElem_mem _)).2
  exact ⟨i, _, upper, rfl, List.getElem?_eq_getElem (by omega), found⟩

theorem period_char : Utf8.Readable (lit ".") ∧ field Maccer.unicode.macroninvtbl (lit ".") = none ∧
    field Maccer.unicode.capsinvtbl (lit ".") = none := by
  decide

theorem Reads.not_period (reads : t.Reads fuel cs vs period) : (cs.map lowerChar).flatten ≠ lit "." := by
  intro alone
  have single : cs.map lowerChar = [lit "."] :=
    (flatten_injective (lowered_readable reads.readable) (by decide)).mp (by rw [alone]; rfl)
  obtain ⟨c, rfl, lowered⟩ : ∃ c, cs = [c] ∧ lowerChar c = lit "." := by
    cases cs with
    | nil => simp at single
    | cons c cs =>
        simp only [List.map_cons, List.cons.injEq, List.map_eq_nil_iff] at single
        exact ⟨c, by rw [single.2], single.1⟩
  have here : c = lit "." := by
    cases lowerChar_cases c with
    | inl same => rw [← same.1, lowered]
    | inr capital =>
        generalize lowerChar c = letter at capital lowered
        exact absurd lowered (capitals_marks ⟨c, letter⟩ (AList.mem_lookup_iff.mp capital)).2.2.2
  -- of periods nothing is left
  have intact := reads.intact
  rw [List.flatten_singleton, here] at intact
  cases period with
  | false =>
      have emptied : t.ignorechars (lit ".") 1 1 false = .ok ⟨some [], 2, 2, false, false⟩ := rfl
      cases emptied.symm.trans intact
  | true =>
      have emptied : t.ignorechars (lit "..") 1 2 false = .ok ⟨some [], 3, 3, false, false⟩ := rfl
      cases emptied.symm.trans intact

theorem Reads.getpars (reads : t.Reads fuel cs vs period) (fuel' : Nat) :
    ∃ partbl, (t.desktop fuel').getpars (cs.map lowerChar).flatten = some (partbl, 1) := by
  refine ⟨parallels t.keytbl (cs.map lowerChar).flatten, ?_⟩
  simp only [desktop, getpars_ordinary _ _ reads.not_period, getpars_eq, reads.single]
  rfl

theorem Reads.known (reads : t.Reads fuel cs vs period) :
    field t.keytbl (cs.map lowerChar).flatten = some vs.flatten := by
  have first := chainFrom_get t.keytbl (cs.map lowerChar).flatten _ 0 0 vs.flatten
    (show (chain t.keytbl (cs.map lowerChar).flatten)[0]? = some vs.flatten by rw [reads.single]; rfl)
  rwa [slot_zero] at first

theorem variationLoop_next {c : Copy} {wlower suresubw : Str} {v next : Variation}
    (missing : field t.keytbl v.plainwtry = none)
    (tried : t.nextTry c wlower suresubw v = .ok (some next)) :
    t.variationLoop c wlower suresubw (rounds + 1) v = t.variationLoop c wlower suresubw rounds next := by
  rw [variationLoop, missing]
  simp only [tried, run_bind_ok]

theorem nextTry_period {c : Copy} {wlower suresubw : Str} {v : Variation} (p : Str) (word : v.plainw = p ++ lit ".")
    (enclitics : v.triedenclitics = true) (prefixes : v.triedprefixes = true) (bare : v.enclitic = none) :
    t.nextTry c wlower suresubw v = .ok (some (.start p true v.subatpostbl v.doubt)) := by
  have last : subFrom (p ++ lit ".") (p ++ lit ".").length = lit "." := by
    rw [List.length_append, show (lit ".").length = 1 from rfl, Nat.cast_add, Nat.cast_one, subFrom_succ, List.drop_left]
  have cut : sub (p ++ lit ".") 1 (((p ++ lit ".").length : Int) - 1) = p := by
    have shorter : (((p ++ lit ".").length : Int) - 1) = (p.length : Nat) := by
      rw [List.length_append, show (lit ".").length = 1 from rfl]
      omega
    rw [shorter, sub_first, List.take_left]
  simp only [nextTry, enclitics, prefixes, bare, word, last, cut, Bool.not_true, Bool.false_eq_true, if_false,
    Option.isSome_none, Bool.false_and, if_true, run_pure]

theorem Reads.found (reads : t.Reads fuel cs vs period) (wlower suresubw : Str) :
    t.variationLoop (t.desktop fuel) wlower suresubw (rounds + 4)
        (.start ((cs.map lowerChar).flatten ++ dot period) false [] none) =
      .ok (some (.start (cs.map lowerChar).flatten period [] none, vs.flatten)) := by
  have here (n : Nat) (removed : Bool) : t.variationLoop (t.desktop fuel) wlower suresubw (n + 1)
      (.start (cs.map lowerChar).flatten removed [] none) =
        .ok (some (.start (cs.map lowerChar).flatten removed [] none, vs.flatten)) := by
    rw [variationLoop, Variation.start, reads.known]
    rfl
  cases period with
  | false => simpa [dot] using here (rounds + 3) false
  | true =>
      have absent := reads.unabbreviated rfl
      generalize (cs.map lowerChar).flatten = p at here absent ⊢
      let whole : Variation := .start (p ++ lit ".") false [] none
      have enclitics : t.nextTry (t.desktop fuel) wlower suresubw whole =
          .ok (some { whole with triedenclitics := true }) := by
        simp only [nextTry, tryEnclitic, whole, Variation.start, absent.enclitic]
        rfl
      have prefixes : t.nextTry (t.desktop fuel) wlower suresubw { whole with triedenclitics := true } =
          .ok (some (t.tryPrefix { whole with triedenclitics := true })) := rfl
      have missing : field t.keytbl (t.tryPrefix { whole with triedenclitics := true }).plainwtry = none := by
        simp only [tryPrefix, whole, Variation.start]
        cases begun : t.findPrefix (p ++ lit ".") with
        | none => exact absent.whole
        | some pfplain => exact absent.part pfplain begun
      have period : t.nextTry (t.desktop fuel) wlower suresubw (t.tryPrefix { whole with triedenclitics := true }) =
          .ok (some (.start p true [] none)) := by
        simp only [tryPrefix, whole, Variation.start]
        cases t.findPrefix (p ++ lit ".") with
        | none => exact nextTry_period p rfl rfl rfl rfl
        | some pfplain => exact nextTry_period p rfl rfl rfl rfl
      calc
        t.variationLoop (t.desktop fuel) wlower suresubw (rounds + 4) whole
          = t.variationLoop (t.desktop fuel) wlower suresubw (rounds + 3) { whole with triedenclitics := true } :=
            variationLoop_next absent.whole enclitics
        _ = t.variationLoop (t.desktop fuel) wlower suresubw (rounds + 2)
              (t.tryPrefix { whole with triedenclitics := true }) := variationLoop_next absent.whole prefixes
        _ = t.variationLoop (t.desktop fuel) wlower suresubw (rounds + 1) (.start p true [] none) :=
            variationLoop_next missing period
        _ = .ok (some (.start p true [] none, vs.flatten)) := here rounds true

theorem restore_nothing {vs : List Str} (readable : ∀ v ∈ vs, Utf8.Readable v) :
    t.restore [] vs.flatten = .ok vs.flatten := by
  rw [restore, Utf8.len_decodes (Utf8.decodes_of_readable readable), run_bind_ok]
  generalize (List.range' 1 vs.length).reverse = positions
  induction positions with
  | nil => rfl
  | cons pos positions ih => exact ih

theorem Reads.macronizeWord (given : t.unicode = Maccer.unicode) (reads : t.Reads fuel cs vs period) (overwrite : Bool) :
    t.macronizeWord (t.desktop fuel) overwrite (rounds + 4) (cs.flatten ++ dot period) false =
      .ok ⟨(respell cs vs).flatten, ∅, period⟩ := by
  -- the characters of the word with its period
  obtain ⟨ds, tail, stop⟩ : ∃ ds : List Str, dot period = ds.flatten ∧ ∀ d ∈ ds, d = lit "." := by
    cases period with
    | false => exact ⟨[], rfl, by simp⟩
    | true => exact ⟨[lit "."], rfl, by simp⟩
  have readable : ∀ c ∈ cs ++ ds, Utf8.Readable c := fun c member =>
    (List.mem_append.mp member).elim (reads.readable c) fun last => stop c last ▸ period_char.1
  have bare : ∀ c ∈ cs ++ ds, field Maccer.unicode.macroninvtbl c = none := fun c member =>
    (List.mem_append.mp member).elim (reads.bare c) fun last => stop c last ▸ period_char.2.1
  have small : ∀ d ∈ ds, field Maccer.unicode.capsinvtbl d = none := fun d last => stop d last ▸ period_char.2.2
  have whole : cs.flatten ++ dot period = (cs ++ ds).flatten := by
    rw [List.flatten_append, tail]
  have spells : (cs ++ ds).map lowerChar = cs.map lowerChar ++ ds := by
    have lowered : ds.map lowerChar = ds := by
      conv_rhs => rw [← List.map_id ds]
      exact List.map_congr_left fun d last => by rw [lowerChar, small d last]; rfl
    rw [List.map_append, lowered]
  have whole' : (cs.map lowerChar).flatten ++ dot period = ((cs ++ ds).map lowerChar).flatten := by
    rw [spells, List.flatten_append, tail]
  have anew : t.macronizeWord (t.desktop fuel) true (rounds + 4) (cs.flatten ++ dot period) false =
      .ok ⟨(respell cs vs).flatten, ∅, period⟩ := by
    have shown : Utf8.replace (cs ++ ds).flatten (field t.unicode.capsinvtbl) =
        .ok ((cs.map lowerChar).flatten ++ dot period) := by
      rw [given, whole']
      exact lower_flatten readable
    have call : (t.desktop fuel).subword ((cs.map lowerChar).flatten ++ dot period) false none =
        .ok ((cs.map lowerChar).flatten ++ dot period, []) := reads.untouched
    have ascii : Utf8.replace ((cs.map lowerChar).flatten ++ dot period) (field t.unicode.macroninvtbl) =
        .ok ((cs.map lowerChar).flatten ++ dot period) := by
      have plains := plain_flatten (lowered_readable readable)
      have same : ((cs ++ ds).map lowerChar).map plainChar = (cs ++ ds).map lowerChar := by
        rw [List.map_map]
        exact List.map_congr_left fun c member => plainChar_bare (lowerChar_bare (bare c member))
      rw [given, whole']
      rwa [same] at plains
    obtain ⟨partbl, pars⟩ := reads.getpars fuel
    have positions := cappostbl_eq given (Utf8.decodes_of_readable readable)
    rw [capitals_front small, ← whole] at positions
    rw [← whole] at shown
    unfold Tables.macronizeWord
    simp only [if_true, run_pure, run_bind_ok, Bool.false_eq_true, if_false]
    rw [positions, run_bind_ok, shown, run_bind_ok, call, run_bind_ok]
    dsimp only
    rw [ascii, run_bind_ok, reads.found, run_bind_ok]
    simp only [applyForm, Variation.start, pars, choose, gt_iff_lt, lt_self_iff_false, if_false, run_pure, run_bind_ok,
      Option.getD_none, Option.or_none, List.nil_append, List.append_nil,
      restore_nothing fun v member => (reads.lowercase v member).1, Option.isSome_none, Bool.false_eq_true, Bool.or_self,
      reads.capitals given]
  cases overwrite with
  | true => exact anew
  | false =>
      have unmarked := t.anyFound_bare readable bare
      rw [List.flatten_append, ← tail] at unmarked
      rw [macronizeWord_keep, given, unmarked]
      exact anew

theorem length_le_of_plain {cs ds : List Str} (readable : ∀ c ∈ cs, Utf8.Readable c)
    (bare : ∀ c ∈ cs, field Maccer.unicode.macroninvtbl c = none) (readable' : ∀ d ∈ ds, Utf8.Readable d)
    (same : plain ds.flatten = plain cs.flatten) : cs.flatten.length ≤ ds.flatten.length := by
  have letters : cs.map plainChar = cs := by
    conv_rhs => rw [← List.map_id cs]
    exact List.map_congr_left fun c member => plainChar_bare (bare c member)
  rw [plain_flatten readable', plain_flatten readable, letters, Except.ok.injEq] at same
  rw [← same]
  clear same readable'
  induction ds with
  | nil => rfl
  | cons d ds ih =>
      have first := plainChar_length d
      rw [List.map_cons, List.flatten_cons, List.flatten_cons, List.length_append, List.length_append]
      omega

/-- The loop goes on right behind the new word, wherever its places are right and it has the letters of the old one:
every substitution is undone, and none only in part. -/
theorem inStep_of_plain {cs ds : List Str} (readable : ∀ c ∈ cs, Utf8.Readable c)
    (bare : ∀ c ∈ cs, field Maccer.unicode.macroninvtbl c = none) (readable' : ∀ d ∈ ds, Utf8.Readable d)
    (same : plain ds.flatten = plain cs.flatten) (flagstbl : Table Unit) (period : Bool) (front rest : Str) :
    InStep (front ++ cs.flatten ++ rest) cs.flatten (1 + front.length) (cs.flatten.length + front.length)
      ⟨ds.flatten, flagstbl, period⟩ := by
  have longer := length_le_of_plain readable bare readable' same
  refine (inStep_iff (by omega) (by simp only [List.length_append]; omega) (by omega) _).mpr ?_
  simp only [Marked.periodchar]
  split <;> omega

/-- Wherever such a word stands in a text, it is found at its places and the loop goes on right behind its form. -/
theorem Reads.inStep (given : t.unicode = Maccer.unicode) (reads : t.Reads fuel cs vs period) (overwrite : Bool)
    (front rest : Str) : ∃ marked,
    (t.desktop fuel).ignorechars (cs.flatten ++ dot period) (1 + front.length)
      ((cs.flatten ++ dot period).length + front.length) =
        .ok (some (cs.flatten ++ dot period), 1 + front.length, (cs.flatten ++ dot period).length + front.length, false) ∧
      t.macronizeWord (t.desktop fuel) overwrite (rounds + 4) (cs.flatten ++ dot period) false = .ok marked ∧
      InStep (front ++ (cs.flatten ++ dot period) ++ rest) (cs.flatten ++ dot period) (1 + front.length)
        ((cs.flatten ++ dot period).length + front.length) marked := by
  refine ⟨⟨(respell cs vs).flatten, ∅, period⟩, ?_, reads.macronizeWord given overwrite, ?_⟩
  · rw [(t.desktop_local fuel).shift]
    simp only [desktop, show t.ignorechars (cs.flatten ++ dot period) 1 _ false = _ from reads.intact]
    rfl
  · have longer := respell_length reads.same
    have size : ((dot period).length : Int) = if period then 1 else 0 := by
      cases period <;> rfl
    refine (inStep_iff (by omega) (by simp only [List.length_append]; omega) (by omega) _).mpr ?_
    simp only [Marked.periodchar, List.length_append, Nat.cast_add, size]
    omega

theorem sub_all (w : Str) : sub w 1 w.length = w := by
  rw [sub_first, List.take_length]

theorem flagstr_none (w : Str) (period : Bool) : t.flagstr ⟨w, ∅, period⟩ = [] := by
  rw [flagstr, pairs_empty]
  rfl

theorem spliceWord_form {w f : Str} (longer : w.length ≤ f.length) (period : Bool) :
    t.spliceWord (w ++ dot period) 1 (w ++ dot period).length (w ++ dot period) ⟨f, ∅, period⟩ =
      (f ++ dot period, ((f ++ dot period).length : Int) + 1) := by
  have before : sub (w ++ dot period) 1 0 = [] := sub_first _ 0
  have behind : subFrom (w ++ dot period)
      (((w ++ dot period).length : Int) + 1 - (if period then 1 else 0)) = dot period := by
    cases period with
    | false =>
        rw [dot, if_neg Bool.false_ne_true, if_neg Bool.false_ne_true, Int.sub_zero, subFrom_succ, List.drop_length]
    | true =>
        rw [dot, if_pos rfl, if_pos rfl, List.length_append, show (lit ".").length = 1 from rfl, Nat.cast_add,
          Nat.cast_one,
          Int.add_sub_cancel, subFrom_succ, List.drop_left]
  have size : ((dot period).length : Int) = if period then 1 else 0 := by
    cases period <;> rfl
  simp only [spliceWord, flagstr_none, Marked.periodchar, Int.sub_self, before, behind, List.nil_append, List.append_nil,
    List.length_nil, Nat.cast_zero, Int.add_zero, Prod.mk.injEq, true_and]
  simp only [List.length_append, Nat.cast_add, size]
  split <;> split <;> omega

theorem Reads.turned (given : t.unicode = Maccer.unicode) (reads : t.Reads fuel cs vs period) (overwrite : Bool)
    (letters : ∀ b ∈ cs.flatten ++ dot period, isLetter b = true) (filled : cs.flatten ++ dot period ≠ [])
    (steps : 4 ≤ fuel) :
    t.Turned (t.desktop fuel) overwrite fuel (cs.flatten ++ dot period) ((respell cs vs).flatten ++ dot period) := by
  obtain ⟨rounds, rfl⟩ : ∃ rounds, fuel = rounds + 4 := ⟨fuel - 4, by omega⟩
  have long := List.length_pos_iff.mpr filled
  have spliced := t.spliceWord_form (respell_length reads.same) period
  have ran : t.macronizeToken (t.desktop (rounds + 4)) overwrite (rounds + 4) (cs.flatten ++ dot period) 1
      (cs.flatten ++ dot period).length =
        .ok ((respell cs vs).flatten ++ dot period, ((respell cs vs).flatten ++ dot period).length + 1) := by
    have trimmed : (t.desktop (rounds + 4)).ignorechars (cs.flatten ++ dot period) 1 (cs.flatten ++ dot period).length =
        .ok (some (cs.flatten ++ dot period), 1, (cs.flatten ++ dot period).length, false) := by
      simp only [desktop, show t.ignorechars (cs.flatten ++ dot period) 1 _ false = _ from reads.intact]
      rfl
    rw [macronizeToken, sub_all, trimmed, run_bind_ok]
    simp only [if_neg filled, reads.macronizeWord given overwrite, run_bind_ok, spliced]
    rfl
  exact ⟨1, long, .pass _ _ _ 1 _ 1 _ 0 (findRun_whole isLetter _ filled letters) ran (by omega)
    (.stop _ _ (findRun_beyond isLetter _ _ (by omega)) (by omega))⟩

/-! A text. -/

variable (t) in
def spelled (w : Str) : Option Str :=
  (field t.keytbl ((Utf8.chars w).1.map lowerChar).flatten).map fun form =>
    (respell (Utf8.chars w).1 (Utf8.chars form).1).flatten

variable (t) in
/-- A piece of a text as it is read. A period that the key does not have stays behind the word. -/
def reading (piece : Str) : Str :=
  if piece.any isLetter then
    match t.spelled piece with
    | some w => w
    | none =>
        match t.spelled piece.dropLast with
        | some w => w ++ lit "."
        | none => piece
  else piece

theorem reading_gap {piece : Str} (outside : ∀ b ∈ piece, isLetter b = false) : t.reading piece = piece := by
  rw [reading, if_neg]
  simpa using outside

theorem Reads.spelled (reads : t.Reads fuel cs vs period) : t.spelled cs.flatten = some (respell cs vs).flatten := by
  rw [Tables.spelled, Utf8.chars_flatten cs reads.readable, reads.known, Option.map_some,
    Utf8.chars_flatten vs fun v member => (reads.lowercase v member).1]

theorem Reads.reading (reads : t.Reads fuel cs vs period) (letters : ∀ b ∈ cs.flatten ++ dot period, isLetter b = true)
    (filled : cs.flatten ++ dot period ≠ []) :
    t.reading (cs.flatten ++ dot period) = (respell cs vs).flatten ++ dot period := by
  obtain ⟨b, member⟩ := List.exists_mem_of_ne_nil _ filled
  rw [Tables.reading, if_pos (List.any_eq_true.mpr ⟨b, member, letters b member⟩)]
  cases period with
  | false =>
      have none' : dot false = [] := rfl
      rw [none', List.append_nil, List.append_nil, reads.spelled]
  | true =>
      have missing : t.spelled (cs.flatten ++ lit ".") = none := by
        have chars := Utf8.chars_flatten (cs ++ [lit "."]) fun c member => by
          rcases List.mem_append.mp member with old | last
          · exact reads.readable c old
          · exact List.mem_singleton.mp last ▸ period_char.1
        rw [List.flatten_append, List.flatten_singleton] at chars
        have lowered : lowerChar (lit ".") = lit "." := by
          rw [lowerChar, period_char.2.2, Option.getD_none]
        rw [Tables.spelled, chars, List.map_append, List.map_singleton, lowered, List.flatten_append,
          List.flatten_singleton,
          (reads.unabbreviated rfl).whole]
        rfl
      have cut : (cs.flatten ++ lit ".").dropLast = cs.flatten := by
        rw [show lit "." = [46] from rfl, List.dropLast_concat]
      rw [show dot true = lit "." from rfl, missing, cut, reads.spelled]

theorem words_pieced {cut : List Str} (pieced : Pieced isLetter cut) :
    words cut.flatten = cut.filter (·.any isLetter) := by
  induction pieced with
  | nil => rfl
  | gap piece later outside pieced ih =>
      have gone : (piece :: later).filter (·.any isLetter) = later.filter (·.any isLetter) :=
        List.filter_cons_of_neg (by simpa using outside)
      rw [List.flatten_cons, words_gap_append outside, ih, gone]
  | run piece later filled within ended pieced ih =>
      obtain ⟨b, member⟩ := List.exists_mem_of_ne_nil _ filled
      have letters : piece.any isLetter = true := List.any_eq_true.mpr ⟨b, member, within b member⟩
      have kept : (piece :: later).filter (·.any isLetter) = piece :: later.filter (·.any isLetter) :=
        List.filter_cons_of_pos letters
      rw [List.flatten_cons, words_run filled within ended, ih, kept]

theorem words_pieces (text : Str) : words text = (pieces isLetter text).filter (·.any isLetter) := by
  rw [← words_pieced (pieces_pieced text), pieces_flatten]

theorem piece_cases {text piece : Str} (member : piece ∈ pieces isLetter text) :
    (∀ b ∈ piece, isLetter b = false) ∨ piece ∈ words text := by
  rw [words_pieces, List.mem_filter]
  cases run : piece.any isLetter with
  | true => exact .inr ⟨member, rfl⟩
  | false => exact .inl (by simpa using run)

theorem Reads.alike (reads : t.Reads fuel cs vs period) :
    Alike ((respell cs vs).flatten ++ dot period) (cs.flatten ++ dot period) := by
  have plain : (respell cs vs).map plainChar = cs.map plainChar := by
    apply List.ext_getElem
    · rw [List.length_map, List.length_map, respell, List.length_zipWith, reads.size, min_self]
    · intro i inside inside'
      rw [List.length_map] at inside inside'
      have there : i < vs.length := by
        rw [reads.size]
        exact inside'
      have bare := reads.bare _ (List.getElem_mem inside')
      simp only [respell, List.getElem_map, List.getElem_zipWith]
      rw [respellChar_plain (reads.letter inside' there) (reads.lowercase _ (List.getElem_mem there)).2,
        plainChar_bare bare]
  have spelled : Alike (respell cs vs).flatten cs.flatten := by
    refine ⟨respell cs vs, cs, fun r member => ?_, reads.readable, rfl, rfl, by rw [stripped_eq, stripped_eq, plain]⟩
    obtain ⟨i, inside, rfl⟩ := List.getElem_of_mem member
    simp only [respell, List.getElem_zipWith]
    exact respellChar_readable (reads.lowercase _ (List.getElem_mem _)).1
  have stop : Alike (dot period) (dot period) := by
    cases period with
    | false => exact ⟨[], [], by simp, by simp, rfl, rfl, rfl⟩
    | true => exact ⟨[lit "."], [lit "."], by simp [period_char.1], by simp [period_char.1], rfl, rfl, rfl⟩
  simpa using Alike.flatten (.cons spelled (.cons stop .nil))

theorem gap_readable {piece : Str} (outside : ∀ b ∈ piece, isLetter b = false) :
    ∀ c ∈ piece.map ([·]), Utf8.Readable c := by
  intro c member
  obtain ⟨b, inside, rfl⟩ := List.mem_map.mp member
  have other := outside b inside
  constructor
  · have low : b ≤ 127 := by
      by_contra high
      rw [isLetter_high b (by grind)] at other
      cases other
    simpa [Utf8.isChar] using low
  · intro nul
    obtain rfl : b = 0 := (List.cons.inj nul).1
    cases other

theorem gap_flatten (piece : Str) : (piece.map ([·])).flatten = piece := by
  rw [← List.flatMap_def, List.flatMap_singleton']

theorem alike_gap {piece : Str} (outside : ∀ b ∈ piece, isLetter b = false) : Alike piece piece :=
  ⟨_, _, gap_readable outside, gap_readable outside, (gap_flatten piece).symm, (gap_flatten piece).symm, rfl⟩

/-- A text whose words have one form each is read word by word, and keeps all but its marks. -/
theorem macronize_reads (given : t.unicode = Maccer.unicode) {overwrite : Bool} {raw text : Str}
    (shown : (if overwrite then remmacs t.unicode raw else .ok raw) = .ok text) (bare : hascomments text = .ok false)
    (enough : text.length + 4 ≤ fuel)
    (readable : ∀ w ∈ words text, ∃ cs vs period, w = cs.flatten ++ dot period ∧ t.Reads fuel cs vs period) :
    t.macronize (t.desktop fuel) overwrite fuel raw = .ok ((pieces isLetter text).map t.reading).flatten ∧
      remmacs t.unicode ((pieces isLetter text).map t.reading).flatten = remmacs t.unicode text := by
  constructor
  · have whole : (pieces (t.desktop fuel).inside text).flatten = text := pieces_flatten text
    apply t.macronize_cut (t.desktop_local fuel) (pieces_pieced text) (by rw [whole, shown]) (by rw [whole, bare])
      (by rw [whole]; omega)
    apply List.forall₂_map_right_iff.mpr
    apply List.forall₂_same.mpr
    intro piece member
    rcases piece_cases member with outside | word
    · rw [reading_gap outside]
      exact ⟨0, Nat.zero_le _, .stop _ _ (findRun_outside outside) (by omega)⟩
    · obtain ⟨cs, vs, period, rfl, reads⟩ := readable piece word
      rw [reads.reading (words_letters word) (words_ne_nil word)]
      exact reads.turned given overwrite (words_letters word) (words_ne_nil word) (by omega)
  · have alike : Alike ((pieces isLetter text).map t.reading).flatten (pieces isLetter text).flatten := by
      apply Alike.flatten
      apply List.forall₂_map_left_iff.mpr
      apply List.forall₂_same.mpr
      intro piece member
      rcases piece_cases member with outside | word
      · rw [reading_gap outside]
        exact alike_gap outside
      · obtain ⟨cs, vs, period, rfl, reads⟩ := readable piece word
        rw [reads.reading (words_letters word) (words_ne_nil word)]
        exact reads.alike
    rw [pieces_flatten] at alike
    rw [given]
    exact alike.remmacs

set_option maxRecDepth 8000 in
theorem macronize_reads_hoc :
    hocAlone.macronize (hocAlone.desktop 20) false 20 (lit "Hoc, hoc.") = .ok (lit "Hōc, hōc.") ∧
      remmacs Maccer.unicode (lit "Hōc, hōc.") = remmacs Maccer.unicode (lit "Hoc, hoc.") := by
  have capital : hocAlone.Reads 20 [lit "H", lit "o", lit "c"] [lit "h", lit "ō", lit "c"] false :=
    ⟨⟨by decide, by decide, by decide, by decide⟩, by decide, by decide, by decide, nofun⟩
  have last : hocAlone.Reads 20 [lit "h", lit "o", lit "c"] [lit "h", lit "ō", lit "c"] true :=
    ⟨⟨by decide, by decide, by decide, by decide⟩, by decide, by decide, by decide,
      fun _ => ⟨by decide, by decide, by decide⟩⟩
  have words' : words (lit "Hoc, hoc.") = [lit "Hoc", lit "hoc."] := by decide
  have read : ((pieces isLetter (lit "Hoc, hoc.")).map hocAlone.reading).flatten = lit "Hōc, hōc." := by decide
  have whole : hocAlone.macronize (hocAlone.desktop 20) false 20 (lit "Hoc, hoc.") =
      .ok ((pieces isLetter (lit "Hoc, hoc.")).map hocAlone.reading).flatten ∧
        remmacs hocAlone.unicode ((pieces isLetter (lit "Hoc, hoc.")).map hocAlone.reading).flatten =
          remmacs hocAlone.unicode (lit "Hoc, hoc.") :=
    macronize_reads rfl rfl (by decide) (by decide) fun w member => by
      rw [words'] at member
      rcases List.mem_cons.mp member with rfl | member
      · exact ⟨_, _, false, rfl, capital⟩
      · rw [List.mem_singleton.mp member]
        exact ⟨_, _, true, rfl, last⟩
  rwa [read] at whole

end Tables

end Maccer
