import Maccer.Abbreviations
import Maccer.Capitals
import Maccer.Lua.Exchange
import Maccer.Reading

/-! What `macronize` does to the letters of a form: it marks vowels and puts capitals back. -/

namespace Maccer

open Lua

open Tables (lowerChar)

/-! Vowels with their marks. -/

set_option maxRecDepth 8000 in
theorem marked_vowels : (∀ e ∈ unicode.macrontbl.entries, Utf8.Readable e.2 ∧ plainChar e.2 = plainChar e.1) ∧
    ∀ e ∈ unicode.tildetbl.entries, Utf8.Readable e.2 ∧ plainChar e.2 = plainChar e.1 := by
  decide

namespace Tables

variable {t : Tables}

/-! The parallels of a word. -/

variable (t) in
/-- Each form that is stored under a plain word demacronises to it. -/
def Demacronises : Prop := ∀ p n w, DigitFree p → field t.keytbl (slot p n) = some w → plain w = .ok p

theorem getparsWalk_forms (demacronises : t.Demacronises) {p : Str} (word : DigitFree p) (fuel n : Nat)
    (plainwkey parw : Str) (form : plain parw = .ok p) (parwtbl : Table Str) :
    ∀ w ∈ (getparsWalk t.keytbl p false fuel plainwkey parw n parwtbl).1, w ∈ parwtbl ∨ plain w = .ok p := by
  induction fuel generalizing n plainwkey parw parwtbl with
  | zero => exact fun w member => .inl member
  | succ fuel ih =>
      have here (w : Str) (member : w ∈ AList.insert parw plainwkey parwtbl) : w ∈ parwtbl ∨ plain w = .ok p :=
        ((AList.mem_insert _).mp member).elim (fun same => .inr (same ▸ form)) .inl
      intro w member
      rw [getparsWalk] at member
      cases next : field t.keytbl (p ++ decimal (n + 1)) with
      | none =>
          rw [next] at member
          exact here w member
      | some parw' =>
          rw [next] at member
          have form' := demacronises p (n + 1) parw' word (by rwa [slot_pos p (n + 1) (by omega)])
          exact (ih (n + 1) _ parw' form' _ w member).elim (here w) .inr

/-- The forms of a lone period are those of the empty word too, with a period. -/
theorem getpars_forms (demacronises : t.Demacronises) {fuel : Nat} {p : Str} (word : DigitFree p)
    (alone : p = lit "." → field t.keytbl [] = none) {partbl : Table Str} {parcount : Nat}
    (found : (t.desktop fuel).getpars p = some (partbl, parcount)) : ∀ w ∈ partbl, plain w = .ok p := by
  obtain ⟨⟨partbl', count, nextkey⟩, ran, same⟩ := Option.map_eq_some_iff.mp found
  obtain ⟨rfl, rfl⟩ := Prod.mk.inj same
  unfold getpars at ran
  cases first : field t.keytbl p with
  | none =>
      rw [first] at ran
      cases ran
  | some parw0 =>
      have form := demacronises p 0 parw0 word (by rwa [slot_zero])
      have walked (w : Str)
          (member : w ∈ (getparsWalk t.keytbl p false (walkFuel t.keytbl) p parw0 0 ∅).1) : plain w = .ok p :=
        (getparsWalk_forms demacronises word _ 0 p parw0 form ∅ w member).resolve_left (AList.notMem_empty w)
      rw [first] at ran
      dsimp only at ran
      split at ran
      case isFalse =>
        obtain ⟨rfl, _⟩ := Prod.mk.inj (Option.some.inj ran)
        exact walked
      case isTrue abbreviated =>
        rw [Bool.true_and, beq_iff_eq] at abbreviated
        obtain rfl := lastTwo_period abbreviated
        have before : sub (lit ".") 1 ((lit ".").length - 1) = [] := by decide
        rw [before, alone rfl] at ran
        obtain ⟨rfl, _⟩ := Prod.mk.inj (Option.some.inj ran)
        exact walked

theorem guess_listed (pars : List (Str × Str)) (state : Option (Str × Nat) × Nat) {w : Str} {freq : Nat}
    (folded : (pars.foldl t.guessStep state).1 = some (w, freq)) :
    (∃ freq', state.1 = some (w, freq')) ∨ ∃ par ∈ pars, par.1 = w := by
  induction pars generalizing state with
  | nil => exact .inl ⟨freq, folded⟩
  | cons par pars ih =>
      rcases ih _ folded with ⟨freq', here⟩ | ⟨later, member, same⟩
      · have either : (∃ freq', state.1 = some (w, freq')) ∨ par.1 = w := by
          unfold guessStep at here
          grind
        exact either.imp_right fun same => ⟨par, List.mem_cons_self, same⟩
      · exact .inr ⟨later, List.mem_cons_of_mem par member, same⟩

theorem guessw_listed {partbl : Table Str} {w : Str} (guessed : t.guessw partbl = some w) : w ∈ partbl := by
  unfold guessw at guessed
  cases folded : (pairs t.hash partbl).foldl t.guessStep (none, 0) with
  | mk top total =>
      rw [folded] at guessed
      cases top with
      | none => cases guessed
      | some top =>
          dsimp only at guessed
          split at guessed
          case isFalse => cases guessed
          case isTrue =>
            obtain rfl := Option.some.inj guessed
            rcases t.guess_listed _ _ (congrArg Prod.fst folded) with ⟨_, start⟩ | ⟨par, member, same⟩
            · cases start
            · rw [← same]
              exact mem_of_field ((mem_pairs t.hash _ par.1 par.2).mp member)

/-! The ambiguous word. -/

theorem ambigAt_plain (given : t.unicode = Maccer.unicode) {ps cs : List Str} (readable : ∀ c ∈ ps, Utf8.Readable c)
    (readable' : ∀ c ∈ cs, Utf8.Readable c) (same : cs.map plainChar = ps.map plainChar) {partbl : Table Str} {i : Nat}
    (inside : i < ps.length) {r : Str} (ran : t.ambigAt ps.flatten partbl cs.flatten (i + 1) = .ok r) :
    ∃ rs : List Str, r = rs.flatten ∧ (∀ c ∈ rs, Utf8.Readable c) ∧ rs.map plainChar = ps.map plainChar := by
  have size : cs.length = ps.length := by simpa using congrArg List.length same
  have letter := Utf8.sub_char (Utf8.decodes_of_readable readable) (List.getElem?_eq_getElem inside)
  have put {v : Str} (vowel : Utf8.Readable v) (mark : plainChar v = plainChar ps[i])
      (ran : setChar cs.flatten (i + 1) v = .ok r) :
      ∃ rs : List Str, r = rs.flatten ∧ (∀ c ∈ rs, Utf8.Readable c) ∧ rs.map plainChar = ps.map plainChar := by
    rw [setChar_decodes (Utf8.decodes_of_readable readable') (by omega)] at ran
    refine ⟨cs.set i v, (Except.ok.inj ran).symm, fun c member => ?_, ?_⟩
    · cases List.mem_or_eq_of_mem_set member with
      | inl old => exact readable' c old
      | inr new => exact new ▸ vowel
    · rw [List.map_set, same, mark, ← List.map_set, List.set_getElem_self]
  rw [ambigAt, Nat.cast_add, Nat.cast_one, letter, run_bind_ok, given] at ran
  cases tilde : field Maccer.unicode.tildetbl ps[i] with
  | none =>
      rw [tilde] at ran
      exact ⟨cs, (Except.ok.inj ran).symm, readable', same⟩
  | some tildevowel =>
      rw [tilde] at ran
      obtain ⟨length, _, ran⟩ := bind_eq_ok.mp ran
      have tildeEntry := marked_vowels.2 ⟨ps[i], tildevowel⟩ (AList.mem_lookup_iff.mp tilde)
      cases length with
      | short => exact ⟨cs, (Except.ok.inj ran).symm, readable', same⟩
      | either => exact put tildeEntry.1 tildeEntry.2 ran
      | long =>
          dsimp only at ran
          cases macron : field Maccer.unicode.macrontbl ps[i] with
          | none =>
              rw [macron] at ran
              cases ran
          | some macronvowel =>
              rw [macron] at ran
              have macronEntry := marked_vowels.1 ⟨ps[i], macronvowel⟩ (AList.mem_lookup_iff.mp macron)
              exact put macronEntry.1 macronEntry.2 ran

theorem ambigw_plain (given : t.unicode = Maccer.unicode) {ps : List Str} (readable : ∀ c ∈ ps, Utf8.Readable c)
    {partbl : Table Str} {w : Str} (ran : t.ambigw ps.flatten partbl = .ok w) : plain w = plain ps.flatten := by
  have loop (back : List Nat) (inside : ∀ pos ∈ back, 1 ≤ pos ∧ pos ≤ ps.length) (cs : List Str)
      (readable' : ∀ c ∈ cs, Utf8.Readable c) (same : cs.map plainChar = ps.map plainChar)
      (ran : back.foldlM (t.ambigAt ps.flatten partbl) cs.flatten = .ok w) : plain w = plain ps.flatten := by
    induction back generalizing cs with
    | nil =>
        obtain rfl := Except.ok.inj ran
        rw [plain_flatten readable', plain_flatten readable, same]
    | cons pos back ih =>
        rw [List.foldlM_cons] at ran
        obtain ⟨r, step, ran⟩ := bind_eq_ok.mp ran
        obtain ⟨first, last⟩ := inside pos List.mem_cons_self
        obtain ⟨i, rfl⟩ : ∃ i, pos = i + 1 := ⟨pos - 1, by omega⟩
        obtain ⟨rs, rfl, readableR, same'⟩ := ambigAt_plain given readable readable' same (by omega) step
        exact ih (fun pos member => inside pos (List.mem_cons_of_mem _ member)) rs readableR same' ran
  rw [ambigw, Utf8.len_decodes (Utf8.decodes_of_readable readable), run_bind_ok] at ran
  refine loop _ (fun pos member => ?_) ps readable rfl ran
  obtain ⟨first, last⟩ := List.mem_range'_1.mp member
  omega

/-! Vowels before `ns` and `nf`. -/

theorem means_literal {v : Str} (literal : ∀ b ∈ v, isMagic b = false ∧ isMark (some b) = false) : MeansWord v v := by
  intro s i
  have whole := matchHere_literals s 1 i [] v [] literal rfl
  rw [List.append_nil] at whole
  rw [matchAt, Nat.add_comm, whole, matchHere_nil]

/-- A word of ASCII begins at no later byte of a character. -/
theorem exchange_letters {vs us : List Str} {b : UInt8} {tail : Str} (readable : ∀ v ∈ vs, Utf8.Readable v)
    (readable' : ∀ u ∈ us, Utf8.Readable u) (word : vs.flatten = b :: tail) (ascii : b < 128)
    (same : us.map plainChar = vs.map plainChar) {cs : List Str} (chars : ∀ c ∈ cs, Utf8.Readable c) :
    ∃ ds : List Str, exchange vs.flatten us.flatten 0 cs.flatten = ds.flatten ∧ (∀ d ∈ ds, Utf8.Readable d) ∧
      ds.map plainChar = cs.map plainChar := by
  have filled : vs.flatten ≠ [] := by rw [word]; exact List.cons_ne_nil b tail
  have nonempty : vs ≠ [] := fun empty => filled (by rw [empty]; rfl)
  induction hn : cs.length using Nat.strong_induction_on generalizing cs with
  | _ n ih =>
    subst hn
    by_cases here : vs.flatten <+: cs.flatten
    · obtain ⟨rest, joined⟩ := here
      obtain ⟨back, rfl, rfl⟩ := Utf8.flatten_front chars readable joined.symm
      have positive := List.length_pos_iff.mpr nonempty
      obtain ⟨ds, later, chars', letters⟩ := ih back.length (by rw [List.length_append]; omega)
        (fun c member => chars c (List.mem_append_right vs member)) rfl
      refine ⟨us ++ ds, ?_, ?_, by rw [List.map_append, List.map_append, same, letters]⟩
      · rw [List.flatten_append, exchange_word filled, later, List.flatten_append]
      · exact fun d member => (List.mem_append.mp member).elim (readable' d) (chars' d)
    · cases cs with
      | nil => exact ⟨[], exchange_nil 0, by simp, rfl⟩
      | cons c cs =>
          obtain ⟨ds, later, chars', letters⟩ := ih cs.length (by simp)
            (fun d member => chars d (List.mem_cons_of_mem c member)) rfl
          refine ⟨c :: ds, ?_, ?_, by rw [List.map_cons, List.map_cons, letters]⟩
          · rw [List.flatten_cons, List.flatten_cons, ← later]
            refine exchange_front c cs.flatten fun k inside begins => ?_
            cases k with
            | zero => exact here begins
            | succ k =>
                obtain ⟨lead, rest, rfl, _⟩ := Utf8.charbytes_of_readable c (chars c List.mem_cons_self)
                rw [List.length_cons] at inside
                have within : k < rest.length := by omega
                rw [List.cons_append, List.drop_succ_cons, List.drop_append_of_le_length within.le,
                  List.drop_eq_getElem_cons within, word] at begins
                have continued := Utf8.tail_bytes (chars _ List.mem_cons_self).1 _ (List.getElem_mem within)
                rw [← (List.cons_prefix_cons.mp begins).1] at continued
                exact absurd ascii (UInt8.not_lt.mpr continued.1)
          · exact List.forall_mem_cons.mpr ⟨chars c List.mem_cons_self, chars'⟩

theorem lengthen_plain {vs us : List Str} {b : UInt8} {tail : Str} (readable : ∀ v ∈ vs, Utf8.Readable v)
    (readable' : ∀ u ∈ us, Utf8.Readable u) (word : vs.flatten = b :: tail) (ascii : b < 128)
    (literal : vs.flatten.all (fun b => !isMagic b && !isMark (some b)) = true) (free : 37 ∉ us.flatten)
    (same : us.map plainChar = vs.map plainChar) {x r : Str} (valid : Utf8.Valid x)
    (ran : gsubAll x vs.flatten us.flatten = .ok r) : Utf8.Valid r ∧ plain r = plain x := by
  obtain ⟨cs, chars, rfl⟩ := valid
  have filled : vs.flatten ≠ [] := by rw [word]; exact List.cons_ne_nil b tail
  obtain ⟨ds, put, chars', letters⟩ := exchange_letters readable readable' word ascii same chars
  have plainly (b : UInt8) (member : b ∈ vs.flatten) : isMagic b = false ∧ isMark (some b) = false := by
    simpa using List.all_eq_true.mp literal b member
  rw [gsubAll_exchange (means_literal plainly) filled free, put] at ran
  obtain rfl := Except.ok.inj ran
  exact ⟨⟨ds, chars', rfl⟩, by rw [plain_flatten chars', plain_flatten chars, letters]⟩

theorem lengthenBefore_plain {x r : Str} (valid : Utf8.Valid x) (ran : lengthenBefore x = .ok r) :
    Utf8.Valid r ∧ plain r = plain x := by
  obtain ⟨x₁, ran₁, ran⟩ := bind_eq_ok.mp ran
  obtain ⟨x₂, ran₂, ran⟩ := bind_eq_ok.mp ran
  obtain ⟨x₃, ran₃, ran₄⟩ := bind_eq_ok.mp ran
  obtain ⟨valid₁, same₁⟩ := @lengthen_plain [lit "i", lit "n", lit "s"] [lit "ī", lit "n", lit "s"] 105 (lit "ns")
    (by decide) (by decide) (by decide) (by decide) (by decide) (by decide) (by decide) _ _ valid ran₁
  obtain ⟨valid₂, same₂⟩ := @lengthen_plain [lit "i", lit "n", lit "f"] [lit "ī", lit "n", lit "f"] 105 (lit "nf")
    (by decide) (by decide) (by decide) (by decide) (by decide) (by decide) (by decide) _ _ valid₁ ran₂
  obtain ⟨valid₃, same₃⟩ := @lengthen_plain [lit "c", lit "o", lit "n", lit "s"]
    [lit "c", lit "ō", lit "n", lit "s"] 99 (lit "ons") (by decide) (by decide) (by decide) (by decide) (by decide) (by decide) (by decide) _ _ valid₂ ran₃
  obtain ⟨valid₄, same₄⟩ := @lengthen_plain [lit "c", lit "o", lit "n", lit "f"]
    [lit "c", lit "ō", lit "n", lit "f"] 99 (lit "onf") (by decide) (by decide) (by decide) (by decide) (by decide) (by decide) (by decide) _ _ valid₃ ran₄
  exact ⟨valid₄, same₄.trans (same₃.trans (same₂.trans same₁))⟩

/-! Capitals. -/

theorem capital_plain {c letter v capital : Str} (lowers : field Maccer.unicode.capsinvtbl c = some letter)
    (upper : field Maccer.unicode.capstbl v = some capital) (same : plainChar v = plainChar letter) :
    plainChar capital = plainChar c := by
  have lowered : lowerChar c = letter := by rw [lowerChar, lowers, Option.getD_some]
  have lowers' := capital_iff.mpr upper
  have lowered' : lowerChar capital = v := by rw [lowerChar, lowers', Option.getD_some]
  have back {d e : Str} (capitals : field Maccer.unicode.capsinvtbl d = some e) :
      field Maccer.unicode.capsinvtbl (plainChar d) = some (plainChar (lowerChar d)) := by
    have kept := plainChar_capital d
    rw [capitals] at kept
    cases lowerChar_cases (plainChar d) with
    | inl other =>
        rw [other.2] at kept
        cases kept
    | inr found => rwa [lowerChar_plainChar] at found
  have here := back lowers
  have there := back lowers'
  rw [lowered] at here
  rw [lowered', same] at there
  exact Option.some.inj ((capital_iff.mp there).symm.trans (capital_iff.mp here))

theorem capitalize_plain (given : t.unicode = Maccer.unicode) (order : List Nat) (distinct : order.Nodup)
    {cs xs : List Str} (readable : ∀ c ∈ cs, Utf8.Readable c) (readable' : ∀ x ∈ xs, Utf8.Readable x)
    (size : xs.length = cs.length)
    (capitals : ∀ pos ∈ order, ∃ i c letter, pos = i + 1 ∧ cs[i]? = some c ∧
      field Maccer.unicode.capsinvtbl c = some letter)
    (same : ∀ (i : Nat) (c x : Str), cs[i]? = some c → xs[i]? = some x →
      plainChar x = plainChar (if i + 1 ∈ order then lowerChar c else c))
    {r : Str} (ran : order.foldlM t.capitalizeAt xs.flatten = .ok r) : plain r = plain cs.flatten := by
  induction order generalizing xs with
  | nil =>
      obtain rfl := Except.ok.inj ran
      rw [plain_flatten readable', plain_flatten readable]
      congr 2
      apply List.ext_getElem?
      intro i
      rw [List.getElem?_map, List.getElem?_map]
      by_cases inside : i < cs.length
      · have here := List.getElem?_eq_getElem inside
        have there := List.getElem?_eq_getElem (size.symm ▸ inside)
        have letters := same i _ _ here there
        rw [here, there, Option.map_some, Option.map_some, letters]
        simp
      · rw [List.getElem?_eq_none (by omega), List.getElem?_eq_none (by omega)]
  | cons pos order ih =>
      obtain ⟨i, c, letter, rfl, here, lowers⟩ := capitals pos List.mem_cons_self
      obtain ⟨fresh, distinct⟩ := List.nodup_cons.mp distinct
      have inside : i < xs.length := size ▸ (List.getElem?_eq_some_iff.mp here).1
      have there := List.getElem?_eq_getElem inside
      have letters := same i c _ here there
      rw [if_pos List.mem_cons_self, lowerChar, lowers, Option.getD_some] at letters
      rw [List.foldlM_cons] at ran
      obtain ⟨next, step, ran⟩ := bind_eq_ok.mp ran
      cases upper : field Maccer.unicode.capstbl xs[i] with
      | none =>
          rw [capitalizeAt, Nat.cast_add, Nat.cast_one, Utf8.sub_char (Utf8.decodes_of_readable readable') there,
            run_bind_ok, given, upper] at step
          cases step
      | some capital =>
          rw [capitalizeAt_decodes given (Utf8.decodes_of_readable readable') there upper] at step
          rw [← Except.ok.inj step] at ran
          have size' : (xs.set i capital).length = cs.length := by rw [List.length_set, size]
          refine ih distinct ?_ size' (fun pos member => capitals pos (List.mem_cons_of_mem _ member)) ?_ ran
          · intro x member
            cases List.mem_or_eq_of_mem_set member with
            | inl old => exact readable' x old
            | inr new => exact new ▸ (lowers_capital ⟨xs[i], capital⟩ (AList.mem_lookup_iff.mp upper)).1
          · intro j d x here' there'
            by_cases place : j = i
            · subst place
              rw [here'] at here
              obtain rfl := Option.some.inj here
              rw [List.getElem?_set_self inside] at there'
              obtain rfl := Option.some.inj there'
              rw [if_neg fresh]
              exact capital_plain lowers upper letters
            · rw [List.getElem?_set_ne (Ne.symm place)] at there'
              have other := same j d x here' there'
              simpa [place] using other

end Tables

end Maccer
