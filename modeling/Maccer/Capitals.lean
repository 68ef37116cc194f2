import Maccer.Guessing
import Maccer.Perfects

/-! The capitals of a word, which `macronize` records, takes away and restores. -/

namespace Maccer

open Lua

/-! The tables of capitals. -/

set_option maxRecDepth 8000 in
theorem capitals_lower : ∀ e ∈ unicode.capsinvtbl.entries,
    Utf8.Readable e.2 ∧ field unicode.capstbl e.2 = some e.1 := by
  decide

set_option maxRecDepth 8000 in
theorem lowers_capital : ∀ e ∈ unicode.capstbl.entries,
    Utf8.Readable e.2 ∧ field unicode.capsinvtbl e.2 = some e.1 := by
  decide

theorem capital_iff {capital lowercase : Str} :
    field unicode.capsinvtbl capital = some lowercase ↔ field unicode.capstbl lowercase = some capital := by
  constructor
  · exact fun found => (capitals_lower ⟨capital, lowercase⟩ (AList.mem_lookup_iff.mp found)).2
  · exact fun found => (lowers_capital ⟨lowercase, capital⟩ (AList.mem_lookup_iff.mp found)).2

def Variant (letter c : Str) : Prop :=
  c = letter ∨ field unicode.macrontbl letter = some c ∨ field unicode.tildetbl letter = some c

instance (letter c : Str) : Decidable (Variant letter c) :=
  inferInstanceAs (Decidable (_ ∨ _ ∨ _))

set_option maxRecDepth 8000 in
theorem variant_capital {capital letter c : Str} (lowers : field unicode.capsinvtbl capital = some letter)
    (variant : Variant letter c) : ∃ capital', field unicode.capstbl c = some capital' := by
  have all : ∀ e ∈ unicode.capsinvtbl.entries,
      ∀ c ∈ e.2 :: ((field unicode.macrontbl e.2).toList ++ (field unicode.tildetbl e.2).toList),
        (field unicode.capstbl c).isSome = true := by
    decide
  apply Option.isSome_iff_exists.mp
  apply all ⟨capital, letter⟩ (AList.mem_lookup_iff.mp lowers)
  rcases variant with same | macron | tilde
  · simp [same]
  · simp [macron]
  · simp [tilde]

namespace Tables

variable {t : Tables}

theorem filterM_ok {α : Type} {test : α → Run Bool} {keeps : α → Bool} (xs : List α)
    (each : ∀ x ∈ xs, test x = .ok (keeps x)) : xs.filterM test = .ok (xs.filter keeps) := by
  have gathered (found : List α) :
      List.filterAuxM test xs found = .ok ((xs.filter keeps).reverse ++ found) := by
    induction xs generalizing found with
    | nil => rfl
    | cons x xs ih =>
        have later := ih fun y member => each y (by simp [member])
        rw [List.filterAuxM, each x (by simp), run_bind_ok, later]
        cases kept : keeps x with
        | true => simp [kept]
        | false => simp [kept]
  rw [List.filterM, gathered]
  simp

theorem cappostbl_eq (given : t.unicode = Maccer.unicode) {cs : List Str} (decodes : Utf8.Decodes cs) :
    t.cappostbl cs.flatten = .ok ((List.range' 1 cs.length).filter fun pos =>
      (field Maccer.unicode.capsinvtbl (cs.getD (pos - 1) [])).isSome) := by
  rw [cappostbl, Utf8.len_decodes decodes, run_bind_ok]
  apply filterM_ok
  intro pos member
  obtain ⟨first, last⟩ := List.mem_range'_1.mp member
  obtain ⟨i, rfl⟩ : ∃ i, pos = i + 1 := ⟨pos - 1, by omega⟩
  have here : cs[i]? = some (cs.getD i []) := by
    rw [List.getD_eq_getElem?_getD, List.getElem?_eq_getElem (by omega), Option.getD_some]
  have char := Utf8.sub_char decodes here
  rw [Nat.cast_add, Nat.cast_one, char, run_bind_ok, given, Nat.add_sub_cancel]
  rfl

def capitalized (positions : List Nat) (vs : List Str) : List Str :=
  vs.mapIdx fun i c => if i + 1 ∈ positions then (field Maccer.unicode.capstbl c).getD c else c

theorem capitalized_nil (vs : List Str) : capitalized [] vs = vs := by
  apply List.ext_getElem?
  intro j
  rw [capitalized, List.getElem?_mapIdx]
  simp

theorem capitalized_cons {vs : List Str} {order : List Nat} {i : Nat} {c capital : Str} (here : vs[i]? = some c)
    (letter : field Maccer.unicode.capstbl c = some capital) (fresh : i + 1 ∉ order) :
    capitalized ((i + 1) :: order) vs = capitalized order (vs.set i capital) := by
  apply List.ext_getElem?
  intro j
  rw [capitalized, capitalized, List.getElem?_mapIdx, List.getElem?_mapIdx]
  by_cases same : j = i
  · have inside : i < vs.length := (List.getElem?_eq_some_iff.mp here).1
    rw [same, here, List.getElem?_set_self inside]
    simp [letter, fresh]
  · rw [List.getElem?_set_ne (Ne.symm same)]
    simp [same]

theorem capitalizeAt_decodes (given : t.unicode = Maccer.unicode) {vs : List Str} (decodes : Utf8.Decodes vs)
    {i : Nat} {c capital : Str} (here : vs[i]? = some c) (letter : field Maccer.unicode.capstbl c = some capital) :
    t.capitalizeAt vs.flatten (i + 1) = .ok (vs.set i capital).flatten := by
  have inside : i < vs.length := (List.getElem?_eq_some_iff.mp here).1
  rw [capitalizeAt, Nat.cast_add, Nat.cast_one, Utf8.sub_char decodes here, run_bind_ok, given, letter]
  exact setChar_decodes decodes inside capital

theorem capitalize_run (given : t.unicode = Maccer.unicode) (order : List Nat) (distinct : order.Nodup) {vs : List Str}
    (readable : ∀ c ∈ vs, Utf8.Readable c)
    (letters : ∀ pos ∈ order, ∃ i c capital, pos = i + 1 ∧ vs[i]? = some c ∧
      field Maccer.unicode.capstbl c = some capital) :
    order.foldlM t.capitalizeAt vs.flatten = .ok (capitalized order vs).flatten := by
  induction order generalizing vs with
  | nil => rw [List.foldlM_nil, run_pure, capitalized_nil]
  | cons pos order ih =>
      obtain ⟨i, c, capital, rfl, here, letter⟩ := letters pos (by simp)
      have fresh : i + 1 ∉ order := (List.nodup_cons.mp distinct).1
      have readable' : ∀ d ∈ vs.set i capital, Utf8.Readable d := by
        intro d member
        cases List.mem_or_eq_of_mem_set member with
        | inl old => exact readable d old
        | inr same =>
            rw [same]
            exact (lowers_capital ⟨c, capital⟩ (AList.mem_lookup_iff.mp letter)).1
      rw [List.foldlM_cons, capitalizeAt_decodes given (Utf8.decodes_of_readable readable) here letter, run_bind_ok,
        ih (List.nodup_cons.mp distinct).2 readable']
      · rw [capitalized_cons here letter fresh]
      · intro pos member
        obtain ⟨j, d, capital', rfl, there, letter'⟩ := letters pos (by simp [member])
        have apart : i ≠ j := fun same => fresh (same ▸ member)
        exact ⟨j, d, capital', rfl, by rw [List.getElem?_set_ne apart, there], letter'⟩

theorem capitalized_get (positions : List Nat) {vs : List Str} {i : Nat} {c : Str} (here : vs[i]? = some c) :
    (capitalized positions vs)[i]? =
      some (if i + 1 ∈ positions then (field Maccer.unicode.capstbl c).getD c else c) := by
  rw [capitalized, List.getElem?_mapIdx, here, Option.map_some]

structure Restored (cs vs rs : List Str) : Prop where
  size : rs.length = vs.length
  capital : ∀ (i : Nat) (w letter c r : Str), cs[i]? = some w → vs[i]? = some c → rs[i]? = some r →
    field Maccer.unicode.capsinvtbl w = some letter → field Maccer.unicode.capsinvtbl r = some c
  other : ∀ (i : Nat) (w c r : Str), cs[i]? = some w → vs[i]? = some c → rs[i]? = some r →
    field Maccer.unicode.capsinvtbl w = none → r = c

def lowerChar (c : Str) : Str := (field Maccer.unicode.capsinvtbl c).getD c

theorem lower_flatten {cs : List Str} (readable : ∀ c ∈ cs, Utf8.Readable c) :
    lower Maccer.unicode cs.flatten = .ok (cs.map lowerChar).flatten :=
  Utf8.replace_decodes (Utf8.decodes_of_readable readable) _

theorem lowerChar_readable {c : Str} (readable : Utf8.Readable c) : Utf8.Readable (lowerChar c) := by
  rw [lowerChar]
  cases found : field Maccer.unicode.capsinvtbl c with
  | none => exact readable
  | some letter => exact (capitals_lower ⟨c, letter⟩ (AList.mem_lookup_iff.mp found)).1

theorem lowered_readable {cs : List Str} (readable : ∀ c ∈ cs, Utf8.Readable c) :
    ∀ c ∈ cs.map lowerChar, Utf8.Readable c := by
  intro c member
  obtain ⟨d, inside, rfl⟩ := List.mem_map.mp member
  exact lowerChar_readable (readable d inside)

theorem Restored.lowered {cs vs rs : List Str} (restored : Restored cs vs rs) (size : vs.length = cs.length)
    (lowercase : ∀ c ∈ vs, field Maccer.unicode.capsinvtbl c = none) : rs.map lowerChar = vs := by
  apply List.ext_getElem
  · rw [List.length_map, restored.size]
  · intro i inside inside'
    rw [List.getElem_map, lowerChar]
    have here := List.getElem?_eq_getElem (l := cs) (i := i) (by omega)
    have there := List.getElem?_eq_getElem inside'
    have result := List.getElem?_eq_getElem (l := rs) (i := i) (by rw [restored.size]; exact inside')
    cases capital : field Maccer.unicode.capsinvtbl cs[i] with
    | none =>
        rw [restored.other i _ _ _ here there result capital, lowercase _ (List.getElem_mem inside'), Option.getD_none]
    | some letter => rw [restored.capital i _ _ _ _ here there result capital, Option.getD_some]

theorem Restored.same {cs vs rs : List Str} (restored : Restored cs vs rs) (lowered : cs.map lowerChar = vs) :
    rs = cs := by
  have sizes : vs.length = cs.length := by rw [← lowered, List.length_map]
  apply List.ext_getElem (restored.size.trans sizes)
  intro i inside inside'
  have here := List.getElem?_eq_getElem inside'
  have there : vs[i]? = some (lowerChar cs[i]) := by rw [← lowered, List.getElem?_map, here, Option.map_some]
  have result := List.getElem?_eq_getElem inside
  cases lowers : field Maccer.unicode.capsinvtbl cs[i] with
  | none =>
      have same := restored.other i _ _ _ here there result lowers
      rwa [lowerChar, lowers, Option.getD_none] at same
  | some letter =>
      have same := restored.capital i _ _ _ _ here there result lowers
      rw [lowerChar, lowers, Option.getD_some] at same
      exact Option.some.inj ((capital_iff.mp same).symm.trans (capital_iff.mp lowers))

/-- Capitals come back where they were, in whatever order `pairs` meets the positions. -/
theorem capitals_restored (given : t.unicode = Maccer.unicode) {cs vs : List Str}
    (readable : ∀ c ∈ cs, Utf8.Readable c) (readable' : ∀ c ∈ vs, Utf8.Readable c) (size : vs.length = cs.length)
    (lowercase : ∀ c ∈ vs, field Maccer.unicode.capsinvtbl c = none)
    (variants : ∀ (i : Nat) (capital letter c : Str), cs[i]? = some capital →
      field Maccer.unicode.capsinvtbl capital = some letter → vs[i]? = some c → Variant letter c) :
    ∃ positions, t.cappostbl cs.flatten = .ok positions ∧ ∀ order : List Nat, order.Perm positions →
      ∃ rs : List Str, order.foldlM t.capitalizeAt vs.flatten = .ok rs.flatten ∧ Restored cs vs rs ∧
        lower Maccer.unicode rs.flatten = .ok vs.flatten ∧
        (lower Maccer.unicode cs.flatten = .ok vs.flatten → rs = cs) := by
  refine ⟨_, cappostbl_eq given (Utf8.decodes_of_readable readable), fun order perm => ?_⟩
  have distinct : order.Nodup := perm.nodup_iff.mpr ((List.nodup_range' 1).filter _)
  have positions (i : Nat) (w : Str) (here : cs[i]? = some w) :
      i + 1 ∈ order ↔ ∃ letter, field Maccer.unicode.capsinvtbl w = some letter := by
    have inside : i < cs.length := (List.getElem?_eq_some_iff.mp here).1
    rw [perm.mem_iff, List.mem_filter, List.mem_range'_1, Nat.add_sub_cancel, List.getD_eq_getElem?_getD, here,
      Option.getD_some, Option.isSome_iff_exists]
    exact and_iff_right ⟨by omega, by omega⟩
  have letters : ∀ pos ∈ order, ∃ i c capital, pos = i + 1 ∧ vs[i]? = some c ∧
      field Maccer.unicode.capstbl c = some capital := by
    intro pos member
    obtain ⟨first, last⟩ := List.mem_range'_1.mp (List.mem_of_mem_filter (perm.mem_iff.mp member))
    obtain ⟨i, rfl⟩ : ∃ i, pos = i + 1 := ⟨pos - 1, by omega⟩
    have here := List.getElem?_eq_getElem (l := cs) (i := i) (by omega)
    have there := List.getElem?_eq_getElem (l := vs) (i := i) (by omega)
    obtain ⟨letter, lowers⟩ := (positions i _ here).mp member
    obtain ⟨capital, upper⟩ := variant_capital lowers (variants i _ letter _ here lowers there)
    exact ⟨i, _, capital, rfl, there, upper⟩
  have each : Restored cs vs (capitalized order vs) := by
    refine ⟨List.length_mapIdx, fun i w letter c r here there result lowers => ?_,
      fun i w c r here there result plain => ?_⟩
    · obtain ⟨capital, upper⟩ := variant_capital lowers (variants i w letter c here lowers there)
      rw [capitalized_get order there, if_pos ((positions i w here).mpr ⟨letter, lowers⟩), upper] at result
      exact capital_iff.mpr (Option.some.inj result ▸ upper)
    · rw [capitalized_get order there, if_neg (by simp [positions i w here, plain])] at result
      exact (Option.some.inj result).symm
  have read : ∀ r ∈ capitalized order vs, Utf8.Readable r := by
    intro r member
    obtain ⟨i, inside, rfl⟩ := List.mem_mapIdx.mp member
    split
    case isTrue chosen =>
      cases letter : field Maccer.unicode.capstbl vs[i] with
      | none => exact readable' _ (List.getElem_mem inside)
      | some capital => exact (lowers_capital ⟨_, capital⟩ (AList.mem_lookup_iff.mp letter)).1
    case isFalse => exact readable' _ (List.getElem_mem inside)
  refine ⟨_, capitalize_run given order distinct readable' letters, each, ?_, fun lowered => ?_⟩
  · have back : (capitalized order vs).map lowerChar = vs := each.lowered size lowercase
    rw [lower_flatten read, back]
  · rw [lower_flatten readable, Except.ok.injEq, flatten_injective (lowered_readable readable) readable'] at lowered
    exact each.same lowered

set_option maxRecDepth 8000 in
/-- `ROma`, of which the look-up has made `rōma`. -/
theorem capitals_restored_roma : ∃ positions, Tables.empty.cappostbl (lit "ROma") = .ok positions ∧
    ∀ order : List Nat, order.Perm positions →
      ∃ rs : List Str, order.foldlM Tables.empty.capitalizeAt (lit "rōma") = .ok rs.flatten ∧
        Restored [lit "R", lit "O", lit "m", lit "a"] [lit "r", lit "ō", lit "m", lit "a"] rs ∧
        lower Maccer.unicode rs.flatten = .ok (lit "rōma") ∧
        (lower Maccer.unicode (lit "ROma") = .ok (lit "rōma") → rs = [lit "R", lit "O", lit "m", lit "a"]) := by
  have each : ∀ pair ∈ [lit "R", lit "O", lit "m", lit "a"].zip [lit "r", lit "ō", lit "m", lit "a"],
      ∀ letter ∈ (field Maccer.unicode.capsinvtbl pair.1).toList, Variant letter pair.2 := by
    decide
  have here : ∀ c ∈ [lit "R", lit "O", lit "m", lit "a"], Utf8.Readable c := by decide
  have there : ∀ c ∈ [lit "r", lit "ō", lit "m", lit "a"], Utf8.Readable c := by decide
  refine capitals_restored rfl here there rfl (by decide) fun i capital letter c found lowers found' => ?_
  apply each (capital, c) _ letter (by simp [lowers])
  exact List.mem_of_getElem? (List.getElem?_zip_eq_some.mpr ⟨found, found'⟩)

end Tables

end Maccer
