import Maccer.Lua.Hits
import Maccer.Firing

/-! The entries for `u` between vowels that `macra.initialize` appends to the list of substitutions. -/

namespace Maccer

open Lua

/-- `vowelstbl`: `ā` is set twice, and `ē` is not. -/
def vowelstbl : Table Unit :=
  [lit "a", lit "e", lit "i", lit "o", lit "u", lit "y", lit "ā", lit "ā", lit "ī", lit "ō", lit "ū", lit "ȳ"].foldl
    (fun tbl vowel => tbl.insert vowel ()) ∅

def leftURight (left right : Str) : Rule := ⟨left ++ lit "u" ++ right, left ++ lit "v" ++ right, none⟩

def intervocalic (hash : HashOrder) : List Rule :=
  (pairs hash vowelstbl).flatMap fun left => (pairs hash vowelstbl).map fun right => leftURight left.1 right.1

namespace Tables

variable (t : Tables)

def initialized : Tables := { t with rules := t.rules ++ intervocalic t.hash }

/-- `subword` returns this word. -/
def Leaves (includedoubtful : Bool) (w subw : Str) : Prop :=
  ∃ fuel positions, t.subword fuel w includedoubtful false none = .ok (subw, positions)

end Tables

/-! The vowels. -/

def vowels : List Str := vowelstbl.keys

theorem u_vowel : [117] ∈ vowels := by decide

theorem vowel_filled : ∀ vowel ∈ vowels, vowel ≠ [] := by decide

theorem vowel_turned : ∀ vowel ∈ vowels, 118 ∉ vowel := by decide

theorem vowel_other : ∀ vowel ∈ vowels, vowel ≠ [117] → 117 ∉ vowel := by decide

theorem vowel_before : ∀ left ∈ vowels, ∀ left' ∈ vowels, left <:+ left' → left = left' := by decide

theorem vowel_after : ∀ right ∈ vowels, ∀ right' ∈ vowels, right <+: right' → right = right' := by decide

theorem leftURight_literal : ∀ left ∈ vowels, ∀ right ∈ vowels, hasPattern (leftURight left right).orig = false := by
  decide

/-! A `u` and what stands around it. -/

structure Around (left right s : Str) (p : Nat) : Prop where
  before : left <:+ s.take p
  here : s[p]? = some 117
  after : right <+: s.drop (p + 1)

theorem around_iff {left right s : Str} {i : Nat} :
    left ++ 117 :: right <+: s.drop i ↔ Around left right s (i + left.length) := by
  constructor
  · intro occurs
    obtain ⟨rest, shape⟩ := occurs
    have length := congrArg List.length shape
    rw [List.length_append, List.length_append, List.length_cons, List.length_drop] at length
    have front : (s.take i).length = i := by
      rw [List.length_take]
      omega
    have whole : s = s.take i ++ (left ++ 117 :: (right ++ rest)) := by
      conv_lhs => rw [← List.take_append_drop i s, ← shape]
      simp
    generalize s.take i = before at front whole
    subst front whole
    refine ⟨⟨before, ?_⟩, ?_, rest, ?_⟩
    · rw [List.take_length_add_append, List.take_append_length]
    · rw [← List.append_assoc, List.getElem?_append_right (by simp)]
      simp
    · rw [Nat.add_assoc, List.drop_length_add_append, List.drop_length_add_append]
      rfl
  · intro around
    obtain ⟨⟨before, front⟩, here, rest, after⟩ := around
    obtain ⟨inside, here⟩ := List.getElem?_eq_some_iff.mp here
    have length := congrArg List.length front
    rw [List.length_append, List.length_take, min_eq_left inside.le] at length
    refine ⟨rest, ?_⟩
    conv_rhs => rw [← List.take_append_drop (i + left.length) s, List.drop_eq_getElem_cons inside, here, ← front, ← after]
    rw [List.append_assoc before, List.drop_append_of_le_length (by omega), List.drop_of_length_le (by omega)]
    simp

theorem Around.left_le {left right s : Str} {p : Nat} (around : Around left right s p) : left.length ≤ p := by
  have bound := around.before.length_le
  rw [List.length_take] at bound
  omega

theorem Around.unique {left right left' right' s : Str} {p : Nat} (around : Around left right s p)
    (around' : Around left' right' s p) (listed : left ∈ vowels ∧ right ∈ vowels)
    (listed' : left' ∈ vowels ∧ right' ∈ vowels) : left = left' ∧ right = right' := by
  constructor
  · cases List.suffix_or_suffix_of_suffix around.before around'.before with
    | inl suffix => exact vowel_before left listed.1 left' listed'.1 suffix
    | inr suffix => exact (vowel_before left' listed'.1 left listed.1 suffix).symm
  · cases List.prefix_or_prefix_of_prefix around.after around'.after with
    | inl begins => exact vowel_after right listed.2 right' listed'.2 begins
    | inr begins => exact (vowel_after right' listed'.2 right listed.2 begins).symm

theorem before_u {left s : Str} {p : Nat} (listed : left ∈ vowels) (inside : p < s.length)
    (before : left <:+ s.take (p + 1)) : s[p]? = some 117 ↔ left = [117] := by
  obtain ⟨front, shape⟩ := before
  cases List.eq_nil_or_concat' left with
  | inl empty => exact absurd empty (vowel_filled left listed)
  | inr concat =>
      obtain ⟨left', b, rfl⟩ := concat
      rw [← List.take_append_getElem inside, ← List.append_assoc] at shape
      have last : b = s[p] := List.singleton_inj.mp (List.append_inj' shape rfl).2
      rw [List.getElem?_eq_getElem inside, ← last, Option.some.injEq]
      constructor
      · intro same
        by_contra other
        exact vowel_other _ listed other (same ▸ by simp)
      · intro same
        simpa using congrArg List.getLast? same

theorem after_u {right s : Str} {p : Nat} (listed : right ∈ vowels) (after : right <+: s.drop p) :
    s[p]? = some 117 ↔ right = [117] := by
  obtain ⟨rest, shape⟩ := after
  have head : s[p]? = (right ++ rest).head? := by rw [shape, List.head?_drop]
  obtain ⟨b, right', rfl⟩ := List.exists_cons_of_ne_nil (vowel_filled right listed)
  rw [head, List.cons_append, List.head?_cons, Option.some.injEq]
  constructor
  · intro same
    by_contra other
    exact vowel_other _ listed other (same ▸ List.mem_cons_self)
  · intro same
    exact (List.cons.inj same).1

/-! One entry applied to a word. -/

def Turns (left right w : Str) (p : Nat) : Prop := ∃ i, Hit (left ++ 117 :: right) w i ∧ p = i + left.length

theorem Turns.around {left right w : Str} {p : Nat} (turns : Turns left right w p) : Around left right w p := by
  obtain ⟨i, hit, rfl⟩ := turns
  exact around_iff.mp hit.here

open Classical in
noncomputable def turned (places : Set Nat) (w : Str) : Str := w.mapIdx fun p b => if p ∈ places then 118 else b

section

variable {places : Set Nat} {w : Str}

theorem turned_length (places : Set Nat) (w : Str) : (turned places w).length = w.length := List.length_mapIdx

theorem turned_in {p : Nat} (listed : p ∈ places) : (turned places w)[p]? = w[p]?.map fun _ => 118 := by
  simp [turned, listed]

theorem turned_out {p : Nat} (other : p ∉ places) : (turned places w)[p]? = w[p]? := by
  simp [turned, other]

theorem turned_turned (places places' : Set Nat) (w : Str) :
    turned places' (turned places w) = turned (places ∪ places') w := by
  apply List.ext_getElem?
  intro p
  by_cases first : p ∈ places <;> by_cases second : p ∈ places' <;>
    simp [turned, first, second, Function.comp_def]

/-- A word without `v` stands where it has stood, if none of its letters has been turned. -/
theorem occurs_turned {word : Str} (plain : 118 ∉ word) (i : Nat) : word <+: (turned places w).drop i ↔
    word <+: w.drop i ∧ ∀ p ∈ places, ¬ (i ≤ p ∧ p < i + word.length) := by
  rw [List.prefix_iff_getElem?, List.prefix_iff_getElem?]
  constructor
  · intro here
    have other (k : Nat) (less : k < word.length) : i + k ∉ places := by
      intro listed
      have letter := here k less
      rw [List.getElem?_drop, turned_in listed, Option.map_eq_some_iff] at letter
      obtain ⟨_, _, same⟩ := letter
      exact plain (same ▸ List.getElem_mem less)
    refine ⟨fun k less => ?_, fun p listed inside => ?_⟩
    · rw [List.getElem?_drop, ← turned_out (other k less), ← List.getElem?_drop]
      exact here k less
    · exact other (p - i) (by omega) (by rwa [Nat.add_sub_cancel' inside.1])
  · intro here k less
    have other : i + k ∉ places := fun listed => here.2 (i + k) listed ⟨by omega, by omega⟩
    rw [List.getElem?_drop, turned_out other, ← List.getElem?_drop]
    exact here.1 k less

end

noncomputable def pass (w : Str) (rule : Str × Str) : Str := turned {p | Turns rule.1 rule.2 w p} w

def Turned (rules : List (Str × Str)) (w : Str) : Set Nat := {p | ∃ rule ∈ rules, Turns rule.1 rule.2 w p}

def Spaced (w : Str) : Prop :=
  ∀ left ∈ vowels, ∀ right ∈ vowels, ∀ p, ¬ (Turns left [117] w p ∧ Turns [117] right w (p + 1))

def Listed (rules : List (Str × Str)) : Prop := ∀ rule ∈ rules, rule.1 ∈ vowels ∧ rule.2 ∈ vowels

section

variable {left right w : Str}

theorem pattern_turned (listed : left ∈ vowels ∧ right ∈ vowels) : 118 ∉ left ++ 117 :: right := by
  simp [vowel_turned left listed.1, vowel_turned right listed.2]

theorem pattern_length (left right : Str) : (left ++ 117 :: right).length = left.length + 1 + right.length := by
  rw [List.length_append, List.length_cons]
  omega

/-- A `u` among the letters that an entry looks at is the middle one, or one of the vowels. -/
theorem u_among {i q : Nat} (listed : left ∈ vowels ∧ right ∈ vowels) (around : Around left right w (i + left.length))
    (u : w[q]? = some 117) (inside : i ≤ q ∧ q < i + (left ++ 117 :: right).length) :
    q = i + left.length ∨ q + 1 = i + left.length ∧ left = [117] ∨ q = i + left.length + 1 ∧ right = [117] := by
  have occurs := List.prefix_iff_getElem?.mp (around_iff.mpr around)
  have letter := occurs (q - i) (by omega)
  rw [List.getElem?_drop, Nat.add_sub_cancel' inside.1, u, Option.some.injEq] at letter
  rw [pattern_length] at inside
  by_cases middle : q = i + left.length
  · exact .inl middle
  · by_cases before : q < i + left.length
    · rw [List.getElem_append_left (by omega)] at letter
      have same : left = [117] := by
        by_contra other
        exact vowel_other left listed.1 other (letter ▸ List.getElem_mem _)
      have one : left.length = 1 := by rw [same]; rfl
      exact .inr (.inl ⟨by omega, same⟩)
    · rw [List.getElem_append_right (by omega), List.getElem_cons, dif_neg (by omega)] at letter
      have same : right = [117] := by
        by_contra other
        exact vowel_other right listed.2 other (letter ▸ List.getElem_mem _)
      have one : right.length = 1 := by rw [same]; rfl
      exact .inr (.inr ⟨by omega, same⟩)

/-- In a word without neighbours that are turned, other entries do not take away what an entry finds. -/
theorem turns_turned (spaced : Spaced w) {rules : List (Str × Str)} (others : Listed rules)
    (listed : left ∈ vowels ∧ right ∈ vowels) (new : (left, right) ∉ rules) (p : Nat) :
    Turns left right (turned (Turned rules w) w) p ↔ Turns left right w p := by
  have same : ∀ i, Hit (left ++ 117 :: right) (turned (Turned rules w) w) i ↔ Hit (left ++ 117 :: right) w i := by
    apply hit_congr _ fun i here => ((occurs_turned (pattern_turned listed) i).mp here).1
    intro i hit
    refine (occurs_turned (pattern_turned listed) i).mpr ⟨hit.here, fun q turns inside => ?_⟩
    obtain ⟨rule, member, turns⟩ := turns
    have around := around_iff.mp hit.here
    have here : Turns left right w (i + left.length) := ⟨i, hit, rfl⟩
    cases u_among listed around turns.around.here inside with
    | inl middle =>
        have unique := turns.around.unique (middle ▸ around) (others rule member) listed
        exact new (by rwa [← unique.1, ← unique.2])
    | inr neighbour =>
        cases neighbour with
        | inl before =>
            obtain ⟨next, u⟩ := before
            have after : rule.2 = [117] := (after_u (others rule member).2 turns.around.after).mp (next ▸ around.here)
            rw [after] at turns
            rw [← next, u] at here
            exact spaced rule.1 (others rule member).1 right listed.2 q ⟨turns, here⟩
        | inr after =>
            obtain ⟨next, u⟩ := after
            have before : rule.1 = [117] := by
              have front := turns.around.before
              rw [next] at front
              exact (before_u (others rule member).1 (List.getElem?_eq_some_iff.mp around.here).1 front).mp around.here
            rw [before, next] at turns
            rw [u] at here
            exact spaced left listed.1 rule.2 (others rule member).2 _ ⟨here, turns⟩
  simp only [Turns, same]

theorem mem_turned_append (rules : List (Str × Str)) (rule : Str × Str) (p : Nat) :
    p ∈ Turned (rules ++ [rule]) w ↔ p ∈ Turned rules w ∨ Turns rule.1 rule.2 w p := by
  simp only [Turned, Set.mem_ofPred_eq, List.mem_append, List.mem_singleton, or_and_right, exists_or, exists_eq_left]

theorem passes_turned (spaced : Spaced w) {rules : List (Str × Str)} (listed : Listed rules) (once : rules.Nodup) :
    rules.foldl pass w = turned (Turned rules w) w := by
  induction rules using List.reverseRecOn with
  | nil =>
      apply List.ext_getElem?
      intro p
      rw [turned_out fun turns => by simp [Turned] at turns]
      rfl
  | append_singleton rules rule ih =>
      have before : Listed rules := fun other member => listed other (List.mem_append_left _ member)
      obtain ⟨distinct, _, apart⟩ := List.nodup_append.mp once
      have new : (rule.1, rule.2) ∉ rules := fun member => apart _ member _ (List.mem_singleton_self rule) rfl
      have own := listed rule (List.mem_append_right _ (List.mem_singleton_self rule))
      rw [List.foldl_append, ih before distinct, List.foldl_cons, List.foldl_nil, pass, turned_turned]
      congr 1
      ext p
      rw [mem_turned_append, Set.mem_union]
      exact or_congr_right (turns_turned spaced before own new p)

/-! Words in which two neighbours are turned by different entries. -/

theorem passes_within (w : Str) {rules : List (Str × Str)} (listed : Listed rules) :
    ∃ places, rules.foldl pass w = turned places w ∧ ∀ p ∈ places, ∃ rule ∈ rules, Around rule.1 rule.2 w p := by
  induction rules using List.reverseRecOn with
  | nil =>
      refine ⟨∅, List.ext_getElem? fun p => ?_, fun p none => absurd none (Set.notMem_empty p)⟩
      rw [turned_out (Set.notMem_empty p)]
      rfl
  | append_singleton rules rule ih =>
      obtain ⟨places, same, within⟩ := ih fun other member => listed other (List.mem_append_left _ member)
      have own := listed rule (List.mem_append_right _ (List.mem_singleton_self rule))
      refine ⟨_, by rw [List.foldl_append, same, List.foldl_cons, List.foldl_nil, pass, turned_turned], ?_⟩
      intro p turns
      cases turns with
      | inl before =>
          obtain ⟨other, member, around⟩ := within p before
          exact ⟨other, List.mem_append_left _ member, around⟩
      | inr now =>
          obtain ⟨i, hit, rfl⟩ := now
          have here := ((occurs_turned (pattern_turned own) i).mp hit.here).1
          exact ⟨rule, List.mem_append_right _ (List.mem_singleton_self rule), around_iff.mp here⟩

/-- What an entry looks at stays as it is, if the entries before it do not turn its letters. -/
theorem around_passes {rules : List (Str × Str)} (others : Listed rules) (listed : left ∈ vowels ∧ right ∈ vowels)
    {p : Nat} (around : Around left right w p) (middle : ∀ rule ∈ rules, ¬ Around rule.1 rule.2 w p)
    (before : left = [117] → ∀ rule ∈ rules, ∀ q, q + 1 = p → ¬ Around rule.1 rule.2 w q)
    (after : right = [117] → ∀ rule ∈ rules, ¬ Around rule.1 rule.2 w (p + 1)) :
    Around left right (rules.foldl pass w) p := by
  obtain ⟨places, same, within⟩ := passes_within w others
  obtain ⟨i, rfl⟩ : ∃ i, p = i + left.length := ⟨p - left.length, (Nat.sub_add_cancel around.left_le).symm⟩
  rw [same, ← around_iff, occurs_turned (pattern_turned listed)]
  refine ⟨around_iff.mpr around, fun q turns inside => ?_⟩
  obtain ⟨rule, member, there⟩ := within q turns
  cases u_among listed around there.here inside with
  | inl here => exact middle rule member (here ▸ there)
  | inr neighbour =>
      cases neighbour with
      | inl front => exact before front.2 rule member q front.1 there
      | inr back => exact after back.2 rule member (back.1 ▸ there)

theorem apart_from_u {vowel s : Str} {i q : Nat} (listed : vowel ∈ vowels) (other : vowel ≠ [117])
    (here : vowel <+: s.drop i) (inside : i ≤ q ∧ q < i + vowel.length) : s[q]? ≠ some 117 := by
  intro u
  have letter := List.prefix_iff_getElem?.mp here (q - i) (by omega)
  rw [List.getElem?_drop, Nat.add_sub_cancel' inside.1, u, Option.some.injEq] at letter
  exact vowel_other vowel listed other (letter ▸ List.getElem_mem _)

theorem Around.after_here {s : Str} {p : Nat} (around : Around left [117] s p) : s[p + 1]? = some 117 := by
  obtain ⟨rest, shape⟩ := around.after
  rw [← List.head?_drop, ← shape]
  rfl

theorem Around.before_here {s : Str} {p : Nat} (around : Around [117] right s (p + 1)) : s[p]? = some 117 := by
  have inside := (List.getElem?_eq_some_iff.mp around.here).1
  exact (before_u u_vowel (by omega) around.before).mpr rfl

theorem turns_left {s : Str} {p : Nat} (listed : left ∈ vowels) (other : left ≠ [117])
    (around : Around left [117] s p) : Turns left [117] s p := by
  obtain ⟨i, rfl⟩ : ∃ i, p = i + left.length := ⟨p - left.length, (Nat.sub_add_cancel around.left_le).symm⟩
  have occurs := around_iff.mpr around
  have vowel : left <+: s.drop i := (List.prefix_append left _).trans occurs
  have filled := List.length_pos_iff.mpr (vowel_filled left listed)
  cases hit_or_before occurs with
  | inl hit => exact ⟨i, hit, rfl⟩
  | inr before =>
      obtain ⟨j, less, hit, reaches⟩ := before
      have there := around_iff.mp hit.here
      rw [pattern_length, List.length_singleton] at reaches
      by_cases inner : i ≤ j + left.length
      · exact absurd there.here (apart_from_u listed other vowel (by omega))
      · exact absurd there.after_here (apart_from_u listed other vowel (by omega))

theorem turns_right {s : Str} {p : Nat} (listed : right ∈ vowels) (other : right ≠ [117])
    (around : Around [117] right s p) : Turns [117] right s p := by
  obtain ⟨i, rfl⟩ : ∃ i, p = i + 1 := ⟨p - 1, (Nat.sub_add_cancel around.left_le).symm⟩
  have filled := List.length_pos_iff.mpr (vowel_filled right listed)
  cases hit_or_before (around_iff.mpr around) with
  | inl hit => exact ⟨i, hit, rfl⟩
  | inr before =>
      obtain ⟨j, less, hit, reaches⟩ := before
      have there := around_iff.mp hit.here
      rw [pattern_length, List.length_singleton] at reaches
      by_cases inner : i ≤ j + right.length
      · exact absurd around.here (apart_from_u listed other there.after (by rw [List.length_singleton]; omega))
      · exact absurd around.before_here (apart_from_u listed other there.after (by rw [List.length_singleton]; omega))

theorem passes_keep {s : Str} {p : Nat} (turned : s[p]? = some 118) (rules : List (Str × Str)) :
    (rules.foldl pass s)[p]? = some 118 := by
  induction rules generalizing s with
  | nil => exact turned
  | cons rule rules ih =>
      rw [List.foldl_cons]
      apply ih
      by_cases turns : Turns rule.1 rule.2 s p
      · exact (turned_in turns).trans (congrArg (Option.map _) turned)
      · exact (turned_out turns).trans turned

theorem passes_frozen {s : Str} {p : Nat} {b : UInt8} (here : s[p]? = some b) (next : s[p + 1]? = some 118)
    {rules : List (Str × Str)} (listed : Listed rules) : (rules.foldl pass s)[p]? = some b := by
  induction rules generalizing s with
  | nil => exact here
  | cons rule rules ih =>
      rw [List.foldl_cons]
      have own := listed rule List.mem_cons_self
      have still : ¬ Turns rule.1 rule.2 s p := by
        intro turns
        obtain ⟨rest, shape⟩ := turns.around.after
        obtain ⟨b, vowel, same⟩ := List.exists_cons_of_ne_nil (vowel_filled _ own.2)
        rw [← List.head?_drop, ← shape, same, List.cons_append, List.head?_cons, Option.some.injEq] at next
        exact vowel_turned _ own.2 (by rw [same, next]; exact List.mem_cons_self)
      apply ih ((turned_out still).trans here) _ fun other member => listed other (List.mem_cons_of_mem rule member)
      exact passes_keep next [rule]

theorem passes_front (before after : List (Str × Str)) {p : Nat} (turns : Turns left right (before.foldl pass w) p) :
    ((before ++ (left, right) :: after).foldl pass w)[p]? = some 118 := by
  rw [List.foldl_append, List.foldl_cons]
  apply passes_keep
  have here := turns.around.here
  exact (turned_in turns).trans (congrArg (Option.map _) here)

theorem passes_back (before : List (Str × Str)) {after : List (Str × Str)} (listed : Listed after) {p : Nat}
    (turns : Turns [117] right (before.foldl pass w) (p + 1)) :
    ((before ++ ([117], right) :: after).foldl pass w)[p]? = some 117 := by
  rw [List.foldl_append, List.foldl_cons]
  have here := turns.around.before_here
  refine passes_frozen ?_ ?_ listed
  · -- both would be found by one search
    have still : ¬ Turns [117] right (before.foldl pass w) p := by
      intro other
      obtain ⟨i, hit, same⟩ := turns
      obtain ⟨j, hit', rfl⟩ := other
      have apart := hit'.apart hit (by rw [List.length_singleton] at same; omega)
      rw [pattern_length, List.length_singleton] at apart
      rw [List.length_singleton] at same
      omega
    exact (turned_out still).trans here
  · have u := turns.around.here
    exact (turned_in turns).trans (congrArg (Option.map _) u)

theorem listed_product {order : List Str} (perm : order.Perm vowels) : Listed (order ×ˢ order) := by
  intro rule member
  obtain ⟨first, second⟩ := List.mem_product.mp member
  exact ⟨perm.mem_iff.mp first, perm.mem_iff.mp second⟩

theorem product_nodup {order : List Str} (perm : order.Perm vowels) : (order ×ˢ order).Nodup := by
  have distinct : order.Nodup := perm.nodup_iff.mpr vowelstbl.keys_nodup
  exact distinct.product distinct

theorem order_of_one {a : Str} (listed : a ∈ vowels) : ∃ rest, (a :: rest).Perm vowels :=
  ⟨vowels.erase a, (List.perm_cons_erase listed).symm⟩

theorem order_of_two {a b : Str} (listed : a ∈ vowels) (listed' : b ∈ vowels) (other : b ≠ a) :
    ∃ rest, (a :: b :: rest).Perm vowels :=
  ⟨(vowels.erase a).erase b, ((List.perm_cons_erase ((List.mem_erase_of_ne other).mpr listed')).symm.cons a).trans
    (List.perm_cons_erase listed).symm⟩

theorem order_front (listed : left ∈ vowels) {p : Nat} (turns : Turns left [117] w p) :
    ∃ order : List Str, order.Perm vowels ∧ ((order ×ˢ order).foldl pass w)[p]? = some 118 := by
  by_cases u : left = [117]
  case pos =>
    subst u
    obtain ⟨rest, perm⟩ := order_of_one u_vowel
    exact ⟨[117] :: rest, perm, passes_front [] _ turns⟩
  case neg =>
    obtain ⟨rest, perm⟩ := order_of_two listed u_vowel (Ne.symm u)
    refine ⟨left :: [117] :: rest, perm, passes_front [(left, left)] _ ?_⟩
    have around := turns.around
    apply turns_left listed u
    refine around_passes (fun rule member => ?_) ⟨listed, u_vowel⟩ around (fun rule member there => ?_)
      (fun same => absurd same u) fun _ rule member there => ?_ <;>
      obtain rfl := List.mem_singleton.mp member
    · exact ⟨listed, listed⟩
    · exact u (there.unique around ⟨listed, listed⟩ ⟨listed, u_vowel⟩).2
    · exact u ((before_u listed (List.getElem?_eq_some_iff.mp around.here).1 there.before).mp around.here)

theorem order_back (listed : left ∈ vowels ∧ right ∈ vowels) {p : Nat} (first : Turns left [117] w p)
    (second : Turns [117] right w (p + 1)) :
    ∃ order : List Str, order.Perm vowels ∧ ((order ×ˢ order).foldl pass w)[p]? = some 117 := by
  have around := second.around
  have inside := (List.getElem?_eq_some_iff.mp first.around.here).1
  have product {order : List Str} (perm : order.Perm vowels) {before after : List (Str × Str)}
      (same : order ×ˢ order = before ++ ([117], right) :: after) : Listed before ∧ Listed after := by
    have all := listed_product perm
    rw [same] at all
    exact ⟨fun rule member => all rule (List.mem_append_left _ member),
      fun rule member => all rule (List.mem_append_right _ (List.mem_cons_of_mem _ member))⟩
  by_cases u : right = [117]
  case pos =>
    subst u
    obtain ⟨rest, perm⟩ := order_of_one u_vowel
    exact ⟨[117] :: rest, perm, passes_back [] (@product _ perm [] _ rfl).2 second⟩
  case neg =>
    by_cases u' : left = [117]
    case pos =>
      subst u'
      obtain ⟨rest, perm⟩ := order_of_two listed.2 u_vowel (Ne.symm u)
      have shape : (right :: [117] :: rest) ×ˢ (right :: [117] :: rest) =
          (right :: [117] :: rest).map (Prod.mk right) ++ ([117], right) :: _ := rfl
      refine ⟨right :: [117] :: rest, perm, ?_⟩
      rw [shape]
      refine passes_back _ (product perm shape).2 (turns_right listed.2 u ?_)
      refine around_passes (product perm shape).1 ⟨u_vowel, listed.2⟩ around (fun rule member there => ?_)
        (fun _ rule member q next there => ?_) fun same => absurd same u
      all_goals obtain ⟨vowel, among, rfl⟩ := List.mem_map.mp member
      · exact u ((before_u listed.2 inside there.before).mp first.around.here)
      · obtain rfl : q = p := by omega
        exact u (there.unique first.around ⟨listed.2, perm.mem_iff.mp among⟩ ⟨listed.1, u_vowel⟩).1
    case neg =>
      obtain ⟨rest, perm⟩ := order_of_two u_vowel listed.2 u
      have shape : ([117] :: right :: rest) ×ˢ ([117] :: right :: rest) = [([117], [117])] ++ ([117], right) :: _ := rfl
      refine ⟨[117] :: right :: rest, perm, ?_⟩
      rw [shape]
      refine passes_back _ (product perm shape).2 (turns_right listed.2 u ?_)
      refine around_passes (product perm shape).1 ⟨u_vowel, listed.2⟩ around (fun rule member there => ?_)
        (fun _ rule member q next there => ?_) fun same => absurd same u
      all_goals obtain rfl := List.mem_singleton.mp member
      · exact u (there.unique around ⟨u_vowel, u_vowel⟩ ⟨u_vowel, listed.2⟩).2.symm
      · obtain rfl : q = p := by omega
        exact u' (there.unique first.around ⟨u_vowel, u_vowel⟩ ⟨listed.1, u_vowel⟩).1.symm

end

end Maccer
