import Maccer.Intervocalic

/-! The words in which the order of the entries for `u` between vowels makes no difference. -/

namespace Maccer

open Lua

def VowelBefore (front : Str) : Prop := ∃ vowel ∈ vowels, vowel <:+ front

def VowelAfter (back : Str) : Prop := ∃ vowel ∈ vowels, vowel <+: back

structure Us (w front : Str) (n : Nat) (back : Str) : Prop where
  shape : w = front ++ (List.replicate n 117 ++ back)
  before : ¬ [117] <:+ front
  after : ¬ [117] <+: back

/-- Between two other vowels only one `u` stands, after one at most two do, and the number of those
before one is not a multiple of three. -/
def Unambiguous (w : Str) : Prop :=
  ∀ front n back, Us w front n back →
    (VowelBefore front → n ≤ 1 ∨ n = 2 ∧ ¬ VowelAfter back) ∧
      (¬ VowelBefore front → VowelAfter back → n = 0 ∨ n % 3 ≠ 0)

section

variable {left right w front back : Str} {n : Nat}

theorem Us.among (us : Us w front n back) {k : Nat} (less : k < n) : w[front.length + k]? = some 117 := by
  rw [us.shape, List.getElem?_append_right (by omega), Nat.add_sub_cancel_left,
    List.getElem?_append_left (by rwa [List.length_replicate]), List.getElem?_replicate, if_pos less]

theorem Us.take (us : Us w front n back) : w.take front.length = front := by rw [us.shape, List.take_left]

theorem Us.drop (us : Us w front n back) : w.drop (front.length + n) = back := by
  rw [us.shape, List.drop_length_add_append]
  exact List.drop_left' List.length_replicate

theorem Us.ends (us : Us w front n back) : w[front.length + n]? ≠ some 117 := by
  intro u
  rw [← List.head?_drop, us.drop, List.head?_eq_some_iff] at u
  obtain ⟨rest, rfl⟩ := u
  exact us.after ⟨rest, rfl⟩

theorem Us.begins (us : Us w front n back) {k : Nat} (last : k + 1 = front.length) : w[k]? ≠ some 117 := by
  intro u
  have inside := (List.getElem?_eq_some_iff.mp u).1
  have letter := (List.getElem?_eq_some_iff.mp u).2
  apply us.before
  rw [← us.take, ← last, ← List.take_append_getElem inside, letter]
  exact List.suffix_append _ _

theorem around_uuu {i : Nat} : Around [117] [117] w (i + 1) ↔
    w[i]? = some 117 ∧ w[i + 1]? = some 117 ∧ w[i + 2]? = some 117 := by
  constructor
  · intro around
    exact ⟨around.before_here, around.here, around.after_here⟩
  · intro u
    have inside := (List.getElem?_eq_some_iff.mp u.1)
    have inside' := (List.getElem?_eq_some_iff.mp u.2.2)
    refine ⟨?_, u.2.1, ?_⟩
    · rw [← List.take_append_getElem inside.1, inside.2]
      exact List.suffix_append _ _
    · rw [List.drop_eq_getElem_cons inside'.1, inside'.2]
      exact ⟨_, rfl⟩

theorem Us.hits (us : Us w front n back) {k : Nat} (less : k < n) :
    Hit ([117] ++ 117 :: [117]) w (front.length + k) ↔ k % 3 = 0 ∧ k + 3 ≤ n := by
  have occurs {k : Nat} (less : k < n) : [117] ++ 117 :: [117] <+: w.drop (front.length + k) ↔ k + 3 ≤ n := by
    rw [around_iff]
    refine around_uuu.trans ⟨fun u => ?_, fun room => ?_⟩
    · by_contra short
      have last : n = k + 1 ∨ n = k + 2 := by omega
      cases last with
      | inl one => exact us.ends (by rw [one]; exact u.2.1)
      | inr two => exact us.ends (by rw [two]; exact u.2.2)
    · exact ⟨us.among (by omega), us.among (show k + 1 < n by omega), us.among (show k + 2 < n by omega)⟩
  -- what has been found before the run ends before it
  have early {j : Nat} (less : j < front.length) (hit : Hit ([117] ++ 117 :: [117]) w j) : j + 3 ≤ front.length := by
    have u := around_uuu.mp (around_iff.mp hit.here)
    by_contra beyond
    have last : j + 1 = front.length ∨ j + 1 + 1 = front.length := by omega
    cases last with
    | inl one => exact us.begins one u.1
    | inr two => exact us.begins two u.2.1
  induction k using Nat.strong_induction_on with
  | _ k ih =>
    rw [hit_iff, occurs less]
    constructor
    · intro found
      refine ⟨?_, found.1⟩
      by_contra off
      have hit := (ih (k - k % 3) (by omega) (by omega)).mpr (by omega)
      have apart := found.2 _ (by omega) hit
      simp only [List.cons_append, List.nil_append, List.length_cons, List.length_nil] at apart
      omega
    · intro here
      refine ⟨here.2, fun j before hit => ?_⟩
      simp only [List.cons_append, List.nil_append, List.length_cons, List.length_nil]
      by_cases inside : j < front.length
      · have ends := early inside hit
        omega
      · obtain ⟨k', rfl⟩ : ∃ k', j = front.length + k' := ⟨j - front.length, by omega⟩
        have third := (ih k' (by omega) (by omega)).mp hit
        omega

theorem run_after (s : Str) : ∃ n back, s = List.replicate n 117 ++ back ∧ ¬ [117] <+: back := by
  induction s with
  | nil => exact ⟨0, [], rfl, by simp⟩
  | cons b s ih =>
      by_cases u : b = 117
      · obtain ⟨n, back, rfl, after⟩ := ih
        exact ⟨n + 1, back, by rw [u, List.replicate_succ]; rfl, after⟩
      · exact ⟨0, b :: s, rfl, fun begins => u (List.cons_prefix_cons.mp begins).1.symm⟩

theorem run_before (s : Str) : ∃ front n, s = front ++ List.replicate n 117 ∧ ¬ [117] <:+ front := by
  obtain ⟨n, back, shape, after⟩ := run_after s.reverse
  refine ⟨back.reverse, n, ?_, fun before => after ?_⟩
  · rw [← List.reverse_reverse s, shape, List.reverse_append, List.reverse_replicate]
  · rw [← List.reverse_reverse back] at after ⊢
    exact List.reverse_prefix.mpr before

theorem exists_us {p : Nat} (u : w[p]? = some 117) :
    ∃ front n back k, Us w front n back ∧ p = front.length + k ∧ k < n := by
  obtain ⟨inside, u⟩ := List.getElem?_eq_some_iff.mp u
  obtain ⟨front, m, shape, before⟩ := run_before (w.take p)
  obtain ⟨n, back, shape', after⟩ := run_after (w.drop (p + 1))
  have length := congrArg List.length shape
  rw [List.length_take, min_eq_left inside.le, List.length_append, List.length_replicate] at length
  refine ⟨front, m + (n + 1), back, m, ⟨?_, before, after⟩, length, by omega⟩
  conv_lhs => rw [← List.take_append_drop p w, List.drop_eq_getElem_cons inside, u, shape, shape']
  rw [List.replicate_add, List.replicate_succ]
  simp

theorem Us.first (us : Us w front n back) {k : Nat} (less : k < n) (listed : left ∈ vowels) (other : left ≠ [117])
    (before : left <:+ w.take (front.length + k)) : k = 0 ∧ VowelBefore front := by
  have start : k = 0 := by
    by_contra later
    obtain ⟨j, rfl⟩ : ∃ j, k = j + 1 := ⟨k - 1, by omega⟩
    have inside := (List.getElem?_eq_some_iff.mp (us.among (show j < n by omega))).1
    exact other ((before_u listed inside before).mp (us.among (by omega)))
  subst start
  rw [Nat.add_zero, us.take] at before
  exact ⟨rfl, left, listed, before⟩

theorem Us.last (us : Us w front n back) {k : Nat} (less : k < n) (listed : right ∈ vowels) (other : right ≠ [117])
    (after : right <+: w.drop (front.length + k + 1)) : n = k + 1 ∧ VowelAfter back := by
  have ends : n = k + 1 := by
    by_contra earlier
    exact other ((after_u listed after).mp (us.among (show k + 1 < n by omega)))
  rw [Nat.add_assoc, ← ends, us.drop] at after
  exact ⟨ends, right, listed, after⟩

theorem spaced_of_unambiguous (settled : Unambiguous w) : Spaced w := by
  intro left listed right listed' p both
  obtain ⟨first, second⟩ := both
  have around := first.around
  have around' := second.around
  obtain ⟨front, n, back, k, us, rfl, less⟩ := exists_us around.here
  have next : k + 1 < n := by
    by_contra last
    exact us.ends (by rw [show n = k + 1 by omega]; exact around'.here)
  have vowels := settled front n back us
  have third (u : right = [117]) : k + 2 < n := by
    by_contra last
    subst u
    exact us.ends (by rw [show n = k + 1 + 1 by omega]; exact around'.after_here)
  by_cases u : left = [117]
  case neg =>
    obtain ⟨rfl, before⟩ := us.first less listed u around.before
    by_cases u' : right = [117]
    · have more := third u'
      cases vowels.1 before with
      | inl one => omega
      | inr two => omega
    · obtain ⟨ends, after⟩ := us.last next listed' u' around'.after
      cases vowels.1 before with
      | inl one => omega
      | inr two => exact two.2 after
  case pos =>
    subst u
    obtain ⟨i, hit, same⟩ := first
    rw [List.length_singleton] at same
    have start : 0 < k := by
      by_contra zero
      exact us.begins (by omega) (around_uuu.mp (around_iff.mp hit.here)).1
    obtain ⟨j, rfl⟩ : ∃ j, k = j + 1 := ⟨k - 1, by omega⟩
    obtain rfl : i = front.length + j := by omega
    have here := (us.hits (by omega)).mp hit
    by_cases u' : right = [117]
    · subst u'
      obtain ⟨i', hit', same'⟩ := second
      rw [List.length_singleton] at same'
      obtain rfl : i' = front.length + (j + 1) := by omega
      have there := (us.hits (by omega)).mp hit'
      omega
    · obtain ⟨ends, after⟩ := us.last next listed' u' around'.after
      by_cases before : VowelBefore front
      · cases vowels.1 before with
        | inl one => omega
        | inr two => omega
      · cases vowels.2 before after with
        | inl zero => omega
        | inr other => omega

theorem unambiguous_of_spaced (spaced : Spaced w) : Unambiguous w := by
  intro front n back us
  have next {k : Nat} (less : k + 1 < n) : [117] <+: w.drop (front.length + k + 1) := by
    obtain ⟨inside, u⟩ := List.getElem?_eq_some_iff.mp (us.among less)
    rw [Nat.add_assoc, List.drop_eq_getElem_cons inside, u]
    exact ⟨_, rfl⟩
  -- the last letter of a run with a vowel after it
  have ends {right : Str} (listed : right ∈ vowels) (after : right <+: back) {k : Nat} (last : n = k + 2) :
      Turns [117] right w (front.length + k + 1) := by
    have other : right ≠ [117] := fun same => us.after (same ▸ after)
    obtain ⟨inside, u⟩ := List.getElem?_eq_some_iff.mp (us.among (show k < n by omega))
    refine turns_right listed other ⟨?_, us.among (show k + 1 < n by omega), ?_⟩
    · rw [← List.take_append_getElem inside, u]
      exact List.suffix_append _ _
    · rwa [Nat.add_assoc, Nat.add_assoc, show k + (1 + 1) = n by omega, us.drop]
  constructor
  · intro before
    obtain ⟨left, listed, before⟩ := before
    by_contra several
    have more : 2 ≤ n := by
      by_contra one
      exact several (.inl (by omega))
    have other : left ≠ [117] := fun same => us.before (same ▸ before)
    have first : Turns left [117] w (front.length + 0) :=
      turns_left listed other ⟨by rwa [Nat.add_zero, us.take], us.among (by omega), next (show 0 + 1 < n by omega)⟩
    by_cases three : 3 ≤ n
    · have hit := (us.hits (show 0 < n by omega)).mpr ⟨rfl, by omega⟩
      exact spaced left listed [117] u_vowel _ ⟨first, _, hit, rfl⟩
    · refine several (.inr ⟨by omega, fun after => ?_⟩)
      obtain ⟨right, listed', after⟩ := after
      have second := @ends right listed' after 0 (by omega)
      exact spaced left listed right listed' _ ⟨first, second⟩
  · intro _ after
    obtain ⟨right, listed, after⟩ := after
    by_contra third
    rw [not_or, not_not] at third
    obtain ⟨k, rfl⟩ : ∃ k, n = k + 3 := ⟨n - 3, by omega⟩
    have hit := (us.hits (show k < k + 3 by omega)).mpr ⟨by omega, le_rfl⟩
    exact spaced [117] u_vowel right listed (front.length + (k + 1)) ⟨⟨_, hit, rfl⟩, ends listed after rfl⟩

end

theorem mem_product {order : List Str} (perm : order.Perm vowels) (rule : Str × Str) :
    rule ∈ order ×ˢ order ↔ rule.1 ∈ vowels ∧ rule.2 ∈ vowels := by
  rw [← perm.mem_iff, ← perm.mem_iff]
  exact List.mem_product

theorem spaced_iff (w : Str) : Spaced w ↔ ∀ order order' : List Str, order.Perm vowels → order'.Perm vowels →
    (order ×ˢ order).foldl pass w = (order' ×ˢ order').foldl pass w := by
  constructor
  · intro spaced order order' perm perm'
    have same : Turned (order ×ˢ order) w = Turned (order' ×ˢ order') w := by
      ext p
      simp only [Turned, Set.mem_ofPred_eq, mem_product perm, mem_product perm']
    rw [passes_turned spaced (listed_product perm) (product_nodup perm),
      passes_turned spaced (listed_product perm') (product_nodup perm'), same]
  · intro one left listed right listed' p both
    obtain ⟨order, perm, turned⟩ := order_front listed both.1
    obtain ⟨order', perm', still⟩ := order_back ⟨listed, listed'⟩ both.1 both.2
    rw [one order order' perm perm', still] at turned
    cases turned

theorem unambiguous_iff (w : Str) : Unambiguous w ↔ ∀ order order' : List Str, order.Perm vowels →
    order'.Perm vowels → (order ×ˢ order).foldl pass w = (order' ×ˢ order').foldl pass w := by
  rw [← spaced_iff]
  exact ⟨spaced_of_unambiguous, unambiguous_of_spaced⟩

/-! The loop over the matches of one entry. -/

section

variable {rule : Rule} {left right : Str}

theorem turned_drop {places : Set Nat} {w : Str} {k : Nat} (front : ∀ p ∈ places, p < k) :
    (turned places w).drop k = w.drop k := by
  apply List.ext_getElem?
  intro p
  rw [List.getElem?_drop, List.getElem?_drop, turned_out fun listed => by have less := front _ listed; omega]

theorem leftURight_orig (left right : Str) : (leftURight left right).orig = left ++ 117 :: right := by
  have u : lit "u" = [117] := by decide
  rw [leftURight, u, List.append_assoc]
  rfl

theorem turned_single (p : Nat) (s : Str) : turned {p} s = s.set p 118 := by
  apply List.ext_getElem?
  intro q
  rw [List.getElem?_set]
  split
  case isTrue same =>
    subst same
    rw [turned_in (Set.mem_singleton p)]
    split
    case isTrue inside => rw [List.getElem?_eq_getElem inside]; rfl
    case isFalse beyond => rw [List.getElem?_eq_none (Nat.le_of_not_lt beyond)]; rfl
  case isFalse other => exact turned_out fun same => other same.symm

theorem put_turned {s : Str} {i : Nat} (here : left ++ 117 :: right <+: s.drop i) :
    (leftURight left right).put s i = turned {i + left.length} s := by
  obtain ⟨rest, shape⟩ := here
  have inside : i ≤ s.length := by
    have length := congrArg List.length shape
    simp at length
    omega
  have v : lit "v" = [118] := by decide
  have whole : s = s.take i ++ (left ++ 117 :: (right ++ rest)) := by
    conv_lhs => rw [← List.take_append_drop i s, ← shape]
    simp
  have front : (s.take i).length = i := by rw [List.length_take, min_eq_left inside]
  rw [Rule.put, leftURight_orig, leftURight, v]
  generalize s.take i = before at whole front
  subst front whole
  have rest' : (before ++ (left ++ 117 :: (right ++ rest))).drop (before.length + (left ++ 117 :: right).length) = rest := by
    rw [List.drop_length_add_append, show left ++ 117 :: (right ++ rest) = left ++ 117 :: right ++ rest by simp,
      List.drop_left]
  rw [turned_single, rest', List.set_append_right _ _ (by omega), Nat.add_sub_cancel_left,
    List.set_append_right _ _ le_rfl, Nat.sub_self]
  simp

/-! The loop over the matches of an entry without modifiers. -/

namespace Tables

variable (t : Tables)

theorem applyRule_absent (literal : hasPattern rule.orig = false) (filled : rule.orig ≠ []) (n : Nat)
    (includedoubtful : Bool) (fuel k : Nat) (s : Substituted) (absent : ∀ i, k ≤ i → ¬ rule.orig <+: s.subw.drop i) :
    t.applyRule n rule rule.orig includedoubtful false none (fuel + 1) ((k : Int) + 1) s = .ok s := by
  rw [applyRule, find_literal_none literal filled k absent]
  rfl

theorem applyRule_first (literal : hasPattern rule.orig = false) (filled : rule.orig ≠ []) (free : rule.mod = none)
    (n : Nat) (includedoubtful : Bool) (fuel k i : Nat) (s : Substituted) (first : FirstAt rule.orig s.subw k i) :
    t.applyRule n rule rule.orig includedoubtful false none (fuel + 1) ((k : Int) + 1) s =
      t.applyRule n rule rule.orig includedoubtful false none fuel (((i + rule.orig.length : Nat) : Int) + 1)
        ⟨rule.put s.subw i, (i + 1, n) :: s.subatpostbl, true⟩ := by
  have put : Lua.sub s.subw 1 ((i : Int) + 1 - 1) ++ rule.repl ++
      subFrom s.subw (((i + rule.orig.length : Nat) : Int) + 1) = rule.put s.subw i := by
    rw [add_sub_cancel_right, sub_first, subFrom_succ, Rule.put]
  have sure : rule.doubtful = false := by rw [Rule.doubtful, free]; rfl
  rw [applyRule, find_literal_first literal filled first, run_bind_ok]
  refine (if_pos (by rw [free]; rfl)).trans ?_
  simp only [applyAt, sure, Bool.not_false, Bool.or_true, if_true, toAscii, Bool.false_eq_true, if_false, run_pure,
    run_bind_ok, Nat.cast_add] at put ⊢
  rw [put]
  rfl

theorem applyRule_from (listed : left ∈ vowels ∧ right ∈ vowels) (n : Nat) (includedoubtful : Bool) (w : Str)
    (fuel k : Nat) (s : Substituted)
    (before : s.subw = turned {p | ∃ i < k, Hit (left ++ 117 :: right) w i ∧ p = i + left.length} w)
    (reached : ∀ i < k, Hit (left ++ 117 :: right) w i → i + (left ++ 117 :: right).length ≤ k)
    (enough : w.length - k < fuel) :
    ∃ s', t.applyRule n (leftURight left right) (leftURight left right).orig includedoubtful false none fuel
      ((k : Int) + 1) s = .ok s' ∧ s'.subw = pass w (left, right) := by
  have literal := leftURight_literal left listed.1 right listed.2
  have filled : (leftURight left right).orig ≠ [] := by simp [leftURight_orig]
  have length := pattern_length left right
  induction fuel generalizing k s with
  | zero => omega
  | succ fuel ih =>
      have rest {i : Nat} (after : k ≤ i) : s.subw.drop i = w.drop i := by
        rw [before]
        apply turned_drop
        intro p turns
        obtain ⟨j, less, hit, rfl⟩ := turns
        have ends := reached j less hit
        omega
      cases firstAt_or_none (leftURight left right).orig s.subw k with
      | inr absent =>
          refine ⟨s, t.applyRule_absent literal filled n includedoubtful fuel k s absent, ?_⟩
          rw [before, pass]
          congr 1
          ext p
          constructor
          · intro turns
            obtain ⟨i, _, hit, same⟩ := turns
            exact ⟨i, hit, same⟩
          · intro turns
            obtain ⟨i, hit, same⟩ := turns
            refine ⟨i, Nat.lt_of_not_le fun after => absent i after ?_, hit, same⟩
            rw [rest after, leftURight_orig]
            exact hit.here
      | inl some =>
          obtain ⟨i, first⟩ := some
          have step := t.applyRule_first literal filled rfl n includedoubtful fuel k i s first
          rw [leftURight_orig] at first filled step
          have inside := first.inside
          have here := first.here
          rw [rest inside] at here
          have first' : FirstAt (left ++ 117 :: right) w k i := by
            refine ⟨inside, here, fun j after less => ?_⟩
            rw [← rest after]
            exact first.first j after less
          have hit := first'.hit reached
          have bound := occurs_le here filled
          have upto {j : Nat} (found : Hit (left ++ 117 :: right) w j) (less : j < i + (left ++ 117 :: right).length) :
              j ≤ i := by
            by_contra later
            have apart := hit.apart found (by omega)
            omega
          rw [leftURight_orig, step]
          rw [leftURight_orig] at ih
          refine ih (i + (left ++ 117 :: right).length) _ ?_ (fun j less found => ?_) (by omega)
          · dsimp only
            rw [put_turned first.here, before, turned_turned]
            congr 1
            ext p
            constructor
            · intro turns
              cases turns with
              | inl early =>
                  obtain ⟨j, less, found, same⟩ := early
                  exact ⟨j, by omega, found, same⟩
              | inr now => exact ⟨i, by omega, hit, now⟩
            · intro turns
              obtain ⟨j, less, found, same⟩ := turns
              by_cases early : j < k
              · exact .inl ⟨j, early, found, same⟩
              · have last : j = i := by
                  apply Nat.le_antisymm (upto found less)
                  exact Nat.le_of_not_lt fun less => first'.first j (by omega) less found.here
                exact .inr (by rw [same, last]; rfl)
          · have last := upto found less
            by_cases same : j = i
            · rw [same]
            · have apart := found.apart hit (by omega)
              omega

theorem applyRules_passes {rules : List (Str × Str)} (listed : Listed rules) (n : Nat) (includedoubtful : Bool)
    (fuel : Nat) (s : Substituted) (enough : s.subw.length < fuel) :
    ∃ s', t.applyRules fuel includedoubtful false none (rules.map fun rule => leftURight rule.1 rule.2) n s = .ok s' ∧
      s'.subw = rules.foldl pass s.subw := by
  induction rules generalizing n s with
  | nil => exact ⟨s, rfl, rfl⟩
  | cons rule rules ih =>
      have start : s.subw = turned {p | ∃ i < 0, Hit (rule.1 ++ 117 :: rule.2) s.subw i ∧ p = i + rule.1.length} s.subw := by
        apply List.ext_getElem?
        intro p
        rw [turned_out]
        intro turns
        obtain ⟨i, less, _⟩ := turns
        exact Nat.not_lt_zero i less
      obtain ⟨next, ran, passed⟩ := t.applyRule_from (listed rule List.mem_cons_self) n includedoubtful s.subw fuel 0 s
        start (fun i less => absurd less (Nat.not_lt_zero i)) (by omega)
      obtain ⟨s', ran', same⟩ := ih (fun other member => listed other (List.mem_cons_of_mem rule member)) (n + 1) next
        (by rwa [passed, pass, turned_length])
      refine ⟨s', ?_, by rw [same, passed, List.foldl_cons]⟩
      rw [List.map_cons, applyRules, toAscii, if_neg Bool.false_ne_true, run_pure, run_bind_ok]
      exact (congrArg (· >>= _) ran).trans ran'

end Tables

end

/-! The loop over the entries. -/

namespace Tables

variable (t : Tables)

theorem applyRules_append (fuel : Nat) (includedoubtful ascii : Bool) (prev : Option (Str × Positions))
    (rules later : List Rule) (n : Nat) (s : Substituted) :
    t.applyRules fuel includedoubtful ascii prev (rules ++ later) n s =
      t.applyRules fuel includedoubtful ascii prev rules n s >>=
        t.applyRules fuel includedoubtful ascii prev later (n + rules.length) := by
  induction rules generalizing n s with
  | nil => rfl
  | cons rule rules ih =>
      rw [List.cons_append, applyRules, applyRules]
      cases t.toAscii ascii rule.orig with
      | error fault => rfl
      | ok orig =>
          rw [run_bind_ok, run_bind_ok]
          cases t.applyRule n rule orig includedoubtful ascii prev fuel 1 s with
          | error fault => rfl
          | ok s =>
              rw [run_bind_ok, run_bind_ok, ih, List.length_cons, Nat.add_right_comm, Nat.add_assoc]

theorem applyRule_congr (t' : Tables) (n : Nat) (rule : Rule) (orig : Str) (includedoubtful : Bool) (fuel : Nat)
    (k : Int) (s : Substituted) : t.applyRule n rule orig includedoubtful false none fuel k s =
      t'.applyRule n rule orig includedoubtful false none fuel k s := by
  induction fuel generalizing k s with
  | zero => rfl
  | succ fuel ih =>
      rw [applyRule, applyRule]
      simp only [ih]
      rfl

theorem applyRules_congr (t' : Tables) (includedoubtful : Bool) (fuel : Nat) (rules : List Rule) (n : Nat)
    (s : Substituted) : t.applyRules fuel includedoubtful false none rules n s =
      t'.applyRules fuel includedoubtful false none rules n s := by
  induction rules generalizing n s with
  | nil => rfl
  | cons rule rules ih =>
      rw [applyRules, applyRules]
      simp only [ih, t.applyRule_congr t']
      rfl

theorem leaves_iff (includedoubtful : Bool) (w subw : Str) : t.Leaves includedoubtful w subw ↔
    ∃ fuel s, t.applyRules fuel includedoubtful false none t.rules 1 ⟨w, [], false⟩ = .ok s ∧ s.subw = subw := by
  constructor
  · intro leaves
    obtain ⟨fuel, positions, ran⟩ := leaves
    obtain ⟨s, applied, same⟩ := bind_eq_ok.mp ran
    exact ⟨fuel, s, applied, (Prod.mk.inj (Except.ok.inj same)).1⟩
  · intro h
    obtain ⟨fuel, s, applied, rfl⟩ := h
    exact ⟨fuel, _, bind_eq_ok.mpr ⟨s, applied, rfl⟩⟩

variable {t} in
theorem Leaves.unique {includedoubtful : Bool} {w first second : Str} (leaves : t.Leaves includedoubtful w first)
    (leaves' : t.Leaves includedoubtful w second) : first = second := by
  obtain ⟨fuel, s, ran, rfl⟩ := (t.leaves_iff includedoubtful w first).mp leaves
  obtain ⟨fuel', s', ran', rfl⟩ := (t.leaves_iff includedoubtful w second).mp leaves'
  have long := t.applyRules_more fuel' ran (nofun)
  have long' := t.applyRules_more fuel ran' (nofun)
  rw [Nat.add_comm] at long'
  rw [Except.ok.inj (long.symm.trans long')]

theorem intervocalic_product (hash : HashOrder) : intervocalic hash =
    (hash.order vowels ×ˢ hash.order vowels).map fun rule => leftURight rule.1 rule.2 := by
  have keys : (pairs hash vowelstbl).map Prod.fst = hash.order vowels := pairs_fst hash vowelstbl
  rw [← keys]
  simp [intervocalic, SProd.sprod, List.product, List.flatMap_map, List.map_flatMap, Function.comp_def]

theorem leaves_initialized (hash : HashOrder) (includedoubtful : Bool) (w subw : Str) :
    ({ t with hash } : Tables).initialized.Leaves includedoubtful w subw ↔ ∃ between,
      t.Leaves includedoubtful w between ∧ (hash.order vowels ×ˢ hash.order vowels).foldl pass between = subw := by
  have listed : Listed (hash.order vowels ×ˢ hash.order vowels) := listed_product (hash.perm vowels)
  have split (fuel : Nat) := t.applyRules_append fuel includedoubtful false none t.rules (intervocalic hash) 1 ⟨w, [], false⟩
  have own (fuel : Nat) : ({ t with hash } : Tables).initialized.applyRules fuel includedoubtful false none
      ({ t with hash } : Tables).initialized.rules 1 ⟨w, [], false⟩ = _ := (applyRules_congr _ t _ _ _ _ _).trans (split fuel)
  rw [leaves_iff]
  simp only [own, intervocalic_product]
  constructor
  · intro leaves
    obtain ⟨fuel, s, ran, rfl⟩ := leaves
    obtain ⟨between, first, second⟩ := bind_eq_ok.mp ran
    obtain ⟨s', ran', same⟩ := t.applyRules_passes listed (1 + t.rules.length) includedoubtful
      (fuel + (between.subw.length + 1)) between (by omega)
    have long := t.applyRules_more (between.subw.length + 1) second (nofun)
    refine ⟨between.subw, (t.leaves_iff _ _ _).mpr ⟨fuel, between, first, rfl⟩, ?_⟩
    rw [← same, Except.ok.inj (ran'.symm.trans long)]
  · intro leaves
    obtain ⟨between, leaves, rfl⟩ := leaves
    obtain ⟨fuel, s, ran, rfl⟩ := (t.leaves_iff _ _ _).mp leaves
    obtain ⟨s', ran', same⟩ := t.applyRules_passes listed (1 + t.rules.length) includedoubtful
      (fuel + (s.subw.length + 1)) s (by omega)
    exact ⟨_, s', bind_eq_ok.mpr ⟨s, t.applyRules_more (s.subw.length + 1) ran (nofun), ran'⟩, same⟩

/-- The order in which the vowels come makes no difference to a word just when the word that the
entries of the list leave is not ambiguous. -/
theorem initialized_order (includedoubtful : Bool) (w : Str) :
    (∀ (hash hash' : HashOrder) (subw : Str),
      ({ t with hash } : Tables).initialized.Leaves includedoubtful w subw ↔
        ({ t with hash := hash' } : Tables).initialized.Leaves includedoubtful w subw) ↔
      ∀ between, t.Leaves includedoubtful w between → Unambiguous between := by
  simp only [leaves_initialized]
  constructor
  · intro one between leaves
    rw [unambiguous_iff]
    intro order order' perm perm'
    obtain ⟨hash, rfl⟩ := exists_order perm
    obtain ⟨hash', rfl⟩ := exists_order perm'
    obtain ⟨between', leaves', same⟩ := (one hash hash' _).mp ⟨between, leaves, rfl⟩
    rw [← same, leaves.unique leaves']
  · intro settled hash hash' subw
    have same (between : Str) (leaves : t.Leaves includedoubtful w between) :=
      (unambiguous_iff between).mp (settled between leaves) _ _ (hash.perm vowels) (hash'.perm vowels)
    constructor
    · intro leaves
      obtain ⟨between, leaves, rfl⟩ := leaves
      exact ⟨between, leaves, (same between leaves).symm⟩
    · intro leaves
      obtain ⟨between, leaves, rfl⟩ := leaves
      exact ⟨between, leaves, same between leaves⟩

end Tables

def reversed : HashOrder := ⟨List.reverse, List.reverse_perm⟩

/-- `iuuare` becomes `iuvare` or `ivuare`. -/
theorem Tables.initialized_iuuare : ¬ ∀ (t : Tables) (includedoubtful : Bool) (w : Str) (hash hash' : HashOrder) (subw : Str),
    ({ t with hash } : Tables).initialized.Leaves includedoubtful w subw ↔
      ({ t with hash := hash' } : Tables).initialized.Leaves includedoubtful w subw := by
  intro claim
  have first : Tables.empty.initialized.Leaves false (lit "iuuare") (lit "iuvare") := ⟨8, [(2, 77)], by decide +kernel⟩
  have second : ({ Tables.empty with hash := reversed } : Tables).initialized.Leaves false (lit "iuuare") (lit "ivuare") :=
    ⟨8, [(1, 27)], by decide +kernel⟩
  have same := (claim Tables.empty false (lit "iuuare") .stored reversed (lit "iuvare")).mp first
  exact absurd (same.unique second) (by decide)

end Maccer
