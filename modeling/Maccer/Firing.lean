import Maccer.Lua.Literals
import Maccer.Substitute

/-! When a substitution is made: the search of `subword` for one entry of the table. -/

namespace Maccer

open Lua

/-- The entry has no mark that forbids chains, and looks for a plain string. -/
structure Rule.Plain (rule : Rule) : Prop where
  literal : hasPattern rule.orig = false
  filled : rule.orig ≠ []
  chains : ∀ mod, rule.mod = some mod → hasMod mod 42 = false

def Rule.Allowed (rule : Rule) (w : Str) (i : Nat) (subbed : Bool) : Prop :=
  issubvalid w rule.mod ((i : Int) + 1) ((i + rule.orig.length : Nat) : Int) subbed = some true

instance (rule : Rule) (w : Str) (i : Nat) (subbed : Bool) : Decidable (rule.Allowed w i subbed) :=
  inferInstanceAs (Decidable (_ = _))

def Rule.Applies (rule : Rule) (w : Str) : Prop := ∃ i, rule.orig <+: w.drop i ∧ rule.Allowed w i false

def Rule.put (rule : Rule) (w : Str) (i : Nat) : Str :=
  w.take i ++ rule.repl ++ w.drop (i + rule.orig.length)

/-- The replacement holds the original again, beyond its length, where the search goes on,
and the modifiers allow that too. -/
def Rule.Repeats (rule : Rule) (w : Str) (i : Nat) : Prop :=
  ∃ j, FirstAt rule.orig (rule.put w i) (i + rule.orig.length) j ∧
    j + rule.orig.length ≤ i + rule.repl.length ∧ rule.Allowed (rule.put w i) j true

/-- Among the matches before or after a first substitution, one is allowed by where it stands. -/
theorem Rule.allowed_congr {rule : Rule} {w w' : Str} {i i' : Nat} {subbed : Bool} (start : i = 0 ↔ i' = 0)
    (ended : i + rule.orig.length < w.length ↔ i' + rule.orig.length < w'.length)
    (room : i + rule.orig.length ≤ w.length) (room' : i' + rule.orig.length ≤ w'.length) :
    rule.Allowed w i subbed ↔ rule.Allowed w' i' subbed := by
  unfold Allowed issubvalid
  cases mods : rule.mod with
  | none => rfl
  | some mod =>
      have atStart : (((i : Int) + 1 == 1) : Bool) = ((i' : Int) + 1 == 1) := by
        rw [Bool.eq_iff_iff, beq_iff_eq, beq_iff_eq]
        omega
      have inside : decide ((i : Int) + 1 > 1) = decide ((i' : Int) + 1 > 1) :=
        decide_eq_decide.mpr (by omega)
      have atEnd : ((((i + rule.orig.length : Nat) : Int) == w.length) : Bool) =
          (((i' + rule.orig.length : Nat) : Int) == w'.length) := by
        rw [Bool.eq_iff_iff, beq_iff_eq, beq_iff_eq]
        omega
      have before : decide (((i + rule.orig.length : Nat) : Int) < w.length) =
          decide (((i' + rule.orig.length : Nat) : Int) < w'.length) :=
        decide_eq_decide.mpr (by omega)
      simp only [atStart, inside, atEnd, before]

namespace Tables

variable (t : Tables) {rule : Rule}

/-! One turn of the loop. -/

def fire (rule : Rule) (fuel k : Nat) (s : Substituted) : Run Substituted :=
  t.applyRule 1 rule rule.orig true false none fuel ((k : Int) + 1) s

theorem fire_none (literal : hasPattern rule.orig = false) (filled : rule.orig ≠ []) (fuel k : Nat) (s : Substituted)
    (absent : ∀ i, k ≤ i → ¬ rule.orig <+: s.subw.drop i) : t.fire rule (fuel + 1) k s = .ok s := by
  rw [fire, applyRule, find_literal_none literal filled k absent]
  rfl

theorem fire_refused (literal : hasPattern rule.orig = false) (filled : rule.orig ≠ []) (fuel k i : Nat) (s : Substituted)
    (first : FirstAt rule.orig s.subw k i) (refused : ¬ rule.Allowed s.subw i s.subbed) :
    t.fire rule (fuel + 1) k s = .ok s := by
  rw [fire, applyRule, find_literal_first literal filled first, run_bind_ok]
  exact if_neg refused

theorem fire_allowed (literal : hasPattern rule.orig = false) (filled : rule.orig ≠ []) (fuel k i : Nat) (s : Substituted)
    (first : FirstAt rule.orig s.subw k i) (allowed : rule.Allowed s.subw i s.subbed) :
    t.fire rule (fuel + 1) k s =
      t.fire rule fuel (i + rule.orig.length) ⟨rule.put s.subw i, (i + 1, 1) :: s.subatpostbl, true⟩ := by
  have put : Lua.sub s.subw 1 ((i : Int) + 1 - 1) ++ rule.repl ++
      subFrom s.subw (((i + rule.orig.length : Nat) : Int) + 1) = rule.put s.subw i := by
    rw [add_sub_cancel_right, sub_first, subFrom_succ, Rule.put]
  rw [fire, applyRule, find_literal_first literal filled first, run_bind_ok]
  refine (if_pos allowed).trans ?_
  simp only [applyAt, Bool.true_or, if_true, toAscii, Bool.false_eq_true, if_false, run_pure, run_bind_ok,
    Nat.cast_add] at put ⊢
  rw [put, fire]
  simp only [Nat.cast_add]
  rfl

end Tables

/-! The word after a substitution. -/

section

variable {rule : Rule}

theorem occurs_put {word front whole : Str} (begins : front <+: whole) {p : Nat}
    (inside : p + word.length ≤ front.length) : word <+: whole.drop p ↔ word <+: front.drop p := by
  obtain ⟨rest, rfl⟩ := begins
  rw [List.drop_append_of_le_length (by omega)]
  refine ⟨fun here => ?_, fun here => here.trans (List.prefix_append _ _)⟩
  exact List.prefix_of_prefix_length_le here (List.prefix_append _ _) (by rw [List.length_drop]; omega)

theorem Rule.put_length (w : Str) (i : Nat) (room : i + rule.orig.length ≤ w.length) :
    (rule.put w i).length + rule.orig.length = w.length + rule.repl.length := by
  simp only [put, List.length_append, List.length_take, List.length_drop]
  omega

theorem Rule.put_drop (w : Str) (i : Nat) (room : i ≤ w.length)
    (long : rule.orig.length ≤ rule.repl.length) : (rule.put w i).drop (i + rule.orig.length) =
      rule.repl.drop rule.orig.length ++ w.drop (i + rule.orig.length) := by
  have front : (w.take i).length = i := by
    rw [List.length_take]
    omega
  have shape : rule.put w i = w.take i ++ (rule.repl ++ w.drop (i + rule.orig.length)) := by
    rw [put, List.append_assoc]
  rw [shape, ← List.drop_drop, List.drop_left' front, List.drop_append_of_le_length long]

def Rule.Changed (rule : Rule) (w : Str) (i : Nat) (s : Str) (k : Nat) : Prop :=
  rule.orig.length < rule.repl.length ∧ w.length < s.length ∨
    rule.repl.length < rule.orig.length ∧ s.length < w.length ∨
    rule.repl.length = rule.orig.length ∧ i + rule.orig.length ≤ k ∧
      s.take (i + rule.orig.length) = w.take i ++ rule.repl

theorem Rule.Changed.ne {w s : Str} {i k : Nat} (changed : rule.Changed w i s k)
    (apart : rule.orig ≠ rule.repl) (here : rule.orig <+: w.drop i) (room : i ≤ w.length) : s ≠ w := by
  rintro rfl
  rcases changed with ⟨_, longer⟩ | ⟨_, shorter⟩ | ⟨same, _, front⟩
  · omega
  · omega
  · obtain ⟨rest, whole⟩ := here
    have orig : (s.drop i).take rule.orig.length = rule.orig := by rw [← whole, List.take_left]
    rw [List.take_add, List.append_right_inj, orig] at front
    exact apart front

theorem Rule.changed_put (w : Str) (i : Nat) (room : i + rule.orig.length ≤ w.length) :
    rule.Changed w i (rule.put w i) (i + rule.orig.length) := by
  have length := rule.put_length w i room
  unfold Changed
  by_cases same : rule.repl.length = rule.orig.length
  · refine .inr (.inr ⟨same, le_rfl, ?_⟩)
    have front : (w.take i ++ rule.repl).length = i + rule.orig.length := by
      rw [List.length_append, List.length_take, same]
      omega
    rw [put, List.take_left' front]
  · omega

theorem Rule.Changed.put {w s : Str} {i k j : Nat} (changed : rule.Changed w i s k) (inside : k ≤ j)
    (room : j + rule.orig.length ≤ s.length) : rule.Changed w i (rule.put s j) (j + rule.orig.length) := by
  have length := rule.put_length s j room
  rcases changed with ⟨long, longer⟩ | ⟨short, shorter⟩ | ⟨same, reach, front⟩
  · exact .inl ⟨long, by omega⟩
  · exact .inr (.inl ⟨short, by omega⟩)
  · refine .inr (.inr ⟨same, by omega, ?_⟩)
    have kept : i + rule.orig.length ≤ (s.take j).length := by
      rw [List.length_take]
      omega
    rw [Rule.put, List.append_assoc, List.take_append_of_le_length kept, List.take_take, min_eq_left (by omega),
      front]

end

namespace Tables

variable (t : Tables) {rule : Rule}

theorem fire_step (plain : rule.Plain) (k : Nat) (s : Substituted) :
    (∀ fuel, t.fire rule (fuel + 1) k s = .ok s) ∨
      ∃ j, FirstAt rule.orig s.subw k j ∧ j + rule.orig.length ≤ s.subw.length ∧ ∀ fuel,
        t.fire rule (fuel + 1) k s =
          t.fire rule fuel (j + rule.orig.length) ⟨rule.put s.subw j, (j + 1, 1) :: s.subatpostbl, true⟩ := by
  rcases firstAt_or_none rule.orig s.subw k with ⟨j, first⟩ | absent
  · by_cases allowed : rule.Allowed s.subw j s.subbed
    · exact .inr ⟨j, first, occurs_le first.here plain.filled, fun fuel => t.fire_allowed plain.literal plain.filled fuel k j s first allowed⟩
    · exact .inl fun fuel => t.fire_refused plain.literal plain.filled fuel k j s first allowed
  · exact .inl fun fuel => t.fire_none plain.literal plain.filled fuel k s absent

theorem fire_changed (plain : rule.Plain) (apart : rule.orig ≠ rule.repl) {w : Str} {i : Nat}
    (here : rule.orig <+: w.drop i) (room : i ≤ w.length) (fuel k : Nat) (s s' : Substituted)
    (changed : rule.Changed w i s.subw k) (ran : t.fire rule fuel k s = .ok s') : s'.subw ≠ w := by
  induction fuel generalizing k s with
  | zero => cases ran
  | succ fuel ih =>
      rcases t.fire_step plain k s with ended | ⟨j, first, inside, next⟩
      · rw [ended] at ran
        rw [← Except.ok.inj ran]
        exact changed.ne apart here room
      · rw [next] at ran
        exact ih _ _ (changed.put first.inside inside) ran

theorem fire_short (plain : rule.Plain) (short : rule.repl.length ≤ rule.orig.length) (fuel k : Nat)
    (s : Substituted) (enough : s.subw.length - k < fuel) : ∃ s', t.fire rule fuel k s = .ok s' := by
  induction fuel generalizing k s with
  | zero => omega
  | succ fuel ih =>
      rcases t.fire_step plain k s with ended | ⟨j, first, inside, next⟩
      · exact ⟨s, ended fuel⟩
      · rw [next]
        have length := rule.put_length s.subw j inside
        have positive := List.length_pos_iff.mpr plain.filled
        have after := first.inside
        exact ih _ _ (by dsimp only; omega)

/-- A longer replacement that does not hold the original again leaves less of the old word. -/
theorem fire_long (plain : rule.Plain) (long : rule.orig.length ≤ rule.repl.length)
    (once : ∀ p, p + rule.orig.length ≤ (rule.repl.drop rule.orig.length).length →
      ¬ rule.orig <+: (rule.repl.drop rule.orig.length).drop p) (fuel k : Nat) (s : Substituted) (rest : Str)
    (shape : s.subw.drop k = rule.repl.drop rule.orig.length ++ rest) (enough : rest.length < fuel) :
    ∃ s', t.fire rule fuel k s = .ok s' := by
  induction fuel generalizing k s rest with
  | zero => omega
  | succ fuel ih =>
      rcases t.fire_step plain k s with ended | ⟨j, first, inside, next⟩
      · exact ⟨s, ended fuel⟩
      · rw [next]
        have after := first.inside
        have positive := List.length_pos_iff.mpr plain.filled
        have straddles : (rule.repl.drop rule.orig.length).length < j - k + rule.orig.length := by
          by_contra inner
          apply once (j - k) (by omega)
          have here := first.here
          rw [show j = k + (j - k) by omega, ← List.drop_drop, shape] at here
          exact (occurs_put (List.prefix_append _ _) (by omega)).mp here
        apply ih (j + rule.orig.length) _ (s.subw.drop (j + rule.orig.length))
        · exact rule.put_drop s.subw j (by omega) long
        · have lengths := congrArg List.length shape
          rw [List.length_drop, List.length_append] at lengths
          rw [List.length_drop]
          omega

structure Endless (rule : Rule) (s : Str) (k j : Nat) : Prop where
  positive : 1 ≤ k
  first : FirstAt rule.orig s k j
  inner : j - k + rule.orig.length ≤ (rule.repl.drop rule.orig.length).length
  begins : rule.repl.drop rule.orig.length <+: s.drop k
  allowed : rule.Allowed s j true

theorem Endless.put {s : Str} {k j : Nat} (endless : Endless rule s k j) (filled : rule.orig ≠ []) :
    Endless rule (rule.put s j) (j + rule.orig.length) (j + rule.orig.length + (j - k)) := by
  obtain ⟨positive, ⟨inside, here, first⟩, inner, begins, allowed⟩ := endless
  have room := occurs_le here filled
  have filled := List.length_pos_iff.mpr filled
  have rest : (rule.repl.drop rule.orig.length).length = rule.repl.length - rule.orig.length := List.length_drop ..
  have next := rule.put_drop s j (by omega) (by omega)
  have begins' : rule.repl.drop rule.orig.length <+: (rule.put s j).drop (j + rule.orig.length) := by
    rw [next]
    exact List.prefix_append _ _
  -- both places are read off the replacement
  have moved (p : Nat) (within : p + rule.orig.length ≤ (rule.repl.drop rule.orig.length).length) :
      rule.orig <+: (rule.put s j).drop (j + rule.orig.length + p) ↔ rule.orig <+: s.drop (k + p) := by
    rw [← List.drop_drop, ← List.drop_drop (i := p) (j := k), occurs_put begins' within, occurs_put begins within]
  have length := rule.put_length s j room
  have bound := begins.length_le
  rw [List.length_drop (i := k)] at bound
  refine ⟨by omega, ⟨by omega, ?_, fun j' after less => ?_⟩, by omega, begins', ?_⟩
  · rw [moved _ inner, Nat.add_sub_cancel' inside]
    exact here
  · obtain ⟨p, rfl⟩ : ∃ p, j' = j + rule.orig.length + p := ⟨j' - (j + rule.orig.length), by omega⟩
    rw [moved p (by omega)]
    exact first _ (by omega) (by omega)
  · refine (Rule.allowed_congr ?_ ?_ room ?_).mp allowed <;> omega

theorem fire_endless (literal : hasPattern rule.orig = false) (filled : rule.orig ≠ []) (fuel k j : Nat) (s : Substituted) (subbed : s.subbed = true)
    (endless : Endless rule s.subw k j) : t.fire rule fuel k s = .error .running := by
  induction fuel generalizing k j s with
  | zero => rfl
  | succ fuel ih =>
      rw [t.fire_allowed literal filled fuel k j s endless.first (subbed ▸ endless.allowed)]
      exact ih _ _ _ rfl (endless.put filled)

/-- After the first substitution the loop ends just when the replacement is not found in itself again and again. -/
theorem fire_ends (plain : rule.Plain) (w : Str) (i : Nat) (room : i + rule.orig.length ≤ w.length)
    (positions : Positions) :
    (∃ fuel s, t.fire rule fuel (i + rule.orig.length) ⟨rule.put w i, positions, true⟩ = .ok s) ↔
      ¬ rule.Repeats w i := by
  have positive := List.length_pos_iff.mpr plain.filled
  have rest : (rule.repl.drop rule.orig.length).length = rule.repl.length - rule.orig.length := List.length_drop ..
  constructor
  · rintro ⟨fuel, s, ran⟩ ⟨j, first, inside, allowed⟩
    have after := first.inside
    have endless : Endless rule (rule.put w i) (i + rule.orig.length) j := by
      refine ⟨by omega, first, by omega, ?_, allowed⟩
      rw [rule.put_drop w i (by omega) (by omega)]
      exact List.prefix_append _ _
    rw [t.fire_endless plain.literal plain.filled fuel _ j ⟨rule.put w i, positions, true⟩ rfl endless] at ran
    cases ran
  · intro ends
    by_cases long : rule.orig.length ≤ rule.repl.length
    case neg => exact ⟨_, t.fire_short plain (by omega) _ _ _ (Nat.lt_succ_self _)⟩
    case pos =>
      have shape := rule.put_drop w i (by omega) long
      by_cases again : ∃ j, FirstAt rule.orig (rule.put w i) (i + rule.orig.length) j ∧
          j + rule.orig.length ≤ i + rule.repl.length
      · obtain ⟨j, first, inside⟩ := again
        exact ⟨1, _, t.fire_refused plain.literal plain.filled 0 _ j _ first fun allowed => ends ⟨j, first, inside, allowed⟩⟩
      · refine ⟨_, t.fire_long plain long (fun p within here => ?_) _ _ _ _ shape (Nat.lt_succ_self _)⟩
        have here' : rule.orig <+: (rule.put w i).drop (i + rule.orig.length + p) := by
          rw [← List.drop_drop, shape]
          exact (occurs_put (List.prefix_append _ _) within).mpr here
        rcases firstAt_or_none rule.orig (rule.put w i) (i + rule.orig.length) with ⟨j, first⟩ | absent
        · have before : j ≤ i + rule.orig.length + p := Nat.le_of_not_lt fun less =>
            first.first _ (by omega) less here'
          exact again ⟨j, first, by omega⟩
        · exact absent _ (by omega) here'

theorem fire_start (plain : rule.Plain) (fuel i : Nat) (w : Str) (first : FirstAt rule.orig w 0 i)
    (allowed : rule.Allowed w i false) : t.fire rule (fuel + 1) 0 ⟨w, [], false⟩ =
      t.fire rule fuel (i + rule.orig.length) ⟨rule.put w i, [(i + 1, 1)], true⟩ :=
  t.fire_allowed plain.literal plain.filled fuel 0 i ⟨w, [], false⟩ first allowed

theorem subword_single (single : t.rules = [rule]) (fuel : Nat) (w : Str) :
    t.subword fuel w true false none =
      (fun s => (s.subw, if s.subw = w then [] else s.subatpostbl)) <$> t.fire rule fuel 0 ⟨w, [], false⟩ := by
  simp only [subword, single, applyRules, toAscii, Bool.false_eq_true, if_false, run_pure, run_bind_ok, fire,
    Nat.cast_zero, zero_add]
  cases t.applyRule 1 rule rule.orig true false none fuel 1 ⟨w, [], false⟩ <;> rfl

/-- A single entry changes a word just when it applies somewhere, unless its first occurrence
is not allowed and a later one is, or the loop does not end. -/
theorem subword_applies (plain : rule.Plain) (apart : rule.orig ≠ rule.repl) (single : t.rules = [rule])
    (w : Str) :
    (∃ fuel s positions, t.subword fuel w true false none = .ok (s, positions) ∧
      (s ≠ w ↔ rule.Applies w)) ↔
      ¬ rule.Applies w ∨ ∃ i, FirstAt rule.orig w 0 i ∧ rule.Allowed w i false ∧ ¬ rule.Repeats w i := by
  have still (ended : ∀ fuel, t.fire rule (fuel + 1) 0 ⟨w, [], false⟩ = .ok ⟨w, [], false⟩)
      (waits : ∀ i, FirstAt rule.orig w 0 i → ¬ rule.Allowed w i false) :
      (∃ fuel s positions, t.subword fuel w true false none = .ok (s, positions) ∧ (s ≠ w ↔ rule.Applies w)) ↔
        ¬ rule.Applies w ∨ ∃ i, FirstAt rule.orig w 0 i ∧ rule.Allowed w i false ∧ ¬ rule.Repeats w i := by
    constructor
    · rintro ⟨fuel, s, positions, ran, same⟩
      rw [t.subword_single single] at ran
      obtain ⟨out, fired, shape⟩ := map_eq_ok.mp ran
      cases fuel with
      | zero => cases fired
      | succ fuel =>
          rw [ended] at fired
          obtain rfl := Except.ok.inj fired
          exact .inl fun applies => same.mpr applies (Prod.mk.inj shape).1.symm
    · rintro (never | ⟨i, first, allowed, _⟩)
      · refine ⟨1, w, [], ?_, iff_of_false (fun changed => changed rfl) never⟩
        rw [t.subword_single single, ended, run_map_ok, if_pos rfl]
      · exact absurd allowed (waits i first)
  rcases firstAt_or_none rule.orig w 0 with ⟨i, first⟩ | absent
  · by_cases allowed : rule.Allowed w i false
    · have room := occurs_le first.here plain.filled
      have applies : rule.Applies w := ⟨i, first.here, allowed⟩
      constructor
      · rintro ⟨fuel, s, positions, ran, _⟩
        rw [t.subword_single single] at ran
        obtain ⟨out, fired, _⟩ := map_eq_ok.mp ran
        refine .inr ⟨i, first, allowed, (t.fire_ends plain w i room [(i + 1, 1)]).mp ?_⟩
        cases fuel with
        | zero => cases fired
        | succ fuel =>
            rw [t.fire_start plain fuel i w first allowed] at fired
            exact ⟨fuel, out, fired⟩
      · rintro (never | ⟨i', first', _, ends⟩)
        · exact absurd applies never
        · obtain rfl := first.unique first'
          obtain ⟨fuel, out, fired⟩ := (t.fire_ends plain w i room [(i + 1, 1)]).mpr ends
          have changed : out.subw ≠ w := t.fire_changed plain apart first.here (by omega) fuel
            (i + rule.orig.length) ⟨rule.put w i, [(i + 1, 1)], true⟩ out (rule.changed_put w i room) fired
          refine ⟨fuel + 1, out.subw, out.subatpostbl, ?_, iff_of_true changed applies⟩
          rw [t.subword_single single, t.fire_start plain fuel i w first allowed, fired, run_map_ok,
            if_neg changed]
    · exact still (fun fuel => t.fire_refused plain.literal plain.filled fuel 0 i _ first allowed) fun i' first' =>
        first.unique first' ▸ allowed
  · exact still (fun fuel => t.fire_none plain.literal plain.filled fuel 0 _ absent) fun i first _ =>
      absent i first.inside first.here

end Tables

/-! More fuel. -/

namespace Tables

variable (t : Tables) {includedoubtful ascii : Bool} {prev : Option (Str × Positions)} {fuel n : Nat}

theorem applyRule_more {rule : Rule} {orig : Str} (more : Nat) {k : Int} {s : Substituted} {result : Run Substituted}
    (ran : t.applyRule n rule orig includedoubtful ascii prev fuel k s = result) (ends : result ≠ .error .running) :
    t.applyRule n rule orig includedoubtful ascii prev (fuel + more) k s = result := by
  induction fuel generalizing k s with
  | zero => exact absurd ran.symm ends
  | succ fuel ih =>
      rw [Nat.add_right_comm, applyRule]
      rw [applyRule] at ran
      cases search : find s.subw orig k with
      | error fault => rwa [search] at ran
      | ok found =>
          rw [search, run_bind_ok] at ran
          rw [run_bind_ok]
          cases found with
          | none => exact ran
          | some place =>
              dsimp only at ran ⊢
              split at ran
              case isFalse refused => rwa [if_neg refused]
              case isTrue allowed =>
                rw [if_pos allowed]
                cases applied : t.applyAt n rule includedoubtful ascii prev place.1 place.2 s with
                | error fault => rwa [applied] at ran
                | ok next =>
                    rw [applied, run_bind_ok] at ran
                    exact ih ran

theorem applyRules_more (more : Nat) {rules : List Rule} {s : Substituted} {result : Run Substituted}
    (ran : t.applyRules fuel includedoubtful ascii prev rules n s = result) (ends : result ≠ .error .running) :
    t.applyRules (fuel + more) includedoubtful ascii prev rules n s = result := by
  induction rules generalizing n s with
  | nil => exact ran
  | cons rule rules ih =>
      rw [applyRules] at ran ⊢
      cases same : t.toAscii ascii rule.orig with
      | error fault => rwa [same] at ran
      | ok orig =>
          rw [same, run_bind_ok] at ran
          rw [run_bind_ok]
          cases applied : t.applyRule n rule orig includedoubtful ascii prev fuel 1 s with
          | error fault =>
              rw [applied] at ran
              have first : fault ≠ .running := fun running => ends (running ▸ ran.symm)
              rwa [t.applyRule_more more applied fun running => first (Except.error.inj running)]
          | ok next =>
              rw [applied, run_bind_ok] at ran
              rw [t.applyRule_more more applied (nofun), run_bind_ok]
              exact ih ran

end Tables

def finalO : Rule := ⟨lit "o", lit "ō", some (lit "]")⟩

theorem finalO_plain : finalO.Plain where
  literal := by decide
  filled := by decide
  chains mod same := by
    obtain rfl := Option.some.inj same
    decide

theorem Tables.subword_applies_leo : ∃ fuel s positions,
    ({ Tables.empty with rules := [finalO] } : Tables).subword fuel (lit "leo") true false none =
      .ok (s, positions) ∧ (s ≠ lit "leo" ↔ finalO.Applies (lit "leo")) := by
  apply (Tables.subword_applies _ finalO_plain (by decide) rfl (lit "leo")).mpr
  refine .inr ⟨2, ⟨by decide, by decide, by decide⟩, by decide, ?_⟩
  rintro ⟨j, ⟨after, here, _⟩, _, _⟩
  have inside := occurs_le here finalO_plain.filled
  have place : j = 3 := by
    have size : (finalO.put (lit "leo") 2).length = 4 := by decide
    have one : finalO.orig.length = 1 := by decide
    omega
  subst place
  exact absurd here (by decide)

/-- The last `o` of `bono` is not reached. -/
theorem Tables.subword_bono :
    ¬ ∀ (t : Tables) (rule : Rule) (w : Str), rule.Plain → rule.orig ≠ rule.repl → t.rules = [rule] →
      ∃ fuel s positions, t.subword fuel w true false none = .ok (s, positions) ∧
        (s ≠ w ↔ rule.Applies w) := by
  intro claim
  obtain ⟨fuel, s, positions, ran, changes⟩ := claim { Tables.empty with rules := [finalO] } finalO
    (lit "bono") finalO_plain (by decide) rfl
  have applies : finalO.Applies (lit "bono") := ⟨3, by decide, by decide⟩
  have first : FirstAt finalO.orig (lit "bono") 0 1 := ⟨by decide, by decide, by decide⟩
  rw [Tables.subword_single _ rfl] at ran
  cases fuel with
  | zero => cases ran
  | succ fuel =>
      rw [Tables.fire_refused _ finalO_plain.literal finalO_plain.filled fuel 0 1 _ first (by decide)] at ran
      exact changes.mpr applies (Prod.mk.inj (Except.ok.inj ran)).1.symm

end Maccer
