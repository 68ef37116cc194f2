import Maccer.Firing

/-! When the search of `subword` ends, for every word and every table made of some entries. -/

namespace Maccer

open Lua

structure Rule.Worded (rule : Rule) : Prop where
  filled : rule.orig ≠ []
  literal : hasPattern rule.orig = false

def letsAgain (mod : Option Str) (last : Bool) : Bool :=
  match mod with
  | none => true
  | some modstr =>
      if modstr = lit "~" then true
      else
        (if hasMod modstr 42 then hasMod modstr 60
          else !hasMod modstr 91 && (hasMod modstr 60 || hasMod modstr 93 || hasMod modstr 62)) &&
        (!hasMod modstr 93 || last)

/-- Beyond the length of the original the replacement holds the original, and the modifiers let it be replaced there. -/
def Rule.Feeds (rule : Rule) : Prop :=
  ∃ i, FirstAt rule.orig (rule.repl.drop rule.orig.length) 0 i ∧
    letsAgain rule.mod (i + rule.orig.length == (rule.repl.drop rule.orig.length).length) = true

def Rule.ascii (rule : Rule) : Run Rule := do
  let orig ← Utf8.replace rule.orig (field unicode.unicodeinvtbl)
  let repl ← Utf8.replace rule.repl (field unicode.unicodeinvtbl)
  return ⟨orig, repl, rule.mod⟩

/-! What is allowed. -/

theorem Rule.allowed_iff {rule : Rule} {modstr : Str} (mod : rule.mod = some modstr) (marks : modstr ≠ lit "~") {w : Str}
    {i : Nat} {subbed : Bool} : rule.Allowed w i subbed ↔
      (let chain := if hasMod modstr 42 then some (!subbed) else none
      let left :=
        if hasMod modstr 91 && chain != some false then some (decide (i = 0))
        else if hasMod modstr 60 then some (decide (0 < i))
        else chain
      if hasMod modstr 93 && left != some false then some (decide (i + rule.orig.length = w.length))
      else if hasMod modstr 62 && left != some false then some (decide (i + rule.orig.length < w.length))
      else left) = some true := by
  have start : ((i : Int) + 1 == 1) = decide (i = 0) := by
    rw [Bool.eq_iff_iff, beq_iff_eq, decide_eq_true_eq]
    omega
  have inside : decide ((i : Int) + 1 > 1) = decide (0 < i) := decide_eq_decide.mpr (by omega)
  have ended : ((((i + rule.orig.length : Nat) : Int) == w.length) : Bool) = decide (i + rule.orig.length = w.length) := by
    rw [Bool.eq_iff_iff, beq_iff_eq, decide_eq_true_eq]
    omega
  have before : decide (((i + rule.orig.length : Nat) : Int) < w.length) = decide (i + rule.orig.length < w.length) :=
    decide_eq_decide.mpr (by omega)
  unfold Allowed issubvalid
  rw [mod]
  simp only [if_neg marks, start, inside, ended, before]

theorem Rule.letsAgain_of_allowed {rule : Rule} {s : Str} {j : Nat} (later : 1 ≤ j) (allowed : rule.Allowed s j true)
    {last : Bool} (ended : j + rule.orig.length = s.length → last = true) : letsAgain rule.mod last = true := by
  cases mod : rule.mod with
  | none => rfl
  | some modstr =>
      rw [letsAgain]
      split
      case isTrue => rfl
      case isFalse marks =>
        rw [Rule.allowed_iff mod marks, decide_eq_false (show ¬ j = 0 by omega), decide_eq_true (show 0 < j by omega)] at allowed
        have place : decide (j + rule.orig.length = s.length) = true → last = true := fun h => ended (of_decide_eq_true h)
        clear ended
        revert allowed place
        generalize hasMod modstr 42 = chain, hasMod modstr 91 = begins, hasMod modstr 60 = left, hasMod modstr 93 = ends,
          hasMod modstr 62 = right, decide (j + rule.orig.length = s.length) = here, decide (j + rule.orig.length < s.length) = before
        revert chain begins left ends right here before last
        decide

/-! Entries that do not feed themselves. -/

theorem Rule.put_behind (rule : Rule) {w : Str} {i : Nat} (room : i + rule.orig.length ≤ w.length) :
    (rule.put w i).drop (i + rule.orig.length) =
      rule.repl.drop rule.orig.length ++ (w.drop (i + rule.orig.length)).drop (rule.orig.length - rule.repl.length) := by
  have front : (w.take i).length = i := by
    rw [List.length_take]
    omega
  rw [Rule.put, List.append_assoc, ← List.drop_drop, List.drop_left' front, List.drop_append]

theorem bind_running {α β : Type} {x : Run α} {next : α → Run β} (first : x ≠ .error .running)
    (later : ∀ a, x = .ok a → next a ≠ .error .running) : x >>= next ≠ .error .running := by
  cases x with
  | ok a => exact later a rfl
  | error fault => exact fun running => first (congrArg _ (Except.error.inj running))

namespace Tables

variable (t : Tables)

theorem toAscii_running (ascii : Bool) (str : Str) : t.toAscii ascii str ≠ .error .running := by
  rw [toAscii, Utf8.replace]
  split
  · split
    all_goals
      intro same
      cases same
  · intro same
    cases same

variable {n : Nat} {rule : Rule} {orig : Str} {includedoubtful ascii : Bool} {prev : Option (Str × Positions)}

theorem prevdsubi_running (prev : Str × Positions) (replstart : Nat) :
    prevdsubi t.rules prev replstart ≠ .error .running := by
  rw [prevdsubi]
  split
  · intro same
    cases same
  · rw [Utf8.len]
    split
    all_goals
      intro same
      cases same

theorem applyAt_running (replstart replend : Int) (s : Substituted) :
    t.applyAt n rule includedoubtful ascii prev replstart replend s ≠ .error .running := by
  rw [applyAt]
  split
  case isFalse =>
    intro same
    cases same
  case isTrue =>
    refine bind_running (t.toAscii_running ascii rule.repl) fun repl _ => ?_
    cases prev with
    | none =>
        intro same
        cases same
    | some prev =>
        refine bind_running (t.prevdsubi_running prev replstart.toNat) fun last _ => ?_
        split
        all_goals
          intro same
          cases same

def Ahead (t : Tables) (rule : Rule) (orig : Str) (ascii : Bool) (k : Nat) (s : Substituted) (rest : Str) : Prop :=
  s.subw.drop k = rest ∨ 1 ≤ k ∧ s.subbed = true ∧ ∃ repl, t.toAscii ascii rule.repl = .ok repl ∧
    s.subw.drop k = repl.drop orig.length ++ rest

theorem applyRule_ends (filled : orig ≠ []) (literal : hasPattern orig = false)
    (settled : ∀ repl, t.toAscii ascii rule.repl = .ok repl → ¬ Rule.Feeds ⟨orig, repl, rule.mod⟩) (bound : Nat)
    (k : Nat) (s : Substituted) (rest : Str) (ahead : t.Ahead rule orig ascii k s rest) (short : rest.length < bound) :
    t.applyRule n rule orig includedoubtful ascii prev bound ((k : Int) + 1) s ≠ .error .running := by
  induction bound generalizing k s rest with
  | zero => omega
  | succ bound ih =>
      rw [applyRule]
      rcases firstAt_or_none orig s.subw k with ⟨j, first⟩ | absent
      case inr =>
        rw [find_literal_none literal filled k absent]
        exact fun running => by cases running
      have room := occurs_le first.here filled
      have after := first.inside
      have positive := List.length_pos_iff.mpr filled
      rw [find_literal_first literal filled first, run_bind_ok]
      dsimp only
      split
      case isFalse => exact fun running => by cases running
      case isTrue allowed =>
        have shorter : (s.subw.drop (j + orig.length)).length < rest.length := by
          rcases ahead with whole | ⟨later, subbed, repl, shown, shape⟩
          · rw [← whole, List.length_drop, List.length_drop]
            omega
          · have lengths := congrArg List.length shape
            rw [List.length_append, List.length_drop (l := s.subw)] at lengths
            rw [List.length_drop]
            by_contra inner
            have within : j - k + orig.length ≤ (repl.drop orig.length).length := by omega
            -- the match stands inside the end of the replacement
            have begins : repl.drop orig.length <+: s.subw.drop k := shape ▸ List.prefix_append _ _
            have moved (p : Nat) (inside : p + orig.length ≤ (repl.drop orig.length).length) :
                orig <+: s.subw.drop (k + p) ↔ orig <+: (repl.drop orig.length).drop p := by
              rw [← List.drop_drop, occurs_put begins inside]
            apply settled repl shown
            refine ⟨j - k, ⟨Nat.zero_le _, ?_, ?_⟩, ?_⟩
            · rw [← moved (j - k) within, Nat.add_sub_cancel' after]
              exact first.here
            · intro p _ before here
              exact first.first (k + p) (by omega) (by omega) ((moved p (by omega)).mpr here)
            · refine @Rule.letsAgain_of_allowed ⟨orig, repl, rule.mod⟩ s.subw j (by omega) (subbed ▸ allowed) _ ?_
              intro ended
              dsimp only at ended ⊢
              exact beq_iff_eq.mpr (by omega)
        refine bind_running (t.applyAt_running _ _ s) fun next applied => ?_
        rw [← Nat.cast_add]
        rcases t.applyAt_cases applied with rfl | ⟨repl, shown, rfl⟩
        · exact ih _ next _ (.inl rfl) (by omega)
        · have put : Lua.sub s.subw 1 ((j : Int) + 1 - 1) ++ repl ++ subFrom s.subw ((j : Int) + orig.length + 1) =
              Rule.put ⟨orig, repl, rule.mod⟩ s.subw j := by
            rw [add_sub_cancel_right, sub_first, ← Nat.cast_add, subFrom_succ, Rule.put]
          rw [put]
          refine ih _ _ ((s.subw.drop (j + orig.length)).drop (orig.length - repl.length))
            (.inr ⟨by omega, rfl, repl, shown, Rule.put_behind ⟨orig, repl, rule.mod⟩ room⟩) ?_
          rw [List.length_drop]
          omega

theorem applyRules_ends (entries : List Rule) (worded : ∀ rule ∈ entries, ∀ orig, t.toAscii ascii rule.orig = .ok orig →
      orig ≠ [] ∧ hasPattern orig = false ∧
        ∀ repl, t.toAscii ascii rule.repl = .ok repl → ¬ Rule.Feeds ⟨orig, repl, rule.mod⟩) (n : Nat) (s : Substituted) :
    ∃ fuel, t.applyRules fuel includedoubtful ascii prev entries n s ≠ .error .running := by
  induction entries generalizing n s with
  | nil => exact ⟨0, fun same => by cases same⟩
  | cons rule entries ih =>
      cases shown : t.toAscii ascii rule.orig with
      | error fault =>
          refine ⟨0, ?_⟩
          rw [applyRules]
          exact bind_running (t.toAscii_running ascii rule.orig) fun orig same => by rw [shown] at same; cases same
      | ok orig =>
          obtain ⟨filled, literal, settled⟩ := worded rule List.mem_cons_self orig shown
          have ends := @applyRule_ends t n rule orig includedoubtful ascii prev filled literal settled (s.subw.length + 1) 0 s
            s.subw (.inl rfl) (Nat.lt_succ_self _)
          rw [Nat.cast_zero, zero_add] at ends
          cases ran : t.applyRule n rule orig includedoubtful ascii prev (s.subw.length + 1) 1 s with
          | error fault =>
              refine ⟨s.subw.length + 1, ?_⟩
              rw [applyRules, shown, run_bind_ok]
              exact bind_running ends fun next same => by rw [ran] at same; cases same
          | ok next =>
              obtain ⟨fuel, later⟩ := ih (fun rule' member => worded rule' (List.mem_cons_of_mem rule member)) (n + 1) next
              refine ⟨s.subw.length + 1 + fuel, ?_⟩
              rw [applyRules, shown, run_bind_ok, t.applyRule_more fuel ran (fun same => by cases same), run_bind_ok, Nat.add_comm,
                t.applyRules_more (s.subw.length + 1) rfl later]
              exact later

end Tables

/-! The texts in ASCII. -/

theorem ascii_filled : ∀ e ∈ unicode.unicodeinvtbl.entries, e.2 ≠ [] ∧ hasPattern e.2 = false := by
  decide

theorem hasPattern_iff (s : Str) : hasPattern s = false ↔ ∀ b ∈ s, hasPattern [b] = false := by
  simp [hasPattern]

theorem ascii_worded {orig shown : Str} (filled : orig ≠ []) (literal : hasPattern orig = false)
    (same : Utf8.replace orig (field unicode.unicodeinvtbl) = .ok shown) : shown ≠ [] ∧ hasPattern shown = false := by
  have joined := Utf8.chars_join orig
  simp only [Utf8.replace] at same
  split at same
  case isFalse => cases same
  case isTrue whole =>
    rw [whole, List.append_nil] at joined
    cases same
    have parts (c : Str) (member : c ∈ (Utf8.chars orig).1) : ((field unicode.unicodeinvtbl c).getD c ≠ [] ∨ c = []) ∧
        hasPattern ((field unicode.unicodeinvtbl c).getD c) = false := by
      cases entry : field unicode.unicodeinvtbl c with
      | none =>
          refine ⟨?_, (hasPattern_iff _).mpr fun b inside => ?_⟩
          · rw [Option.getD_none]
            exact (ne_or_eq c [])
          · exact (hasPattern_iff orig).mp literal b (joined ▸ List.mem_flatten.mpr ⟨c, member, inside⟩)
      | some letter =>
          have facts := ascii_filled ⟨c, letter⟩ (AList.mem_lookup_iff.mp entry)
          exact ⟨.inl facts.1, facts.2⟩
    constructor
    · intro empty
      apply filled
      rw [← joined]
      apply List.flatten_eq_nil_iff.mpr
      intro c member
      rcases (parts c member).1 with some | none
      · exact absurd (List.flatMap_eq_nil_iff.mp empty c member) some
      · exact none
    · apply (hasPattern_iff _).mpr
      intro b member
      obtain ⟨c, present, inside⟩ := List.mem_flatMap.mp member
      exact (hasPattern_iff _).mp (parts c present).2 b inside

/-! Entries that feed themselves. -/

def Rule.front (rule : Rule) : Str :=
  if rule.mod.any (hasMod · 91) then [] else [if rule.orig.head? = some 97 then 98 else 97]

def Rule.back (rule : Rule) : Str := if rule.mod.any (hasMod · 93) then [] else [97]

def Rule.bait (rule : Rule) : Str := rule.front ++ rule.orig ++ rule.back

section

variable {rule : Rule}

theorem Rule.bait_first (worded : rule.Worded) : FirstAt rule.orig rule.bait 0 rule.front.length := by
  have here : rule.bait.drop rule.front.length = rule.orig ++ rule.back := by
    rw [bait, List.append_assoc, List.drop_left]
  refine ⟨Nat.zero_le _, here ▸ List.prefix_append _ _, fun j _ before begins => ?_⟩
  obtain ⟨letter, rest, same⟩ := List.exists_cons_of_ne_nil worded.filled
  rw [front] at before
  split at before
  case isTrue => exact absurd before (Nat.not_lt_zero j)
  case isFalse inner =>
    obtain rfl : j = 0 := Nat.lt_one_iff.mp before
    rw [bait, front, if_neg inner, same, List.drop_zero] at begins
    obtain ⟨first, _⟩ := List.cons_prefix_cons.mp begins
    rw [List.head?_cons] at first
    split at first
    case isTrue a =>
      rw [Option.some.inj a] at first
      exact absurd first (by decide)
    case isFalse other => exact other (congrArg some first)

theorem Rule.bait_allowed {last : Bool} (again : letsAgain rule.mod last = true) :
    rule.Allowed rule.bait rule.front.length false := by
  cases mod : rule.mod with
  | none =>
      rw [Allowed, mod]
      rfl
  | some modstr =>
      by_cases marks : modstr = lit "~"
      · rw [Allowed, mod, marks]
        rfl
      · rw [mod, letsAgain] at again
        simp only [if_neg marks] at again
        rw [Rule.allowed_iff mod marks]
        have start : decide (rule.front.length = 0) = hasMod modstr 91 := by
          rw [front, mod, Option.any_some]
          split <;> simp_all
        have inside : decide (0 < rule.front.length) = !hasMod modstr 91 := by
          rw [front, mod, Option.any_some]
          split <;> simp_all
        have ended : decide (rule.front.length + rule.orig.length = rule.bait.length) = hasMod modstr 93 := by
          rw [bait, List.length_append, List.length_append, back, mod, Option.any_some]
          split <;> simp_all
        have before : decide (rule.front.length + rule.orig.length < rule.bait.length) = !hasMod modstr 93 := by
          rw [bait, List.length_append, List.length_append, back, mod, Option.any_some]
          split <;> simp_all
        rw [start, inside, ended, before]
        revert again
        generalize hasMod modstr 42 = chain, hasMod modstr 91 = begins, hasMod modstr 60 = left, hasMod modstr 93 = ends,
          hasMod modstr 62 = right
        revert chain begins left ends right last
        decide

theorem Rule.bait_again {i : Nat} (here : rule.orig <+: (rule.repl.drop rule.orig.length).drop i) (worded : rule.Worded)
    (again : letsAgain rule.mod (i + rule.orig.length == (rule.repl.drop rule.orig.length).length) = true) :
    rule.Allowed (rule.put rule.bait rule.front.length) (rule.front.length + rule.orig.length + i) true := by
  have within := occurs_le here worded.filled
  have positive := List.length_pos_iff.mpr worded.filled
  rw [List.length_drop] at within
  have length := rule.put_length rule.bait rule.front.length (by simp [bait])
  rw [bait, List.length_append, List.length_append, ← bait] at length
  cases mod : rule.mod with
  | none =>
      rw [Allowed, mod]
      rfl
  | some modstr =>
      by_cases marks : modstr = lit "~"
      · rw [Allowed, mod, marks]
        rfl
      · rw [mod, letsAgain] at again
        simp only [if_neg marks] at again
        rw [Rule.allowed_iff mod marks, decide_eq_false (by omega), decide_eq_true (by omega)]
        have ended (ends : hasMod modstr 93 = true)
            (last : (i + rule.orig.length == (rule.repl.drop rule.orig.length).length) = true) :
            decide (rule.front.length + rule.orig.length + i + rule.orig.length =
              (rule.put rule.bait rule.front.length).length) = true := by
          rw [beq_iff_eq, List.length_drop] at last
          rw [back, mod, Option.any_some, if_pos ends, List.length_nil] at length
          exact decide_eq_true (by omega)
        have before (more : hasMod modstr 93 = false) :
            decide (rule.front.length + rule.orig.length + i + rule.orig.length <
              (rule.put rule.bait rule.front.length).length) = true := by
          rw [back, mod, Option.any_some, more, if_neg Bool.false_ne_true, List.length_singleton] at length
          exact decide_eq_true (by omega)
        clear here within positive length mod marks
        revert again ended before
        generalize hasMod modstr 42 = chain, hasMod modstr 91 = begins, hasMod modstr 60 = left, hasMod modstr 93 = ends,
          hasMod modstr 62 = right, (i + rule.orig.length == (rule.repl.drop rule.orig.length).length) = last,
          decide (rule.front.length + rule.orig.length + i + rule.orig.length =
            (rule.put rule.bait rule.front.length).length) = stops,
          decide (rule.front.length + rule.orig.length + i + rule.orig.length <
            (rule.put rule.bait rule.front.length).length) = goes
        revert chain begins left ends right last stops goes
        decide

theorem Rule.bait_endless (worded : rule.Worded) (feeds : rule.Feeds) :
    ∃ j, Tables.Endless rule (rule.put rule.bait rule.front.length) (rule.front.length + rule.orig.length) j := by
  obtain ⟨i, first, again⟩ := feeds
  have positive := List.length_pos_iff.mpr worded.filled
  have within := occurs_le first.here worded.filled
  have long : rule.orig.length ≤ rule.repl.length := by
    rw [List.length_drop] at within
    omega
  have begins : rule.repl.drop rule.orig.length <+:
      (rule.put rule.bait rule.front.length).drop (rule.front.length + rule.orig.length) := by
    rw [rule.put_drop rule.bait rule.front.length (by simp [bait]) long]
    exact List.prefix_append _ _
  have moved (p : Nat) (inside : p + rule.orig.length ≤ (rule.repl.drop rule.orig.length).length) :
      rule.orig <+: (rule.put rule.bait rule.front.length).drop (rule.front.length + rule.orig.length + p) ↔
        rule.orig <+: (rule.repl.drop rule.orig.length).drop p := by
    rw [← List.drop_drop, occurs_put begins inside]
  refine ⟨rule.front.length + rule.orig.length + i, by omega, ⟨by omega, (moved i within).mpr first.here, ?_⟩, by omega, begins,
    Rule.bait_again first.here worded again⟩
  intro p after before here
  obtain ⟨q, rfl⟩ := Nat.exists_eq_add_of_le after
  exact first.first q (Nat.zero_le q) (by omega) ((moved q (by omega)).mp here)

theorem fire_bait (t : Tables) (worded : rule.Worded) (feeds : rule.Feeds) (fuel : Nat) :
    t.fire rule fuel 0 ⟨rule.bait, [], false⟩ = .error .running := by
  obtain ⟨i, first, again⟩ := feeds
  cases fuel with
  | zero => rfl
  | succ fuel =>
      obtain ⟨j, endless⟩ := Rule.bait_endless worded ⟨i, first, again⟩
      rw [t.fire_allowed worded.literal worded.filled fuel 0 rule.front.length ⟨rule.bait, [], false⟩ (Rule.bait_first worded)
        (Rule.bait_allowed again)]
      exact t.fire_endless worded.literal worded.filled fuel _ j ⟨_, _, true⟩ rfl endless

end

namespace Tables

variable (t : Tables)

theorem applyRule_shown {rule : Rule} {orig repl : Str} {ascii : Bool} (shown : t.toAscii ascii rule.repl = .ok repl)
    (n fuel : Nat) (k : Int) (s : Substituted) : t.applyRule n rule orig true ascii none fuel k s =
      t.applyRule n ⟨orig, repl, rule.mod⟩ orig true false none fuel k s := by
  induction fuel generalizing k s with
  | zero => rfl
  | succ fuel ih =>
      rw [applyRule, applyRule]
      simp only [ih, applyAt, Bool.true_or, if_true, shown]
      rfl

theorem subword_bait {rule : Rule} {orig repl : Str} {ascii : Bool} (single : t.rules = [rule])
    (shown : t.toAscii ascii rule.orig = .ok orig) (shown' : t.toAscii ascii rule.repl = .ok repl)
    (worded : Rule.Worded ⟨orig, repl, rule.mod⟩) (feeds : Rule.Feeds ⟨orig, repl, rule.mod⟩) (fuel : Nat) :
    t.subword fuel (Rule.bait ⟨orig, repl, rule.mod⟩) true ascii none = .error .running := by
  have fired := fire_bait t worded feeds fuel
  rw [fire, Nat.cast_zero, zero_add] at fired
  rw [subword, single, applyRules, shown, run_bind_ok, t.applyRule_shown shown', fired]
  rfl

end Tables

theorem Rule.not_feeds {rule : Rule} (filled : rule.orig ≠ []) (short : rule.repl.length < 2 * rule.orig.length) :
    ¬ rule.Feeds := by
  intro feeds
  obtain ⟨i, first, _⟩ := feeds
  have within := occurs_le first.here filled
  have positive := List.length_pos_iff.mpr filled
  rw [List.length_drop] at within
  omega

theorem subword_ends {entries : Set Rule} (worded : ∀ rule ∈ entries, rule.Worded)
    (settled : ∀ rule ∈ entries, ¬ rule.Feeds ∧ ∀ shown, rule.ascii = .ok shown → ¬ shown.Feeds) {t : Tables}
    (same : t.unicode = unicode) (among : ∀ rule ∈ t.rules, rule ∈ entries) (w : Str) (includedoubtful ascii : Bool)
    (prev : Option (Str × Positions)) : ∃ fuel, t.subword fuel w includedoubtful ascii prev ≠ .error .running := by
  have ends := @Tables.applyRules_ends t includedoubtful ascii prev t.rules ?_ 1 ⟨w, [], false⟩
  · obtain ⟨fuel, stops⟩ := ends
    exact ⟨fuel, bind_running stops fun s _ same => by cases same⟩
  · intro rule member orig shown
    have facts := settled rule (among rule member)
    have text := worded rule (among rule member)
    cases ascii with
    | false =>
        cases shown
        refine ⟨text.filled, text.literal, fun repl shown' => ?_⟩
        cases shown'
        exact facts.1
    | true =>
        rw [Tables.toAscii, if_pos rfl, same] at shown
        have changed := ascii_worded text.filled text.literal shown
        refine ⟨changed.1, changed.2, fun repl shown' => ?_⟩
        rw [Tables.toAscii, if_pos rfl, same] at shown'
        apply facts.2
        rw [Rule.ascii, shown, run_bind_ok, shown']
        rfl

/-- For which entries the substitution always ends: for those whose replacement does not hold the original again, beyond
its length, or does so where the modifiers forbid it, also when both are put in ASCII. -/
theorem subword_ends_iff (entries : Set Rule) (worded : ∀ rule ∈ entries, rule.Worded) :
    (∀ t : Tables, t.unicode = unicode → (∀ rule ∈ t.rules, rule ∈ entries) → ∀ w includedoubtful ascii prev,
      ∃ fuel, t.subword fuel w includedoubtful ascii prev ≠ .error .running) ↔
      ∀ rule ∈ entries, ¬ rule.Feeds ∧ ∀ shown, rule.ascii = .ok shown → ¬ shown.Feeds := by
  refine ⟨fun ends rule member => ?_, fun settled _ same among => subword_ends worded settled same among⟩
  have alone (w : Str) (ascii : Bool) := ends { Tables.empty with rules := [rule] } rfl (by simpa using member) w true ascii none
  constructor
  · intro feeds
    obtain ⟨fuel, stops⟩ := alone rule.bait false
    exact stops (Tables.subword_bait _ rfl rfl rfl (worded rule member) feeds fuel)
  · intro shown same feeds
    obtain ⟨orig, shownOrig, later⟩ := bind_eq_ok.mp same
    obtain ⟨repl, shownRepl, whole⟩ := bind_eq_ok.mp later
    cases whole
    have text := ascii_worded (worded rule member).filled (worded rule member).literal shownOrig
    obtain ⟨fuel, stops⟩ := alone (Rule.bait ⟨orig, repl, rule.mod⟩) true
    have shown (str : Str) : ({ Tables.empty with rules := [rule] } : Tables).toAscii true str =
      Utf8.replace str (field unicode.unicodeinvtbl) := rfl
    exact stops (Tables.subword_bait _ rfl ((shown _).trans shownOrig) ((shown _).trans shownRepl) ⟨text.1, text.2⟩ feeds fuel)

theorem subword_ends_finalO :
    ∃ fuel, ({ Tables.empty with rules := [finalO] } : Tables).subword fuel (lit "leo") true true none ≠ .error .running := by
  have settled : ∀ rule ∈ ({finalO} : Set Rule), ¬ rule.Feeds ∧ ∀ shown, rule.ascii = .ok shown → ¬ shown.Feeds := by
    intro rule member
    obtain rfl := member
    constructor
    · rintro ⟨i, ⟨_, here, _⟩, _⟩
      have within := occurs_le here (by decide)
      have one : finalO.orig.length = 1 ∧ (finalO.repl.drop finalO.orig.length).length = 1 := by decide
      obtain rfl : i = 0 := by omega
      exact absurd here (by decide)
    · intro shown same
      have orig : Utf8.replace finalO.orig (field unicode.unicodeinvtbl) = .ok (lit "o") := by decide
      have repl : Utf8.replace finalO.repl (field unicode.unicodeinvtbl) = .ok (lit "o") := by decide
      rw [Rule.ascii, orig, repl] at same
      cases same
      exact Rule.not_feeds (by decide) (by decide)
  have worded : ∀ rule ∈ ({finalO} : Set Rule), rule.Worded := by
    intro rule member
    obtain rfl := member
    exact ⟨finalO_plain.filled, finalO_plain.literal⟩
  exact (subword_ends_iff {finalO} worded).mpr settled { Tables.empty with rules := [finalO] } rfl
    (fun rule member => List.mem_singleton.mp member) (lit "leo") true true none

/-- The entry `a = ba`, in `baa`. -/
theorem subword_baa : ¬ ∀ (t : Tables) (w : Str) (includedoubtful ascii : Bool) (prev : Option (Str × Positions)),
    t.unicode = unicode → (∀ rule ∈ t.rules, rule.Worded) →
      ∃ fuel, t.subword fuel w includedoubtful ascii prev ≠ .error .running := by
  intro claim
  have worded : Rule.Worded ⟨lit "a", lit "ba", none⟩ := ⟨by decide, by decide⟩
  have feeds : Rule.Feeds ⟨lit "a", lit "ba", none⟩ := ⟨0, ⟨le_rfl, by decide, nofun⟩, by decide⟩
  obtain ⟨fuel, stops⟩ := claim { Tables.empty with rules := [⟨lit "a", lit "ba", none⟩] }
    (Rule.bait ⟨lit "a", lit "ba", none⟩) true false none rfl (by simpa using worded)
  exact stops (@Tables.subword_bait _ ⟨lit "a", lit "ba", none⟩ (lit "a") (lit "ba") false rfl rfl rfl worded feeds fuel)

end Maccer
