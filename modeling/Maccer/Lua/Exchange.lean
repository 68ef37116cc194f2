import Maccer.Lua.Matching

/-! `gsub` with a pattern that stands for one word, and a replacement without references. -/

namespace Lua

def exchange (word repl : Str) : Nat → Str → Str
  | _, [] => []
  | skip + 1, _ :: s => exchange word repl skip s
  | 0, b :: s =>
      if word <+: b :: s then repl ++ exchange word repl (word.length - 1) s
      else b :: exchange word repl 0 s

variable {word repl : Str}

theorem exchange_nil (skip : Nat) : exchange word repl skip [] = [] := by
  cases skip <;> rfl

theorem exchange_skip (skip : Nat) (s : Str) : exchange word repl skip s = exchange word repl 0 (s.drop skip) := by
  induction skip generalizing s with
  | zero => rfl
  | succ skip ih =>
      cases s with
      | nil => rw [List.drop_nil, exchange_nil, exchange_nil]
      | cons b s => exact ih s

theorem exchange_word (filled : word ≠ []) (rest : Str) :
    exchange word repl 0 (word ++ rest) = repl ++ exchange word repl 0 rest := by
  obtain ⟨b, tail, rfl⟩ := List.exists_cons_of_ne_nil filled
  have here : b :: tail <+: b :: (tail ++ rest) := List.prefix_append (b :: tail) rest
  rw [List.cons_append, exchange, if_pos here, exchange_skip, List.length_cons, Nat.add_sub_cancel, List.drop_left]

theorem exchange_front (front rest : Str) (absent : ∀ k < front.length, ¬ word <+: (front ++ rest).drop k) :
    exchange word repl 0 (front ++ rest) = front ++ exchange word repl 0 rest := by
  induction front with
  | nil => rfl
  | cons b front ih =>
      have later := ih fun k less => absent (k + 1) (by simpa using less)
      have here : ¬ word <+: b :: (front ++ rest) := absent 0 (by simp)
      rw [List.cons_append, exchange, if_neg here, later]
      rfl

theorem exchange_free {a : UInt8} {front : Str} (free : a ∉ front) (rest : Str) :
    exchange (a :: word) repl 0 (front ++ rest) = front ++ exchange (a :: word) repl 0 rest := by
  apply exchange_front
  intro k inside here
  rw [List.drop_append_of_le_length inside.le, List.drop_eq_getElem_cons inside] at here
  have same : a = front[k] := (List.cons_prefix_cons.mp here).1
  exact free (same ▸ List.getElem_mem inside)

theorem exchange_apart {b : UInt8} (absent : b ∉ word) (filled : word ≠ []) (s rest : Str) :
    exchange word repl 0 (s ++ b :: rest) = exchange word repl 0 s ++ b :: exchange word repl 0 rest := by
  induction hs : s.length using Nat.strong_induction_on generalizing s with
  | _ n ih =>
    subst hs
    by_cases here : word <+: s
    · obtain ⟨later, rfl⟩ := here
      have positive := List.length_pos_iff.mpr filled
      rw [List.append_assoc, exchange_word filled, exchange_word filled, List.append_assoc,
        ih later.length (by rw [List.length_append]; omega) later rfl]
    · cases s with
      | nil =>
          have other : ¬ word <+: b :: rest := fun starts => here (prefix_before word [] rest b absent starts)
          rw [exchange_nil, List.nil_append, List.nil_append, exchange, if_neg other]
      | cons c s =>
          have other : ¬ word <+: c :: (s ++ b :: rest) := fun starts => here (prefix_before word (c :: s) rest b absent starts)
          rw [List.cons_append, exchange, if_neg other, exchange, if_neg here, ih s.length (by simp) s rfl, List.cons_append]

theorem mem_exchange {b : UInt8} {skip : Nat} {s : Str} (inside : b ∈ exchange word repl skip s) : b ∈ s ∨ b ∈ repl := by
  induction s generalizing skip with
  | nil =>
      rw [exchange_nil] at inside
      cases inside
  | cons c s ih =>
      cases skip with
      | succ skip => exact (ih inside).imp_left (List.mem_cons_of_mem c)
      | zero =>
          rw [exchange] at inside
          split at inside
          case isTrue =>
            rcases List.mem_append.mp inside with new | old
            · exact .inr new
            · exact (ih old).imp_left (List.mem_cons_of_mem c)
          case isFalse =>
            rcases List.mem_cons.mp inside with rfl | old
            · exact .inl List.mem_cons_self
            · exact (ih old).imp_left (List.mem_cons_of_mem c)

theorem exchange_absent {s : Str} (absent : ¬ word <:+: s) : exchange word repl 0 s = s := by
  have whole := @exchange_front word repl s [] fun k _ here => by
    rw [List.append_nil] at here
    exact absent (here.isInfix.trans (List.drop_suffix k s).isInfix)
  rwa [List.append_nil, exchange_nil, List.append_nil] at whole

theorem exchange_shorter (shorter : repl.length < word.length) (s : Str) :
    (exchange word repl 0 s).length ≤ s.length ∧ (word <:+: s → (exchange word repl 0 s).length < s.length) := by
  have filled : word ≠ [] := by
    rintro rfl
    cases shorter
  induction hs : s.length using Nat.strong_induction_on generalizing s with
  | _ n ih =>
    subst hs
    by_cases here : word <+: s
    · obtain ⟨rest, rfl⟩ := here
      have positive := List.length_pos_iff.mpr filled
      have later := (ih rest.length (by rw [List.length_append]; omega) rest rfl).1
      rw [exchange_word filled, List.length_append, List.length_append]
      exact ⟨by omega, fun _ => by omega⟩
    · cases s with
      | nil => exact ⟨le_rfl, fun inside => absurd (List.eq_nil_of_infix_nil inside) filled⟩
      | cons b s =>
          have later := ih s.length (by simp) s rfl
          rw [exchange, if_neg here, List.length_cons, List.length_cons]
          refine ⟨by omega, fun inside => ?_⟩
          have behind := (List.infix_cons_iff.mp inside).resolve_left here
          have := later.2 behind
          omega

theorem exchange_same_iff (shorter : repl.length < word.length) (s : Str) :
    exchange word repl 0 s = s ↔ ¬ word <:+: s := by
  refine ⟨fun same inside => ?_, exchange_absent⟩
  have less := (exchange_shorter shorter s).2 inside
  rw [same] at less
  exact absurd less (lt_irrefl _)

/-! Two bytes side by side that the exchange has nothing to do with. -/

theorem pair_behind {a b : UInt8} {front : Str} (absent : a ∉ front) (rest : Str) :
    [a, b] <:+: front ++ rest ↔ [a, b] <:+: rest := by
  induction front with
  | nil => rfl
  | cons c front ih =>
      simp only [List.mem_cons, not_or] at absent
      rw [List.cons_append, List.infix_cons_iff, ih absent.2]
      refine or_iff_right fun here => ?_
      exact absent.1 (List.cons_prefix_cons.mp here).1

theorem exchange_head {b : UInt8} (notWord : word.head? ≠ some b) (notRepl : repl.head? ≠ some b)
    (filled : word ≠ []) (filled' : repl ≠ []) (s : Str) :
    (exchange word repl 0 s).head? = some b ↔ s.head? = some b := by
  cases s with
  | nil => rfl
  | cons c s =>
      rw [exchange]
      split
      case isTrue here =>
        obtain ⟨d, tail, rfl⟩ := List.exists_cons_of_ne_nil filled
        obtain ⟨d', tail', rfl⟩ := List.exists_cons_of_ne_nil filled'
        rw [← (List.cons_prefix_cons.mp here).1]
        exact iff_of_false notRepl notWord
      case isFalse => rfl

theorem exchange_pair {a b : UInt8} (absent : a ∉ word) (absent' : a ∉ repl) (notWord : word.head? ≠ some b)
    (notRepl : repl.head? ≠ some b) (filled : word ≠ []) (filled' : repl ≠ []) (s : Str) :
    [a, b] <:+: exchange word repl 0 s ↔ [a, b] <:+: s := by
  induction hs : s.length using Nat.strong_induction_on generalizing s with
  | _ n ih =>
    subst hs
    by_cases here : word <+: s
    · obtain ⟨rest, rfl⟩ := here
      have positive := List.length_pos_iff.mpr filled
      rw [exchange_word filled, pair_behind absent', pair_behind absent]
      exact ih rest.length (by rw [List.length_append]; omega) rest rfl
    · cases s with
      | nil => rfl
      | cons c s =>
          have pair (t : Str) : [a, b] <+: c :: t ↔ a = c ∧ t.head? = some b := by
            rw [List.cons_prefix_cons]
            cases t with
            | nil => simp
            | cons d t => simp [List.cons_prefix_cons, eq_comm (a := b)]
          rw [exchange, if_neg here, List.infix_cons_iff, List.infix_cons_iff, ih s.length (by simp) s rfl, pair, pair,
            exchange_head notWord notRepl filled filled']

/-! The loop of `gsub`. -/

theorem fillIn_plain (whole : Str) (groups : List Str) {front : Str} (plain : 37 ∉ front) (rest : Str) :
    fillIn whole groups (front ++ rest) = (fillIn whole groups rest).map (front ++ ·) := by
  induction front with
  | nil =>
      rw [List.nil_append]
      cases fillIn whole groups rest <;> rfl
  | cons b front ih =>
      simp only [List.mem_cons, not_or] at plain
      rw [List.cons_append, fillIn, ih plain.2]
      · cases fillIn whole groups rest <;> rfl
      · intro _ _ same
        exact absurd same.symm plain.1

def MeansWord (pattern word : Str) : Prop :=
  ∀ s i, matchAt s pattern i = if word <+: s.drop i then .ok (some (i + word.length, [])) else .ok none

theorem gsubFrom_exchange {pattern : Str} (means : MeansWord pattern word) (filled : word ≠ []) (plain : 37 ∉ repl)
    (s : Str) (fuel count i : Nat) (enough : s.length - i < fuel) (some : s.length - i < count) :
    gsubFrom s pattern repl fuel count i = .ok (exchange word repl 0 (s.drop i)) := by
  have positive := List.length_pos_iff.mpr filled
  induction fuel generalizing count i with
  | zero => omega
  | succ fuel ih =>
      rw [gsubFrom, if_neg (by omega), means]
      by_cases here : word <+: s.drop i
      · have bound := here.length_le
        rw [List.length_drop] at bound
        obtain ⟨rest, joined⟩ := here
        have filledIn (whole : Str) (groups : List Str) : fillIn whole groups repl = .ok repl := by
          have all := fillIn_plain whole groups plain []
          rw [List.append_nil] at all
          rw [all]
          simp [fillIn, Except.map]
        have behind : s.drop (i + word.length) = rest := by
          rw [← List.drop_drop, ← joined, List.drop_left]
        rw [if_pos ⟨rest, joined⟩]
        simp only [filledIn, run_bind_ok]
        rw [if_pos (by omega), ih (count - 1) (i + word.length) (by omega) (by omega), ← joined,
          exchange_word filled, behind]
        rfl
      · rw [if_neg here]
        by_cases inside : i < s.length
        · simp only []
          rw [if_pos inside, ih count (i + 1) (by omega) (by omega)]
          rw [List.drop_eq_getElem_cons inside] at here ⊢
          rw [exchange, if_neg here]
          rfl
        · simp only []
          rw [if_neg inside, List.drop_of_length_le (by omega), exchange_nil]

theorem gsubAll_exchange {pattern : Str} (means : MeansWord pattern word) (filled : word ≠ []) (plain : 37 ∉ repl)
    (s : Str) : gsubAll s pattern repl = .ok (exchange word repl 0 s) := by
  have all := gsubFrom_exchange means filled plain s (s.length + 2) (s.length + 1) 0 (by omega) (by omega)
  rwa [List.drop_zero] at all

end Lua
