import Maccer.Lua.Matching

/-! Searches: the first match of a pattern, and of a plain word. -/

namespace Lua

structure FirstAt (word s : Str) (k i : Nat) : Prop where
  inside : k ≤ i
  here : word <+: s.drop i
  first : ∀ j, k ≤ j → j < i → ¬ word <+: s.drop j

theorem firstAt_or_none (word s : Str) (k : Nat) :
    (∃ i, FirstAt word s k i) ∨ ∀ i, k ≤ i → ¬ word <+: s.drop i := by
  by_cases some : ∃ i, k ≤ i ∧ word <+: s.drop i
  · refine .inl ⟨Nat.find some, (Nat.find_spec some).1, (Nat.find_spec some).2, fun j after less here => ?_⟩
    exact Nat.find_min some less ⟨after, here⟩
  · exact .inr fun i after here => some ⟨i, after, here⟩

theorem FirstAt.unique {word s : Str} {k i j : Nat} (first : FirstAt word s k i) (second : FirstAt word s k j) :
    i = j := by
  apply Nat.le_antisymm
  · exact Nat.le_of_not_lt fun less => first.first j second.inside less second.here
  · exact Nat.le_of_not_lt fun less => second.first i first.inside less first.here

section

variable {word s : Str}

theorem occurs_le {i : Nat} (here : word <+: s.drop i) (filled : word ≠ []) : i + word.length ≤ s.length := by
  have length := here.length_le
  have positive := List.length_pos_iff.mpr filled
  rw [List.length_drop] at length
  omega

theorem searchStart_succ (s : Str) (k : Nat) : searchStart s (k + 1) = min k s.length := by
  rw [searchStart, if_neg (by omega)]
  congr 1
  omega

theorem find_literal_none (plain : hasPattern word = false) (filled : word ≠ []) (k : Nat)
    (absent : ∀ i, k ≤ i → ¬ word <+: s.drop i) : find s word (k + 1) = .ok none := by
  rw [find, plain, if_neg Bool.false_ne_true, findPlain, searchStart_succ]
  congr 1
  rw [Option.map_eq_none_iff, Option.map_eq_none_iff, List.find?_eq_none]
  intro i member
  rw [List.isPrefixOf_iff_prefix]
  intro here
  have bound := occurs_le here filled
  have positive := List.length_pos_iff.mpr filled
  have range := List.mem_range'_1.mp member
  exact absent i (by omega) here

theorem find_literal_first (plain : hasPattern word = false) (filled : word ≠ []) {k i : Nat}
    (at' : FirstAt word s k i) : find s word (k + 1) = .ok (some (i + 1, i + word.length)) := by
  have bound := occurs_le at'.here filled
  have positive := List.length_pos_iff.mpr filled
  have inside := at'.inside
  have found : (List.range' k (s.length - k + 1)).find? (fun i => word.isPrefixOf (s.drop i)) = some i := by
    rw [List.find?_range'_eq_some]
    refine ⟨List.isPrefixOf_iff_prefix.mpr at'.here, ?_, fun j after less => ?_⟩
    · exact List.mem_range'_1.mpr (by omega)
    · rw [Bool.not_eq_true', ← Bool.not_eq_true, List.isPrefixOf_iff_prefix]
      exact at'.first j after less
  rw [find, plain, if_neg Bool.false_ne_true, findPlain, searchStart_succ, min_eq_left (by omega), found]
  simp

theorem find_byte (b : UInt8) (plain : hasPattern [b] = false) (s : Str) :
    ∃ found, find s [b] 1 = .ok found ∧ (found.isSome = true ↔ b ∈ s) := by
  cases firstAt_or_none [b] s 0 with
  | inl present =>
      obtain ⟨i, at'⟩ := present
      refine ⟨_, find_literal_first plain (List.cons_ne_nil b []) at', iff_of_true rfl ?_⟩
      exact List.mem_of_mem_drop (at'.here.subset (List.mem_singleton_self b))
  | inr absent =>
      refine ⟨none, find_literal_none plain (List.cons_ne_nil b []) 0 absent, iff_of_false Bool.false_ne_true ?_⟩
      intro member
      obtain ⟨before, after, rfl⟩ := List.append_of_mem member
      apply absent before.length (Nat.zero_le _)
      rw [List.drop_left]
      exact ⟨after, rfl⟩

/-! Patterns that are not anchored. -/

theorem findPattern_free {pattern : Str} (free : pattern.head? ≠ some 94) (i : Nat) :
    findPattern s pattern (i + 1) =
      searchFrom (matchAt s pattern) (s.length - min i s.length + 1) (min i s.length) := by
  unfold findPattern
  rw [searchStart_succ]
  split
  case h_1 => exact absurd rfl free
  case h_2 => rfl

theorem find_none {pattern : Str} (magic : hasPattern pattern = true) (free : pattern.head? ≠ some 94) {i : Nat}
    (inside : i ≤ s.length) (misses : ∀ j, i ≤ j → matchAt s pattern j = .ok none) :
    find s pattern (i + 1) = .ok none := by
  rw [find, if_pos magic, findPattern_free free, min_eq_left inside,
    searchFrom_none _ _ _ fun k _ => misses (i + k) (Nat.le_add_right i k)]
  rfl

theorem find_first {pattern : Str} (magic : hasPattern pattern = true) (free : pattern.head? ≠ some 94) {i j stop : Nat}
    {captures : List Capture} (after : i ≤ j) (inside : j ≤ s.length)
    (hit : matchAt s pattern j = .ok (some (stop, captures))) (closed : captures.any (·.extent = .unfinished) = false)
    (misses : ∀ k, i ≤ k → k < j → matchAt s pattern k = .ok none) :
    find s pattern (i + 1) = .ok (some (j + 1, stop)) := by
  have found := searchFrom_first (matchAt s pattern) (s.length - i + 1) i (j - i) (stop, captures) (by omega)
    (by rwa [Nat.add_sub_cancel' after]) fun k less => misses (i + k) (by omega) (by omega)
  rw [find, if_pos magic, findPattern_free free, min_eq_left (by omega), found, Nat.add_sub_cancel' after]
  simp only [run_bind_ok, closed]
  rfl

end

end Lua
