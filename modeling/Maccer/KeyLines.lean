import Maccer.Lines

/-! The patterns that `macra.loadkey` reads its file with. -/

namespace Maccer

open Lua

theorem lmatch_of_first (s pattern : Str) (skip stop : Nat) (captures : List Capture)
    (anchored : pattern.head? ≠ some 94) (inside : skip ≤ s.length)
    (hit : matchAt s pattern skip = .ok (some (stop, captures)))
    (misses : ∀ k < skip, matchAt s pattern k = .ok none) :
    lmatch s pattern = .ok (some (captured s skip stop captures)) := by
  have start : searchStart s 1 = 0 := by simp [searchStart]
  have found := searchFrom_first (matchAt s pattern) (s.length + 1) 0 skip (stop, captures)
    (by omega) (by simpa using hit) (by simpa using misses)
  have searched : findPattern s pattern 1 = searchFrom (matchAt s pattern) (s.length + 1) 0 := by
    unfold findPattern
    rw [start]
    split
    · exact absurd rfl anchored
    · rfl
  rw [lmatch, searched, found, Nat.zero_add]
  rfl

theorem lmatch_source (letter header : Str) (plain : 61 ∉ letter) (some : letter ≠ [])
    (text : header ≠ []) :
    lmatch (letter ++ lit " = " ++ header) (lit "([^=]+) = (.+)") =
      .ok (.some [letter, header]) := by
  have shape : lit "([^=]+) = (.+)" =
      40 :: 91 :: [94, 61, 93, 43, 41, 32, 61, 32, 40, 46, 43, 41] := by decide
  have equals : lit " = " = [32, 61, 32] := by decide
  have single (b : UInt8) : singleMatch b (91 :: [94, 61, 93, 43, 41, 32, 61, 32, 40, 46, 43, 41])
      [43, 41, 32, 61, 32, 40, 46, 43, 41] = decide (b ≠ 61) :=
    single_except b 61 _
  rw [equals]
  generalize whole : letter ++ [32, 61, 32] ++ header = s
  have length : s.length = letter.length + 3 + header.length := by simp [← whole]; omega
  have positive := List.length_pos_iff.mpr some
  have positive' := List.length_pos_iff.mpr text
  have next (j : Nat) : matchHere s 13 [41, 32, 61, 32, 40, 46, 43, 41] j ([] ++ [⟨0, .unfinished⟩]) =
      if [32, 61, 32] <+: s.drop j then
        matchHere s 9 [40, 46, 43, 41] (j + 3) [⟨0, .closed j⟩]
      else .ok none := by
    rw [matchHere_close]
    exact matchHere_literals s 9 j _ [32, 61, 32] _ (by decide +kernel) rfl
  have front : s.drop letter.length = 32 :: 61 :: 32 :: header := by
    rw [← whole, List.append_assoc, List.drop_left]
    rfl
  have later : s.drop (letter.length + 1) = 61 :: 32 :: header := by
    rw [← List.drop_drop, front]
    rfl
  have run : repeated s 1 (fun b => decide (b ≠ 61)) = letter.length := by
    obtain ⟨c, tail, rfl⟩ := List.exists_cons_of_ne_nil some
    have inside : ∀ b ∈ tail ++ [32], decide (b ≠ 61) = true := by
      intro b member
      rcases List.mem_append.mp member with old | space
      · simpa using fun same : b = 61 => plain (by simp [← same, old])
      · simp [List.mem_singleton.mp space]
    have rest : s.drop 1 = (tail ++ [32]) ++ 61 :: 32 :: header := by simp [← whole]
    rw [repeated, rest, List.takeWhile_append_of_pos inside]
    simp
  have expanded := maxExpand_longest
    (fun j => matchHere s 13 [41, 32, 61, 32, 40, 46, 43, 41] j ([] ++ [⟨0, .unfinished⟩])) 1
    letter.length (letter.length - 1)
    (.some (s.length, [⟨0, .closed letter.length⟩,
      ⟨letter.length + 3, .closed (s.length - (letter.length + 3))⟩])) (by omega)
    (by
      rw [show 1 + (letter.length - 1) = letter.length by omega, next, if_pos ⟨header, front.symm⟩,
        matchHere_rest s 5, if_pos (by omega)]
      rfl) (by simp)
    (by
      intro k above bound
      rw [show 1 + k = letter.length + 1 by omega, next, later, if_neg (by simp)])
  have first : (s[0]?).any (fun b => decide (b ≠ 61)) = true := by
    obtain ⟨c, tail, rfl⟩ := List.exists_cons_of_ne_nil some
    have other : c ≠ 61 := fun same => plain (by simp [same])
    simp [← whole, other]
  have matched : matchAt s (lit "([^=]+) = (.+)") 0 = .ok (.some (s.length,
      [⟨0, .closed letter.length⟩, ⟨letter.length + 3, .closed (s.length - (letter.length + 3))⟩])) := by
    have step := matchHere_plus s 13 0 ([] ++ [⟨0, .unfinished⟩]) (fun b => decide (b ≠ 61)) 91 _ _
      (by decide) (by decide) single
    rw [if_pos first, Nat.zero_add, run] at step
    rw [matchAt, shape, matchHere_open _ _ _ _ _ (by decide)]
    exact step.trans expanded
  rw [lmatch_of_first s _ 0 _ _ (by decide) (by omega) matched (by simp)]
  have text' : s.drop (letter.length + 3) = header := by
    rw [← List.drop_drop, front]
    rfl
  have size : s.length - (letter.length + 3) = header.length := by omega
  simp only [captured, List.map_cons, List.map_nil, List.drop_zero, text', size, List.take_length]
  rw [← whole, List.append_assoc, List.take_left]
  rfl

theorem lmatch_word (w rest : Str) (some : w ≠ []) (plain : 9 ∉ w)
    (ends : rest.head? = none ∨ rest.head? = .some 9) :
    lmatch (w ++ rest) (lit "[^\t]+") = .ok (.some [w]) := by
  have shape : lit "[^\t]+" = 91 :: [94, 9, 93, 43] := by decide
  have found := findPattern_run (w ++ rest) (fun b => decide (b ≠ 9)) 91 [94, 9, 93, 43] 1 (by decide)
    (by decide) (by decide) fun b => single_except b 9 [43]
  have inside : ∀ b ∈ w, decide (b ≠ 9) = true := by
    intro b member
    simpa using fun same : b = 9 => plain (same ▸ member)
  have run : runFrom (fun b => decide (b ≠ 9)) (w ++ rest) 0 = .some (0, w.length) := by
    have gap : (w ++ rest).takeWhile (fun b => !decide (b ≠ 9)) = [] := by
      obtain ⟨c, tail, rfl⟩ := List.exists_cons_of_ne_nil some
      have first := inside c (by simp)
      simp only [List.cons_append, List.takeWhile_cons, first]
      rfl
    have whole : (w ++ rest).takeWhile (fun b => decide (b ≠ 9)) = w := by
      rw [List.takeWhile_append_of_pos inside]
      cases rest with
      | nil => simp
      | cons c rest =>
          have tab : c = 9 := by simpa using ends
          simp [tab]
    have positive := List.length_pos_iff.mpr some
    simp only [runFrom, List.drop_zero, gap, List.length_nil, Nat.add_zero, whole]
    rw [if_neg (by omega), Nat.zero_add]
  have start : searchStart (w ++ rest) 1 = 0 := by simp [searchStart]
  rw [start, run] at found
  rw [lmatch, shape, found]
  simp [Except.map, captured]

theorem lmatch_columns (w freqstr headersstr : Str) (noTab : 9 ∉ w) (noTab' : 9 ∉ freqstr)
    (some : freqstr ≠ []) (some' : headersstr ≠ []) :
    lmatch (w ++ 9 :: freqstr ++ 9 :: headersstr) (lit "\t([^\t]+)\t(.+)") =
      .ok (.some [freqstr, headersstr]) := by
  have shape : lit "\t([^\t]+)\t(.+)" = 9 :: 40 :: 91 :: [94, 9, 93, 43, 41, 9, 40, 46, 43, 41] := by
    decide
  have single (b : UInt8) : singleMatch b (91 :: [94, 9, 93, 43, 41, 9, 40, 46, 43, 41])
      [43, 41, 9, 40, 46, 43, 41] = decide (b ≠ 9) :=
    single_except b 9 _
  generalize whole : w ++ 9 :: freqstr ++ 9 :: headersstr = s
  have length : s.length = w.length + freqstr.length + headersstr.length + 2 := by
    simp [← whole]
    omega
  have positive := List.length_pos_iff.mpr some
  have positive' := List.length_pos_iff.mpr some'
  have front : s.drop w.length = 9 :: (freqstr ++ 9 :: headersstr) := by
    rw [← whole, List.append_assoc, List.drop_left]
    rfl
  have column : s.drop (w.length + 1) = freqstr ++ 9 :: headersstr := by
    rw [← List.drop_drop, front]
    rfl
  have back : s.drop (w.length + 1 + freqstr.length) = 9 :: headersstr := by
    rw [← List.drop_drop, column, List.drop_left]
  have next (j : Nat) : matchHere s 11 [41, 9, 40, 46, 43, 41] j
      ([] ++ [⟨w.length + 1, .unfinished⟩]) =
      if [9] <+: s.drop j then
        matchHere s 9 [40, 46, 43, 41] (j + 1) [⟨w.length + 1, .closed (j - (w.length + 1))⟩]
      else .ok none := by
    rw [matchHere_close]
    exact matchHere_literals s 9 j _ [9] _ (by decide +kernel) rfl
  have run : repeated s (w.length + 1 + 1) (fun b => decide (b ≠ 9)) = freqstr.length - 1 := by
    obtain ⟨c, tail, rfl⟩ := List.exists_cons_of_ne_nil some
    have inside : ∀ b ∈ tail, decide (b ≠ 9) = true := by
      intro b member
      simpa using fun same : b = 9 => noTab' (by simp [← same, member])
    have rest : s.drop (w.length + 1 + 1) = tail ++ 9 :: headersstr := by
      rw [← List.drop_drop, column]
      rfl
    rw [repeated, rest, List.takeWhile_append_of_pos inside]
    simp
  have expanded := maxExpand_longest
    (fun j => matchHere s 11 [41, 9, 40, 46, 43, 41] j ([] ++ [⟨w.length + 1, .unfinished⟩]))
    (w.length + 1 + 1) (freqstr.length - 1) (freqstr.length - 1)
    (.some (s.length, [⟨w.length + 1, .closed freqstr.length⟩,
      ⟨w.length + 1 + freqstr.length + 1, .closed headersstr.length⟩])) le_rfl
    (by
      rw [show w.length + 1 + 1 + (freqstr.length - 1) = w.length + 1 + freqstr.length by omega,
        next, if_pos ⟨headersstr, back.symm⟩, matchHere_rest s 5, if_pos (by omega),
        show w.length + 1 + freqstr.length - (w.length + 1) = freqstr.length by omega,
        show s.length - (w.length + 1 + freqstr.length + 1) = headersstr.length by omega]
      rfl) (by simp) fun k above bound => by omega
  have tab : s[w.length]? = .some 9 := by rw [← List.head?_drop, front]; rfl
  have first : (s[w.length + 1]?).any (fun b => decide (b ≠ 9)) = true := by
    obtain ⟨c, tail, rfl⟩ := List.exists_cons_of_ne_nil some
    have other : c ≠ 9 := fun same => noTab' (by simp [same])
    rw [← List.head?_drop, column]
    simp [other]
  have starts (k : Nat) : matchAt s (lit "\t([^\t]+)\t(.+)") k =
      if s[k]? = .some 9 then matchHere s 13 (40 :: 91 :: [94, 9, 93, 43, 41, 9, 40, 46, 43, 41])
        (k + 1) [] else .ok none := by
    rw [matchAt, shape]
    exact matchHere_literal s 13 k [] 9 _ (by decide) (by rfl)
  have matched : matchAt s (lit "\t([^\t]+)\t(.+)") w.length = .ok (.some (s.length,
      [⟨w.length + 1, .closed freqstr.length⟩,
        ⟨w.length + 1 + freqstr.length + 1, .closed headersstr.length⟩])) := by
    have step := matchHere_plus s 11 (w.length + 1) ([] ++ [⟨w.length + 1, .unfinished⟩])
      (fun b => decide (b ≠ 9)) 91 _ _ (by decide) (by decide) single
    rw [if_pos first, run] at step
    rw [starts, if_pos tab, matchHere_open _ _ _ _ _ (by decide)]
    exact step.trans expanded
  have misses : ∀ k < w.length, matchAt s (lit "\t([^\t]+)\t(.+)") k = .ok none := by
    intro k less
    rw [starts, if_neg]
    intro here
    rw [← whole, List.append_assoc, List.getElem?_append_left less] at here
    exact noTab (List.mem_of_getElem? here)
  rw [lmatch_of_first s _ w.length _ _ (by decide) (by omega) matched misses]
  have last : s.drop (w.length + 1 + freqstr.length + 1) = headersstr := by
    rw [← List.drop_drop, back]
    rfl
  simp only [captured, List.map_cons, List.map_nil, column, last, List.take_left, List.take_length]
  rfl

theorem divider_plain : ∀ c ∈ DIVIDER, isMagic c = false ∧ isMark (.some c) = false := by
  decide +kernel

theorem lmatch_before (front back : Str) (some : front ≠ [])
    (last : ∀ k, front.length < k → ¬ DIVIDER <+: (front ++ DIVIDER ++ back).drop k) :
    lmatch (front ++ DIVIDER ++ back) (lit "(.+)" ++ DIVIDER) = .ok (.some [front]) := by
  have shape : lit "(.+)" ++ DIVIDER = 40 :: 46 :: 43 :: 41 :: (DIVIDER ++ []) := by decide
  have five : DIVIDER.length = 5 := by decide
  generalize whole : front ++ DIVIDER ++ back = s at last ⊢
  have length : s.length = front.length + 5 + back.length := by
    rw [← whole, List.length_append, List.length_append, five]
  have positive := List.length_pos_iff.mpr some
  have mark : DIVIDER <+: s.drop front.length :=
    ⟨back, by rw [← whole, List.append_assoc, List.drop_left]⟩
  have next (j : Nat) : matchHere s 8 (41 :: (DIVIDER ++ [])) j ([] ++ [⟨0, .unfinished⟩]) =
      if DIVIDER <+: s.drop j then .ok (.some (j + 5, [⟨0, .closed j⟩])) else .ok none := by
    have closed := matchHere_literals s 2 j [⟨0, .closed j⟩] DIVIDER [] divider_plain (by decide)
    rw [matchHere_close]
    exact closed.trans (by rw [matchHere_nil, five])
  have expanded := maxExpand_longest
    (fun j => matchHere s 8 (41 :: (DIVIDER ++ [])) j ([] ++ [⟨0, .unfinished⟩])) 1 (s.length - 1)
    (front.length - 1) (.some (front.length + 5, [⟨0, .closed front.length⟩])) (by omega)
    (by rw [show 1 + (front.length - 1) = front.length by omega, next, if_pos mark]) (by simp)
    fun k above bound => by rw [next, if_neg (last _ (by omega))]
  have matched : matchAt s (lit "(.+)" ++ DIVIDER) 0 =
      .ok (.some (front.length + 5, [⟨0, .closed front.length⟩])) := by
    have step := matchHere_plus s 8 0 ([] ++ [⟨0, .unfinished⟩]) (fun _ => true) 46
      (43 :: 41 :: (DIVIDER ++ [])) _ (by decide) rfl fun b => by simp [singleMatch]
    have first : (s[0]?).any (fun _ => true) = true := by
      simp [List.getElem?_eq_getElem (by omega : 0 < s.length)]
    rw [if_pos first, Nat.zero_add, repeated_all] at step
    rw [matchAt, shape, matchHere_open _ _ _ _ _ (by simp)]
    exact step.trans expanded
  rw [lmatch_of_first s _ 0 _ _ (by decide) (by omega) matched (by simp)]
  simp only [captured, List.map_cons, List.map_nil, List.drop_zero]
  rw [← whole, List.append_assoc, List.take_left]
  rfl

theorem lmatch_after (front back : Str) (some : back ≠ [])
    (first : ∀ k < front.length, ¬ DIVIDER <+: (front ++ DIVIDER ++ back).drop k) :
    lmatch (front ++ DIVIDER ++ back) (DIVIDER ++ lit "(.+)") = .ok (.some [back]) := by
  have shape : DIVIDER ++ lit "(.+)" = DIVIDER ++ [40, 46, 43, 41] := by decide
  have five : DIVIDER.length = 5 := by decide
  generalize whole : front ++ DIVIDER ++ back = s at first ⊢
  have length : s.length = front.length + 5 + back.length := by
    rw [← whole, List.length_append, List.length_append, five]
  have positive := List.length_pos_iff.mpr some
  have mark : s.drop front.length = DIVIDER ++ back := by
    rw [← whole, List.append_assoc, List.drop_left]
  have step (k : Nat) : matchAt s (DIVIDER ++ lit "(.+)") k =
      if DIVIDER <+: s.drop k then matchHere s 5 [40, 46, 43, 41] (k + 5) [] else .ok none := by
    rw [matchAt, shape]
    exact matchHere_literals s 5 k [] DIVIDER _ divider_plain (by decide)
  have matched : matchAt s (DIVIDER ++ lit "(.+)") front.length =
      .ok (.some (s.length, [⟨front.length + 5, .closed back.length⟩])) := by
    rw [step, if_pos ⟨back, mark.symm⟩, matchHere_rest s 1, if_pos (by omega),
      show s.length - (front.length + 5) = back.length by omega]
    rfl
  rw [lmatch_of_first s _ front.length _ _ (by decide) (by omega) matched
    fun k less => by rw [step, if_neg (first k less)]]
  have after : s.drop (front.length + 5) = back := by
    rw [← List.drop_drop, mark, ← five, List.drop_left]
  simp [captured, after]

end Maccer
