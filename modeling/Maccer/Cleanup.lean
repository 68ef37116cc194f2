import Maccer.Letters
import Maccer.Lines

/-! The normal form of `macra.cleanup`: what it makes of the lines of any string. -/

namespace Maccer

open Lua

/-! Steps on lines with newlines between them. -/

theorem intercalate_lines (line next : Str) (lines : List Str) :
    [10].intercalate (line :: next :: lines) = line ++ 10 :: [10].intercalate (next :: lines) := by
  rw [List.intercalate_cons_cons, List.append_assoc, List.singleton_append]

theorem intercalate_map {change : Str → Str} (newline : ∀ line rest, 10 ∉ line →
      change (line ++ 10 :: rest) = change line ++ 10 :: change rest) (empty : change [] = [])
    (lines : List Str) (flat : ∀ line ∈ lines, 10 ∉ line) :
    change ([10].intercalate lines) = [10].intercalate (lines.map change) := by
  induction lines with
  | nil => exact empty
  | cons line lines ih =>
      cases lines with
      | nil => simp
      | cons next lines =>
          have later := ih fun l member => flat l (by simp [member])
          rw [intercalate_lines, newline line _ (flat line (by simp)), later]
          exact (intercalate_lines _ _ _).symm

theorem collapse_between {char : UInt8} (apart : char ≠ 10) (line rest : Str) :
    collapse char (line ++ 10 :: rest) = collapse char line ++ 10 :: collapse char rest := by
  induction line with
  | nil => exact if_neg fun both => apart both.1.symm
  | cons b line ih =>
      have next : (line ++ 10 :: rest).head? = some char ↔ line.head? = some char := by
        cases line with
        | nil => simpa using apart.symm
        | cons c line => rfl
      have cut (t : Str) :
          collapse char (b :: t) = if b = char ∧ t.head? = some char then collapse char t else b :: collapse char t := rfl
      rw [List.cons_append, cut, cut, ih]
      simp only [next]
      split <;> rfl

def cutFirst (line : Str) : Str := if line.head? = some 9 then line.tail else line

def cutLast (line : Str) : Str := if line.getLast? = some 9 then line.dropLast else line

theorem replacePair_other {a b c : UInt8} (new s : Str) (other : c ≠ a) :
    replacePair a b new (c :: s) = c :: replacePair a b new s := by
  cases s with
  | nil => rfl
  | cons d s => rw [replacePair, if_neg fun both => other both.1]

theorem replacePair_flat (line rest : Str) (flat : 10 ∉ line) :
    replacePair 10 9 [10] (line ++ rest) = line ++ replacePair 10 9 [10] rest := by
  induction line with
  | nil => rfl
  | cons b line ih =>
      simp only [List.mem_cons, not_or] at flat
      rw [List.cons_append, replacePair_other _ _ (Ne.symm flat.1), ih flat.2]
      rfl

theorem replacePair_afterNewline (lines : List Str) (line : Str) :
    replacePair 10 9 [10] (10 :: [10].intercalate (line :: lines)) =
      10 :: replacePair 10 9 [10] ([10].intercalate (cutFirst line :: lines)) := by
  cases line with
  | nil =>
      cases lines with
      | nil => rfl
      | cons next lines =>
          rw [cutFirst, if_neg (by simp), intercalate_lines, List.nil_append, replacePair, if_neg (by decide)]
  | cons b line =>
      have front : [10].intercalate ((b :: line) :: lines) = b :: [10].intercalate (line :: lines) := by
        cases lines with
        | nil => simp
        | cons next lines => rw [intercalate_lines, intercalate_lines, List.cons_append]
      by_cases tab : b = 9
      · rw [front, replacePair, if_pos ⟨rfl, tab⟩, cutFirst, if_pos (by simp [tab])]
        rfl
      · rw [cutFirst, if_neg (by simp [tab]), front, replacePair, if_neg fun both => tab both.2]

/-- `str:gsub("\n\t", "\n")` takes one tab from the start of each line but the first. -/
theorem replacePair_starts (lines : List Str) (line : Str) (flat : ∀ l ∈ line :: lines, 10 ∉ l) :
    replacePair 10 9 [10] ([10].intercalate (line :: lines)) = [10].intercalate (line :: lines.map cutFirst) := by
  induction lines generalizing line with
  | nil =>
      have none : 10 ∉ line := flat line (by simp)
      simpa using replacePair_without 10 9 [10] line (without_of_not_mem none)
  | cons next lines ih =>
      have cut : 10 ∉ cutFirst next := by
        have here : 10 ∉ next := flat next (by simp)
        rw [cutFirst]
        split
        · exact fun member => here (List.mem_of_mem_tail member)
        · exact here
      rw [intercalate_lines, replacePair_flat _ _ (flat line (by simp)), replacePair_afterNewline, ih (cutFirst next) (by
          intro l member
          cases List.mem_cons.mp member with
          | inl same => rw [same]; exact cut
          | inr later => exact flat l (by simp [later])),
        List.map_cons, intercalate_lines]

theorem replacePair_line (line rest : Str) (flat : 10 ∉ line) :
    replacePair 9 10 [10] (line ++ 10 :: rest) = cutLast line ++ 10 :: replacePair 9 10 [10] rest := by
  induction line with
  | nil => exact replacePair_other _ _ (by decide)
  | cons b line ih =>
      simp only [List.mem_cons, not_or] at flat
      cases line with
      | nil =>
          by_cases tab : b = 9
          · rw [tab, List.singleton_append, replacePair, if_pos ⟨rfl, rfl⟩]
            rfl
          · have kept : cutLast [b] = [b] := by rw [cutLast, if_neg (by simpa using tab)]
            rw [kept, List.singleton_append, replacePair_other _ _ tab, replacePair_other _ _ (by decide)]
            rfl
      | cons c line =>
          have inner : cutLast (b :: c :: line) = b :: cutLast (c :: line) := by
            rw [cutLast, cutLast, List.getLast?_cons_cons, List.dropLast_cons_cons]
            split <;> rfl
          have newline : c ≠ 10 := fun same => flat.2 (by simp [same])
          rw [inner, List.cons_append, List.cons_append, replacePair, if_neg fun both => newline both.2,
            ← List.cons_append,
            ih flat.2]
          rfl

def cutEnds : List Str → List Str
  | [] => []
  | [line] => [line]
  | line :: next :: lines => cutLast line :: cutEnds (next :: lines)

/-- `str:gsub("\t\n", "\n")` takes one tab from the end of each line but the last. -/
theorem replacePair_ends (lines : List Str) (flat : ∀ line ∈ lines, 10 ∉ line) :
    replacePair 9 10 [10] ([10].intercalate lines) = [10].intercalate (cutEnds lines) := by
  induction lines with
  | nil => rfl
  | cons line lines ih =>
      cases lines with
      | nil =>
          have none : 10 ∉ line := flat line (by simp)
          simpa [cutEnds] using replacePair_without 9 10 [10] line (without_of_not_mem_right none)
      | cons next lines =>
          have later := ih fun l member => flat l (by simp [member])
          rw [intercalate_lines, replacePair_line line _ (flat line (by simp)), later, cutEnds]
          cases ends : cutEnds (next :: lines) with
          | nil => cases lines <;> cases ends
          | cons first rest => rw [intercalate_lines]

/-! The whole of `macra.cleanup`. -/

theorem collapse_concat (s : Str) :
    collapse 10 (s ++ [10]) = collapse 10 s ∨ collapse 10 (s ++ [10]) = collapse 10 s ++ [10] := by
  have cut (b : UInt8) (t : Str) :
      collapse 10 (b :: t) = if b = 10 ∧ t.head? = some 10 then collapse 10 t else b :: collapse 10 t := rfl
  induction s with
  | nil => exact .inr rfl
  | cons b s ih =>
      cases s with
      | nil =>
          by_cases newline : b = 10
          · rw [newline]
            exact .inl rfl
          · apply Or.inr
            rw [List.singleton_append, cut b [10], if_neg fun both => newline both.1, cut b [],
              if_neg fun both => newline both.1]
            rfl
      | cons c s =>
          rw [List.cons_append, cut, cut b (c :: s), List.cons_append, List.head?_cons, List.head?_cons]
          rw [List.cons_append] at ih
          split
          · exact ih
          · exact ih.imp (congrArg (b :: ·)) fun longer => by rw [longer]; rfl

theorem trimNewlines_concat (s : Str) : trimNewlines (s ++ [10]) = trimNewlines s := by
  rw [trimNewlines, trimNewlines, List.dropWhile_append]
  split
  case isTrue empty =>
    rw [List.isEmpty_iff.mp empty]
    rfl
  case isFalse => exact List.rdropWhile_concat_pos _ _ _ rfl

theorem trimNewlines_lines (lines : List Str) (flat : ∀ line ∈ lines, 10 ∉ line) :
    trimNewlines (cutmultiple ([10].intercalate lines) 10) = [10].intercalate (lines.filter (· ≠ [])) := by
  cases lines with
  | nil => rfl
  | cons line lines =>
      have ended : trimNewlines (collapse 10 ([10].intercalate (line :: lines))) =
          trimNewlines (collapse 10 (unlines (line :: lines))) := by
        rw [unlines_eq_intercalate _ (List.cons_ne_nil _ _)]
        cases collapse_concat ([10].intercalate (line :: lines)) with
        | inl same => rw [same]
        | inr longer => rw [longer, trimNewlines_concat]
      generalize line :: lines = lines at flat ended
      have kept : ∀ line ∈ lines.filter (· ≠ []), 10 ∉ line :=
        fun line member => flat line (List.mem_of_mem_filter member)
      have filled : ∀ line ∈ lines.filter (· ≠ []), line ≠ [] :=
        fun line member => by simpa using (List.mem_filter.mp member).2
      have front : (collapse 10 (unlines lines)).dropWhile (· == 10) = unlines (lines.filter (· ≠ [])) := by
        rw [← dropWhile_collapse, collapse_unlines lines flat, List.dropWhile_cons_of_pos (by rfl),
          dropWhile_unlines _ kept filled]
      rw [cutmultiple_eq, ended, trimNewlines, front]
      by_cases some : lines.filter (· ≠ []) = []
      · rw [some]
        rfl
      · exact rdropWhile_unlines _ kept filled some

/-- The lines without the tabs that touch a newline, as far as `macra.cleanup` takes them off. -/
def untabbed : List Str → List Str
  | [] => []
  | line :: lines => cutEnds (line :: lines.map cutFirst)

def spaces (keepspaces : Bool) (line : Str) : Str := if keepspaces then collapse 32 line else line.filter (· ≠ 32)

def blanks (line : Str) : Str := line.map fun b => if b = 9 then 32 else b

def cleanLines (keeptabs keepspaces : Bool) (lines : List Str) : List Str :=
  if keeptabs then (untabbed lines).map fun line => spaces keepspaces (collapse 9 line)
  else lines.map fun line => spaces keepspaces (blanks line)

theorem flat_cutFirst {line : Str} (flat : 10 ∉ line) : 10 ∉ cutFirst line := by
  rw [cutFirst]
  split
  · exact fun member => flat (List.mem_of_mem_tail member)
  · exact flat

theorem flat_cutLast {line : Str} (flat : 10 ∉ line) : 10 ∉ cutLast line := by
  rw [cutLast]
  split
  · exact fun member => flat (List.mem_of_mem_dropLast member)
  · exact flat

theorem flat_cutEnds (lines : List Str) (flat : ∀ line ∈ lines, 10 ∉ line) : ∀ line ∈ cutEnds lines, 10 ∉ line := by
  induction lines using cutEnds.induct with
  | case1 => exact flat
  | case2 line => exact flat
  | case3 line next lines ih =>
      intro l member
      cases List.mem_cons.mp member with
      | inl same => rw [same]; exact flat_cutLast (flat line (by simp))
      | inr later => exact ih (fun l member => flat l (by simp [List.mem_cons.mp member])) l later

theorem flat_starts {lines : List Str} {line : Str} (flat : ∀ l ∈ line :: lines, 10 ∉ l) :
    ∀ l ∈ line :: lines.map cutFirst, 10 ∉ l := by
  intro l member
  cases List.mem_cons.mp member with
  | inl same => rw [same]; exact flat line (by simp)
  | inr later =>
      obtain ⟨l', present, rfl⟩ := List.mem_map.mp later
      exact flat_cutFirst (flat l' (by simp [present]))

theorem flat_untabbed (lines : List Str) (flat : ∀ line ∈ lines, 10 ∉ line) : ∀ line ∈ untabbed lines, 10 ∉ line := by
  cases lines with
  | nil => exact flat
  | cons line lines => exact flat_cutEnds _ (flat_starts flat)

theorem mem_collapse {char b : UInt8} {s : Str} (member : b ∈ collapse char s) : b ∈ s := by
  induction s with
  | nil => exact member
  | cons a s ih =>
      rw [collapse] at member
      split at member
      · exact List.mem_cons_of_mem _ (ih member)
      · exact List.mem_cons.mpr ((List.mem_cons.mp member).imp_right ih)

theorem flat_blanks {line : Str} (flat : 10 ∉ line) : 10 ∉ blanks line := by
  intro newline
  obtain ⟨b, inside, image⟩ := List.mem_map.mp newline
  split at image
  · cases image
  · exact flat (image ▸ inside)

theorem flat_spaces {keepspaces : Bool} {line : Str} (flat : 10 ∉ line) : 10 ∉ spaces keepspaces line := by
  rw [spaces]
  split
  · exact fun member => flat (mem_collapse member)
  · exact fun member => flat (List.mem_of_mem_filter member)

theorem flat_map {change : Str → Str} (kept : ∀ line, 10 ∉ line → 10 ∉ change line) (lines : List Str)
    (flat : ∀ line ∈ lines, 10 ∉ line) : ∀ line ∈ lines.map change, 10 ∉ line := by
  intro line member
  obtain ⟨l, present, rfl⟩ := List.mem_map.mp member
  exact kept l (flat l present)

theorem flat_cleanLines (keeptabs keepspaces : Bool) (lines : List Str) (flat : ∀ line ∈ lines, 10 ∉ line) :
    ∀ line ∈ cleanLines keeptabs keepspaces lines, 10 ∉ line := by
  cases keeptabs with
  | true =>
      apply flat_map _ _ (flat_untabbed lines flat)
      exact fun line flat => flat_spaces fun newline => flat (mem_collapse newline)
  | false => exact flat_map (fun line flat => flat_spaces (flat_blanks flat)) lines flat

theorem flat_splitOn (s : Str) : ∀ line ∈ s.splitOn 10, 10 ∉ line := by
  intro line member newline
  simpa using splitOnP_parts (· == 10) s line member 10 newline

theorem intercalate_spaces (keepspaces : Bool) (lines : List Str) (flat : ∀ line ∈ lines, 10 ∉ line) :
    (if keepspaces then cutmultiple ([10].intercalate lines) 32 else ([10].intercalate lines).filter (· ≠ 32)) =
      [10].intercalate (lines.map (spaces keepspaces)) := by
  cases keepspaces with
  | true =>
      rw [if_pos rfl, cutmultiple_eq]
      exact intercalate_map (fun line rest _ => collapse_between (by decide) line rest) rfl lines flat
  | false =>
      rw [if_neg Bool.false_ne_true]
      have between (line rest : Str) (_ : 10 ∉ line) : (line ++ 10 :: rest).filter (· ≠ 32) =
          line.filter (· ≠ 32) ++ 10 :: rest.filter (· ≠ 32) := by
        rw [List.filter_append, List.filter_cons_of_pos (by decide)]
      exact intercalate_map between rfl lines flat

/-- What `macra.cleanup` makes of a string: its lines, each by itself, without the blank ones. -/
theorem cleanup_lines (s : Str) (keeptabs keepspaces : Bool) :
    cleanup s keeptabs keepspaces =
      [10].intercalate ((cleanLines keeptabs keepspaces (s.splitOn 10)).filter (· ≠ [])) := by
  have flat := flat_splitOn s
  have text : [10].intercalate (s.splitOn 10) = s := List.intercalate_splitOn 10
  generalize s.splitOn 10 = lines at flat text
  rw [← text, cleanup, cleanLines]
  cases keeptabs with
  | true =>
      have starts : replacePair 9 10 [10] (replacePair 10 9 [10] ([10].intercalate lines)) =
          [10].intercalate (untabbed lines) := by
        cases lines with
        | nil => rfl
        | cons line lines =>
            rw [replacePair_starts lines line flat, replacePair_ends _ (flat_starts flat), untabbed]
      have tabs :
          cutmultiple ([10].intercalate (untabbed lines)) 9 = [10].intercalate ((untabbed lines).map (collapse 9)) := by
        rw [cutmultiple_eq]
        exact intercalate_map (fun line rest _ => collapse_between (by decide) line rest) rfl _ (flat_untabbed lines flat)
      have single : ∀ line ∈ (untabbed lines).map (collapse 9), 10 ∉ line :=
        flat_map (fun _ flat newline => flat (mem_collapse newline)) _ (flat_untabbed lines flat)
      simp only [if_pos, starts, tabs]
      rw [intercalate_spaces keepspaces _ single,
        trimNewlines_lines _ (flat_map (fun _ => flat_spaces) _ single), List.map_map]
      rfl
  | false =>
      have blank :
          ([10].intercalate lines).map (fun b => if b = 9 then 32 else b) = [10].intercalate (lines.map blanks) := by
        apply intercalate_map _ rfl lines flat
        intro line rest _
        rw [List.map_append]
        rfl
      have single := flat_map (fun _ => flat_blanks) lines flat
      simp only [if_neg, Bool.false_eq_true, not_false_eq_true, blank]
      rw [intercalate_spaces keepspaces _ single,
        trimNewlines_lines _ (flat_map (fun _ => flat_spaces) _ single), List.map_map]
      rfl

/-! The normal form. -/

/-- What `macra.cleanup` is after, as its comments have it. -/
structure Clean (keeptabs keepspaces : Bool) (s : Str) : Prop where
  newlines : Without 10 10 s
  front : s.head? ≠ some 10
  back : s.getLast? ≠ some 10
  tabs : if keeptabs then Without 9 9 s ∧ Without 10 9 s ∧ Without 9 10 s else 9 ∉ s
  spaces : if keepspaces then Without 32 32 s else 32 ∉ s

theorem trimNewlines_trimmed {s : Str} (front : s.head? ≠ some 10) (back : s.getLast? ≠ some 10) :
    trimNewlines s = s := by
  have first : s.dropWhile (· == 10) = s := by
    cases s with
    | nil => rfl
    | cons b s => exact List.dropWhile_cons_of_neg (by simpa using front)
  rw [trimNewlines, first]
  apply List.rdropWhile_eq_self_iff.mpr
  intro filled
  rw [List.getLast?_eq_some_getLast filled] at back
  simpa using back

theorem cleanup_clean {keeptabs keepspaces : Bool} {s : Str} (clean : Clean keeptabs keepspaces s) :
    cleanup s keeptabs keepspaces = s := by
  have tabs := clean.tabs
  have spaced := clean.spaces
  have tabbed : (if keeptabs then cutmultiple (replacePair 9 10 [10] (replacePair 10 9 [10] s)) 9
      else s.map fun b => if b = 9 then 32 else b) = s := by
    cases keeptabs with
    | true =>
        have ⟨single, starts, ends⟩ := tabs
        rw [if_pos rfl, replacePair_without _ _ _ _ starts, replacePair_without _ _ _ _ ends,
          cutmultiple_without _ _ single]
    | false =>
        rw [if_neg Bool.false_ne_true]
        have kept : ∀ b ∈ s, (if b = 9 then 32 else b) = b :=
          fun b member => if_neg fun tab : b = 9 => tabs (tab ▸ member)
        calc
          _ = s.map id := List.map_congr_left kept
          _ = s := List.map_id s
  have separate : (if keepspaces then cutmultiple s 32 else s.filter (· ≠ 32)) = s := by
    cases keepspaces with
    | true => exact cutmultiple_without _ _ spaced
    | false =>
        apply List.filter_eq_self.mpr
        intro b member
        simpa using fun same : b = 32 => spaced (same ▸ member)
  rw [cleanup]
  simp only [tabbed, separate]
  rw [cutmultiple_without _ _ clean.newlines, trimNewlines_trimmed clean.front clean.back]

/-! Pairs of characters in lines with newlines between them. -/

theorem without_append_iff {a b : UInt8} {s t : Str} :
    Without a b (s ++ t) ↔ Without a b s ∧ Without a b t ∧ ¬ (s.getLast? = some a ∧ t.head? = some b) := by
  rw [Without, List.isChain_append]
  constructor
  · intro ⟨left, right, border⟩
    exact ⟨left, right, fun both => border a both.1 b both.2 ⟨rfl, rfl⟩⟩
  · intro ⟨left, right, border⟩
    refine ⟨left, right, fun x last y first both => border ?_⟩
    exact ⟨both.1 ▸ last, both.2 ▸ first⟩

theorem without_cons {a b c : UInt8} {s : Str} :
    Without a b (c :: s) ↔ ¬ (c = a ∧ s.head? = some b) ∧ Without a b s := by
  rw [← List.singleton_append, without_append_iff]
  constructor
  · intro ⟨_, later, border⟩
    exact ⟨fun both => border ⟨congrArg some both.1, both.2⟩, later⟩
  · intro ⟨border, later⟩
    exact ⟨List.isChain_singleton c, later, fun both => border ⟨Option.some.inj both.1, both.2⟩⟩

theorem intercalate_front (line : Str) (lines : List Str) (filled : line ≠ []) :
    ([10].intercalate (line :: lines)).head? = line.head? := by
  cases lines with
  | nil => simp
  | cons next lines => rw [intercalate_lines, List.head?_append_of_ne_nil _ filled]

theorem without_lines {a b : UInt8} (lines : List Str) (filled : ∀ line ∈ lines, line ≠ []) :
    Without a b ([10].intercalate lines) ↔ (∀ line ∈ lines, Without a b line) ∧
      (a = 10 → ∀ line ∈ lines.tail, line.head? ≠ some b) ∧
      (b = 10 → ∀ line ∈ lines.dropLast, line.getLast? ≠ some a) := by
  induction lines with
  | nil => exact ⟨fun _ => by simp, fun _ => List.isChain_nil⟩
  | cons line lines ih =>
      cases lines with
      | nil => simp
      | cons next lines =>
          have front := intercalate_front next lines (filled next (by simp))
          have later := ih fun l member => filled l (by simp [member])
          rw [intercalate_lines, without_append_iff, without_cons, later, front, List.head?_cons,
            List.dropLast_cons_cons]
          simp only [List.mem_cons, List.tail_cons, forall_eq_or_imp, Option.some.injEq]
          constructor
          · rintro ⟨here, ⟨start, inside, starts, ends⟩, last⟩
            exact ⟨⟨here, inside⟩, fun newline => ⟨fun first => start ⟨newline.symm, first⟩, starts newline⟩,
              fun newline => ⟨fun final => last ⟨final, newline.symm⟩, ends newline⟩⟩
          · rintro ⟨⟨here, inside⟩, starts, ends⟩
            exact ⟨here, ⟨fun both => (starts both.1.symm).1 both.2, inside, fun newline => (starts newline).2,
              fun newline => (ends newline).2⟩, fun both => (ends both.2.symm).1 both.1⟩

theorem mem_lines {b : UInt8} (apart : b ≠ 10) (lines : List Str) :
    b ∈ [10].intercalate lines ↔ ∃ line ∈ lines, b ∈ line := by
  induction lines with
  | nil => simp
  | cons line lines ih =>
      cases lines with
      | nil => simp
      | cons next lines => rw [intercalate_lines, List.mem_append, List.mem_cons, ih]; simp [apart]

theorem intercalate_back (lines : List Str) (flat : ∀ line ∈ lines, 10 ∉ line) (filled : ∀ line ∈ lines, line ≠ []) :
    ([10].intercalate lines).getLast? ≠ some 10 := by
  induction lines with
  | nil => simp
  | cons line lines ih =>
      cases lines with
      | nil => simpa using fun last => flat line (by simp) (List.mem_of_getLast? last)
      | cons next lines =>
          have some : [10].intercalate (next :: lines) ≠ [] := by
            intro empty
            have front := intercalate_front next lines (filled next (by simp))
            rw [empty] at front
            exact filled next (by simp) (List.head?_eq_none_iff.mp front.symm)
          rw [intercalate_lines, List.getLast?_append_of_ne_nil _ (List.cons_ne_nil _ _),
            List.getLast?_cons_of_ne_nil some]
          exact ih (fun l member => flat l (by simp [member])) fun l member => filled l (by simp [member])

theorem clean_lines (keeptabs keepspaces : Bool) (lines : List Str) (flat : ∀ line ∈ lines, 10 ∉ line)
    (filled : ∀ line ∈ lines, line ≠ []) :
    Clean keeptabs keepspaces ([10].intercalate lines) ↔
      (if keeptabs then (∀ line ∈ lines, Without 9 9 line) ∧ (∀ line ∈ lines.tail, line.head? ≠ some 9) ∧
          ∀ line ∈ lines.dropLast, line.getLast? ≠ some 9
        else ∀ line ∈ lines, 9 ∉ line) ∧
      if keepspaces then ∀ line ∈ lines, Without 32 32 line else ∀ line ∈ lines, 32 ∉ line := by
  have single (a : UInt8) (apart : a ≠ 10) :
      Without a a ([10].intercalate lines) ↔ ∀ line ∈ lines, Without a a line := by
    rw [without_lines lines filled]
    exact ⟨And.left, fun each => ⟨each, fun newline => absurd newline apart, fun newline => absurd newline apart⟩⟩
  have starts : Without 10 9 ([10].intercalate lines) ↔ ∀ line ∈ lines.tail, line.head? ≠ some 9 := by
    rw [without_lines lines filled]
    exact ⟨fun all => all.2.1 rfl, fun each =>
      ⟨fun line member => without_of_not_mem (flat line member), fun _ => each, fun never => absurd never (by decide)⟩⟩
  have ends : Without 9 10 ([10].intercalate lines) ↔ ∀ line ∈ lines.dropLast, line.getLast? ≠ some 9 := by
    rw [without_lines lines filled]
    exact ⟨fun all => all.2.2 rfl, fun each =>
      ⟨fun line member => without_of_not_mem_right (flat line member), fun never => absurd never (by decide),
        fun _ => each⟩⟩
  have none (b : UInt8) (apart : b ≠ 10) : b ∉ [10].intercalate lines ↔ ∀ line ∈ lines, b ∉ line := by
    rw [mem_lines apart]
    simp
  have newlines : Without 10 10 ([10].intercalate lines) :=
    (without_lines lines filled).mpr ⟨fun line member => without_of_not_mem (flat line member),
      fun _ line member first => flat line (List.mem_of_mem_tail member) (List.mem_of_head? first),
      fun _ line member last => flat line (List.mem_of_mem_dropLast member) (List.mem_of_getLast? last)⟩
  have front : ([10].intercalate lines).head? ≠ some 10 := by
    cases lines with
    | nil => simp
    | cons line lines =>
        rw [intercalate_front line lines (filled line (by simp))]
        exact fun first => flat line (by simp) (List.mem_of_head? first)
  have back := intercalate_back lines flat filled
  have split : Clean keeptabs keepspaces ([10].intercalate lines) ↔
      (if keeptabs then Without 9 9 ([10].intercalate lines) ∧ Without 10 9 ([10].intercalate lines) ∧
          Without 9 10 ([10].intercalate lines) else 9 ∉ [10].intercalate lines) ∧
      if keepspaces then Without 32 32 ([10].intercalate lines) else 32 ∉ [10].intercalate lines :=
    ⟨fun clean => ⟨clean.tabs, clean.spaces⟩, fun both => ⟨newlines, front, back, both.1, both.2⟩⟩
  rw [split, single 9 (by decide), single 32 (by decide), starts, ends, none 9 (by decide), none 32 (by decide)]

/-! What the steps do to a line. -/

def bare (keepspaces : Bool) (line : Str) : Str := if keepspaces then line else line.filter (· ≠ 32)

theorem collapse_cons (char b : UInt8) (s : Str) :
    collapse char (b :: s) = if b = char ∧ s.head? = some char then collapse char s else b :: collapse char s := rfl

theorem head_filter_collapse (char : UInt8) (keeps : UInt8 → Bool) (s : Str) :
    ((collapse char s).filter keeps).head? = (s.filter keeps).head? := by
  induction s with
  | nil => rfl
  | cons b s ih =>
      rw [collapse_cons]
      split
      case isTrue both =>
        rw [ih, List.filter_cons]
        split
        case isTrue kept =>
          cases s with
          | nil => cases both.2
          | cons c s =>
              have same : c = b := (Option.some.inj both.2).trans both.1.symm
              rw [same, List.filter_cons_of_pos kept]
              rfl
        case isFalse => rfl
      case isFalse =>
        rw [List.filter_cons, List.filter_cons]
        split
        · rfl
        · exact ih

theorem last_filter_collapse (char : UInt8) (keeps : UInt8 → Bool) (s : Str) :
    ((collapse char s).filter keeps).getLast? = (s.filter keeps).getLast? := by
  induction s with
  | nil => rfl
  | cons b s ih =>
      rw [collapse_cons]
      split
      case isTrue both =>
        rw [ih]
        cases s with
        | nil => cases both.2
        | cons c s =>
            have same : c = b := (Option.some.inj both.2).trans both.1.symm
            rw [same]
            cases kept : keeps b with
            | true => rw [List.filter_cons_of_pos kept, List.filter_cons_of_pos kept, List.filter_cons_of_pos kept,
                List.getLast?_cons_cons]
            | false => simp [kept]
      case isFalse =>
        rw [List.filter_cons, List.filter_cons]
        split
        · rw [List.getLast?_cons, List.getLast?_cons, ih]
        · exact ih

theorem head_collapse (char : UInt8) (s : Str) : (collapse char s).head? = s.head? := by
  have all := head_filter_collapse char (fun _ => true) s
  rwa [List.filter_true, List.filter_true] at all

theorem last_collapse (char : UInt8) (s : Str) : (collapse char s).getLast? = s.getLast? := by
  have all := last_filter_collapse char (fun _ => true) s
  rwa [List.filter_true, List.filter_true] at all

theorem Without.collapse {a b : UInt8} {s : Str} (without : Without a b s) (char : UInt8) :
    Without a b (collapse char s) := by
  induction s with
  | nil => exact without
  | cons c s ih =>
      have ⟨apart, later⟩ := without_cons.mp without
      rw [collapse_cons]
      split
      · exact ih later
      · exact without_cons.mpr ⟨by rwa [head_collapse], ih later⟩

theorem without_collapse (char : UInt8) (s : Str) : Without char char (collapse char s) := by
  induction s with
  | nil => exact List.isChain_nil
  | cons b s ih =>
      rw [collapse_cons]
      split
      case isTrue => exact ih
      case isFalse apart => exact without_cons.mpr ⟨by rwa [head_collapse], ih⟩

def Joins (line : Str) : Prop := ∃ n, 9 :: (List.replicate (n + 1) 32 ++ [9]) <:+: line

theorem spaces_before_tab (line : Str) :
    (∃ n, List.replicate n 32 ++ [9] <+: line) ↔ (line.filter (· ≠ 32)).head? = some 9 := by
  induction line with
  | nil => simp
  | cons b line ih =>
      by_cases space : b = 32
      · rw [space, List.filter_cons_of_neg (by decide), ← ih]
        constructor
        · intro ⟨n, starts⟩
          cases n with
          | zero => exact absurd (List.cons_prefix_cons.mp starts).1 (by decide)
          | succ n => exact ⟨n, (List.cons_prefix_cons.mp starts).2⟩
        · exact fun ⟨n, starts⟩ => ⟨n + 1, List.cons_prefix_cons.mpr ⟨rfl, starts⟩⟩
      · rw [List.filter_cons_of_pos (by simpa using space), List.head?_cons, Option.some.injEq]
        constructor
        · intro ⟨n, starts⟩
          cases n with
          | zero => exact (List.cons_prefix_cons.mp starts).1.symm
          | succ n => exact absurd (List.cons_prefix_cons.mp starts).1.symm space
        · exact fun tab => ⟨0, List.cons_prefix_cons.mpr ⟨tab.symm, List.nil_prefix⟩⟩

theorem joins_cons (b : UInt8) (line : Str) :
    Joins (b :: line) ↔ (b = 9 ∧ line.head? = some 32 ∧ (line.filter (· ≠ 32)).head? = some 9) ∨ Joins line := by
  have start : (∃ n, 9 :: (List.replicate (n + 1) 32 ++ [9]) <+: b :: line) ↔
      b = 9 ∧ line.head? = some 32 ∧ (line.filter (· ≠ 32)).head? = some 9 := by
    rw [← spaces_before_tab]
    simp only [List.cons_prefix_cons, exists_and_left, eq_comm (a := (9 : UInt8))]
    apply and_congr_right
    intro _
    cases line with
    | nil => simp [List.replicate_succ]
    | cons c line =>
        simp only [List.replicate_succ, List.cons_append, List.cons_prefix_cons, exists_and_left, List.head?_cons,
          Option.some.injEq, eq_comm (a := (32 : UInt8))]
        apply and_congr_right
        intro space
        rw [space]
        constructor
        · exact fun ⟨n, starts⟩ => ⟨n + 1, List.cons_prefix_cons.mpr ⟨rfl, starts⟩⟩
        · intro ⟨n, starts⟩
          cases n with
          | zero => exact absurd (List.cons_prefix_cons.mp starts).1 (by decide)
          | succ n => exact ⟨n, (List.cons_prefix_cons.mp starts).2⟩
  rw [← start, Joins, Joins, ← exists_or]
  exact exists_congr fun n => List.infix_cons_iff

theorem without_filter_collapse (line : Str) :
    Without 9 9 ((collapse 9 line).filter (· ≠ 32)) ↔ ¬ Joins line := by
  induction line with
  | nil => exact ⟨fun _ ⟨n, inside⟩ => by simpa using inside.length_le, fun _ => List.isChain_nil⟩
  | cons b line ih =>
      rw [joins_cons, collapse_cons, not_or, ← ih]
      split
      case isTrue both =>
        exact ⟨fun later => ⟨fun all => by simpa [both.2] using all.2.1, later⟩, And.right⟩
      case isFalse apart =>
        by_cases space : b = 32
        · rw [space, List.filter_cons_of_neg (by decide)]
          exact ⟨fun later => ⟨fun all => absurd all.1 (by decide), later⟩, And.right⟩
        · rw [List.filter_cons_of_pos (by simpa using space), without_cons, head_filter_collapse]
          apply and_congr_left
          intro _
          apply not_congr
          apply and_congr_right
          intro tab
          refine ⟨fun first => ⟨?_, first⟩, And.right⟩
          -- What stands first is a space, since it is neither a tab nor something else.
          cases line with
          | nil => cases first
          | cons c line =>
              by_cases blank : c = 32
              · rw [blank]; rfl
              · rw [List.filter_cons_of_pos (by simpa using blank)] at first
                exact absurd ⟨tab, first⟩ apart

/-! When the normal form is reached. -/

/-- The tabs of a string, as `macra.cleanup` needs them when it keeps tabs. Let each line lose one tab at its start (all
but the first) and one at its end (all but the last), and its spaces, if they go. Of the lines that are not empty then,
none but the first starts with a tab and none but the last ends with one, and no two tabs of a line have only spaces that
go between them. -/
structure TabsApart (keepspaces : Bool) (s : Str) : Prop where
  starts : ∀ line ∈ (((untabbed (s.splitOn 10)).map (bare keepspaces)).filter (· ≠ [])).tail, line.head? ≠ some 9
  ends : ∀ line ∈ (((untabbed (s.splitOn 10)).map (bare keepspaces)).filter (· ≠ [])).dropLast, line.getLast? ≠ some 9
  inside : keepspaces = false → ∀ line ∈ untabbed (s.splitOn 10), ¬ Joins line

theorem map_filled {α : Type} (change keep : Str → Str) (of : Str → α) (same : ∀ line, of (change line) = of (keep line))
    (filled : ∀ line, change line = [] ↔ keep line = []) (lines : List Str) :
    ((lines.map change).filter (· ≠ [])).map of = ((lines.map keep).filter (· ≠ [])).map of := by
  induction lines with
  | nil => rfl
  | cons line lines ih =>
      rw [List.map_cons, List.map_cons]
      by_cases blank : keep line = []
      · rw [List.filter_cons_of_neg (by simpa using (filled line).mpr blank),
          List.filter_cons_of_neg (by simpa using blank),
          ih]
      · have some : change line ≠ [] := fun empty => blank ((filled line).mp empty)
        rw [List.filter_cons_of_pos (by simpa using some), List.filter_cons_of_pos (by simpa using blank), List.map_cons,
          List.map_cons, ih, same]

theorem head_spaces (keepspaces : Bool) (line : Str) :
    (spaces keepspaces (collapse 9 line)).head? = (bare keepspaces line).head? := by
  cases keepspaces with
  | true => exact (head_collapse 32 _).trans (head_collapse 9 line)
  | false => exact head_filter_collapse 9 _ line

theorem last_spaces (keepspaces : Bool) (line : Str) :
    (spaces keepspaces (collapse 9 line)).getLast? = (bare keepspaces line).getLast? := by
  cases keepspaces with
  | true => exact (last_collapse 32 _).trans (last_collapse 9 line)
  | false => exact last_filter_collapse 9 _ line

theorem filled_spaces (keepspaces : Bool) (line : Str) :
    spaces keepspaces (collapse 9 line) = [] ↔ bare keepspaces line = [] := by
  rw [← List.head?_eq_none_iff, head_spaces, List.head?_eq_none_iff]

theorem without_spaces (keepspaces : Bool) (line : Str) :
    Without 9 9 (spaces keepspaces (collapse 9 line)) ↔ (keepspaces = false → ¬ Joins line) := by
  cases keepspaces with
  | true => exact ⟨fun _ never => Bool.noConfusion never, fun _ => (without_collapse 9 line).collapse 32⟩
  | false => exact (without_filter_collapse line).trans ⟨fun apart _ => apart, fun apart => apart rfl⟩

theorem spaces_kept (keepspaces : Bool) (line : Str) :
    if keepspaces then Without 32 32 (spaces keepspaces line) else 32 ∉ spaces keepspaces line := by
  cases keepspaces with
  | true => exact without_collapse 32 line
  | false => exact fun member => by simpa using (List.mem_filter.mp member).2

theorem cleanLines_spaces (keeptabs keepspaces : Bool) (lines : List Str) :
    ∀ line ∈ (cleanLines keeptabs keepspaces lines).filter (· ≠ []), ∃ l, line = spaces keepspaces l := by
  intro line member
  have present := List.mem_of_mem_filter member
  rw [cleanLines] at present
  split at present
  all_goals
    obtain ⟨l, _, same⟩ := List.mem_map.mp present
    exact ⟨_, same.symm⟩

theorem cleanLines_untabbed (keepspaces : Bool) (lines : List Str) :
    ∀ line ∈ (cleanLines false keepspaces lines).filter (· ≠ []), 9 ∉ line := by
  intro line member tab
  obtain ⟨l, _, rfl⟩ := List.mem_map.mp (List.mem_of_mem_filter member)
  have inside : 9 ∈ blanks l := by
    rw [spaces] at tab
    split at tab
    · exact mem_collapse tab
    · exact List.mem_of_mem_filter tab
  obtain ⟨b, _, image⟩ := List.mem_map.mp inside
  split at image
  case isTrue => cases image
  case isFalse other => exact other image

theorem cleanup_untabbed (s : Str) (keepspaces : Bool) : 9 ∉ cleanup s false keepspaces := by
  rw [cleanup_lines, mem_lines (by decide)]
  rintro ⟨line, member, tab⟩
  exact cleanLines_untabbed keepspaces _ line member tab

theorem tabs_lines (keepspaces : Bool) (s : Str) :
    ((∀ line ∈ (cleanLines true keepspaces (s.splitOn 10)).filter (· ≠ []), Without 9 9 line) ∧
      (∀ line ∈ ((cleanLines true keepspaces (s.splitOn 10)).filter (· ≠ [])).tail, line.head? ≠ some 9) ∧
      ∀ line ∈ ((cleanLines true keepspaces (s.splitOn 10)).filter (· ≠ [])).dropLast, line.getLast? ≠ some 9) ↔
    TabsApart keepspaces s := by
  have lines : cleanLines true keepspaces (s.splitOn 10) =
      (untabbed (s.splitOn 10)).map fun line => spaces keepspaces (collapse 9 line) := rfl
  have heads := map_filled _ _ List.head? (head_spaces keepspaces) (filled_spaces keepspaces) (untabbed (s.splitOn 10))
  have lasts := map_filled _ _ List.getLast? (last_spaces keepspaces) (filled_spaces keepspaces)
    (untabbed (s.splitOn 10))
  have tail (lines : List Str) : (∀ line ∈ lines.tail, line.head? ≠ some 9) ↔
      ∀ first ∈ (lines.map List.head?).tail, first ≠ some 9 := by
    rw [← List.map_tail, List.forall_mem_map]
  have front (lines : List Str) : (∀ line ∈ lines.dropLast, line.getLast? ≠ some 9) ↔
      ∀ last ∈ (lines.map List.getLast?).dropLast, last ≠ some 9 := by
    rw [← List.map_dropLast, List.forall_mem_map]
  have inside : (∀ line ∈ (cleanLines true keepspaces (s.splitOn 10)).filter (· ≠ []), Without 9 9 line) ↔
      (keepspaces = false → ∀ line ∈ untabbed (s.splitOn 10), ¬ Joins line) := by
    rw [lines]
    constructor
    · intro each unspaced line member
      refine (without_spaces keepspaces line).mp ?_ unspaced
      by_cases blank : spaces keepspaces (collapse 9 line) = []
      · rw [blank]
        exact List.isChain_nil
      · exact each _ (List.mem_filter.mpr ⟨List.mem_map_of_mem member, by simpa using blank⟩)
    · intro each line member
      obtain ⟨l, present, rfl⟩ := List.mem_map.mp (List.mem_of_mem_filter member)
      exact (without_spaces keepspaces l).mpr fun unspaced => each unspaced l present
  rw [inside, lines, tail, front, heads, lasts, ← tail, ← front]
  exact ⟨fun ⟨inside, starts, ends⟩ => ⟨starts, ends, inside⟩, fun apart => ⟨apart.inside, apart.starts, apart.ends⟩⟩

/-- `macra.cleanup` reaches its normal form exactly where the tabs let it, and then cleaning up again changes nothing. -/
theorem cleanup_normal (s : Str) (keeptabs keepspaces : Bool) :
    (Clean keeptabs keepspaces (cleanup s keeptabs keepspaces) ∧
        cleanup (cleanup s keeptabs keepspaces) keeptabs keepspaces = cleanup s keeptabs keepspaces) ↔
      (keeptabs = true → TabsApart keepspaces s) := by
  rw [and_iff_left_of_imp cleanup_clean, cleanup_lines]
  have flat := flat_cleanLines keeptabs keepspaces _ (flat_splitOn s)
  have filled : ∀ line ∈ (cleanLines keeptabs keepspaces (s.splitOn 10)).filter (· ≠ []), line ≠ [] :=
    fun line member => by simpa using (List.mem_filter.mp member).2
  have spaced :
      if keepspaces then ∀ line ∈ (cleanLines keeptabs keepspaces (s.splitOn 10)).filter (· ≠ []), Without 32 32 line
      else ∀ line ∈ (cleanLines keeptabs keepspaces (s.splitOn 10)).filter (· ≠ []), 32 ∉ line := by
    have each := cleanLines_spaces keeptabs keepspaces (s.splitOn 10)
    cases keepspaces with
    | true =>
        intro line member
        obtain ⟨l, rfl⟩ := each line member
        exact spaces_kept true l
    | false =>
        intro line member
        obtain ⟨l, rfl⟩ := each line member
        exact spaces_kept false l
  rw [clean_lines keeptabs keepspaces _ (fun line member => flat line (List.mem_of_mem_filter member)) filled,
    and_iff_left spaced]
  cases keeptabs with
  | false => exact ⟨fun _ never => Bool.noConfusion never, fun _ => cleanLines_untabbed keepspaces _⟩
  | true => exact (tabs_lines keepspaces s).trans ⟨fun apart _ => apart, fun apart => apart rfl⟩

/-- `"a\n\t\tb"`: of the two tabs one stays behind the newline. -/
theorem cleanup_two_tabs : ¬ ∀ s keeptabs keepspaces, Clean keeptabs keepspaces (cleanup s keeptabs keepspaces) ∧
    cleanup (cleanup s keeptabs keepspaces) keeptabs keepspaces = cleanup s keeptabs keepspaces := by
  intro all
  have again := (all (lit "a\n\t\tb") true true).2
  revert again
  decide

end Maccer
