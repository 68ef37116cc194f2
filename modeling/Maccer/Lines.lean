import Mathlib.Data.List.TakeWhile
import Maccer.KeyFile

/-! Comments and blank lines of the data files. -/

namespace Maccer

open Lua

def stripComments : Bool → Str → Str
  | _, [] => []
  | true, b :: rest => if b = 10 then b :: stripComments false rest else stripComments true rest
  | false, [b] => [b]
  | false, b :: c :: rest =>
      if b = 47 ∧ c = 47 then stripComments true rest else b :: stripComments false (c :: rest)

def NoMulti (text : Str) : Prop := ∀ i : Nat, ¬ (text[i]? = some 47 ∧ text[i + 1]? = some 42)

theorem matchAt_multi (text : Str) (i : Nat)
    (begins : ¬ (text[i]? = some 47 ∧ text[i + 1]? = some 42)) :
    matchAt text (lit "/%*.+%*/") i = .ok none := by
  have shape : lit "/%*.+%*/" = 47 :: 37 :: 42 :: lit ".+%*/" := by decide
  rw [matchAt, shape, matchHere_literal _ _ _ _ _ _ (by decide) (by decide)]
  by_cases slash : text[i]? = some 47
  · rw [if_pos slash, List.length_cons, matchHere_escape _ _ _ _ _ _ (by decide) (by decide),
      if_neg fun star => begins ⟨slash, star⟩]
  · rw [if_neg slash]

theorem gsubFrom_none (s pattern replacement : Str) (fuel count i : Nat)
    (misses : ∀ j, matchAt s pattern j = .ok none) (enough : s.length - i < fuel) :
    gsubFrom s pattern replacement fuel count i = .ok (s.drop i) := by
  induction fuel generalizing i with
  | zero => omega
  | succ fuel ih =>
      rw [gsubFrom, misses]
      split
      · rfl
      · by_cases inside : i < s.length
        · simp only [if_pos inside, ih (i + 1) (by omega), run_bind_ok, run_pure]
          rw [List.drop_eq_getElem_cons inside]
          rfl
        · rw [if_neg inside, List.drop_eq_nil_of_le (by omega)]

theorem matchAt_line (text : Str) (i : Nat) :
    matchAt text (lit "//[^\n]*") i =
      if text[i]? = some 47 ∧ text[i + 1]? = some 47 then
        .ok (some (i + 2 + repeated text (i + 2) (· ≠ 10), []))
      else .ok none := by
  have shape : lit "//[^\n]*" = 47 :: 47 :: 91 :: [94, 10, 93, 42] := by decide
  have single (b : UInt8) : singleMatch b (91 :: [94, 10, 93, 42]) [42] = decide (b ≠ 10) :=
    single_except b 10 [42]
  have star := matchHere_star text 5 (i + 2) [] (fun b => decide (b ≠ 10)) 91 [94, 10, 93, 42] []
    (by decide) (by decide) single
  have longest := maxExpand_longest (fun j => matchHere text 5 [] j []) (i + 2) _ _
    (some (i + 2 + repeated text (i + 2) fun b => decide (b ≠ 10), [])) le_rfl
    (matchHere_nil text 4 _ []) (by simp) fun k above bound => by omega
  rw [matchAt, shape, matchHere_literal _ _ _ _ _ _ (by decide) (by decide)]
  by_cases first : text[i]? = some 47
  · rw [if_pos first, List.length_cons, matchHere_literal _ _ _ _ _ _ (by decide) (by decide)]
    by_cases second : text[i + 1]? = some 47
    · rw [if_pos second, if_pos ⟨first, second⟩]
      exact star.trans longest
    · rw [if_neg second, if_neg fun both => second both.2]
  · rw [if_neg first, if_neg fun both => first both.1]

theorem stripComments_true (text : Str) :
    stripComments true text = stripComments false (text.dropWhile (· ≠ 10)) := by
  induction text with
  | nil => rfl
  | cons b rest ih =>
      by_cases newline : b = 10
      · subst newline
        cases rest with
        | nil => rfl
        | cons c rest => simp [stripComments]
      · simp [stripComments, newline, ih]

theorem stripComments_cons (b : UInt8) (rest : Str)
    (begins : ¬ (b = 47 ∧ rest.head? = some 47)) :
    stripComments false (b :: rest) = b :: stripComments false rest := by
  cases rest with
  | nil => rfl
  | cons c rest =>
      rw [stripComments, if_neg]
      simpa using begins

theorem drop_repeated (s : Str) (i : Nat) (inside : UInt8 → Bool) :
    s.drop (i + repeated s i inside) = (s.drop i).dropWhile inside := by
  have parts := List.takeWhile_append_dropWhile (p := inside) (l := s.drop i)
  calc
    s.drop (i + repeated s i inside) = (s.drop i).drop (repeated s i inside) :=
      List.drop_drop.symm
    _ = ((s.drop i).takeWhile inside ++ (s.drop i).dropWhile inside).drop (repeated s i inside) := by
      rw [parts]
    _ = (s.drop i).dropWhile inside := List.drop_left

theorem gsubFrom_line (text : Str) (fuel count i : Nat) (enough : text.length - i < fuel)
    (many : text.length - i < count) :
    gsubFrom text (lit "//[^\n]*") [] fuel count i = .ok (stripComments false (text.drop i)) := by
  induction fuel generalizing count i with
  | zero => omega
  | succ fuel ih =>
      have positive : count ≠ 0 := by omega
      rw [gsubFrom, if_neg positive, matchAt_line]
      by_cases here : text[i]? = some 47 ∧ text[i + 1]? = some 47
      · have bound : i + 1 < text.length := (List.getElem?_eq_some_iff.mp here.2).1
        have moved := ih (count - 1) (i + 2 + repeated text (i + 2) (· ≠ 10)) (by omega) (by omega)
        have front : text.drop i = 47 :: 47 :: text.drop (i + 2) := by
          rw [List.drop_eq_getElem_cons (by omega), List.drop_eq_getElem_cons bound]
          obtain ⟨_, first⟩ := List.getElem?_eq_some_iff.mp here.1
          obtain ⟨_, second⟩ := List.getElem?_eq_some_iff.mp here.2
          rw [first, second]
        rw [if_pos here]
        simp only [fillIn, run_bind_ok, moved, run_pure]
        rw [if_pos (by omega), front, drop_repeated, ← stripComments_true]
        simp [stripComments]
      · rw [if_neg here]
        by_cases inside : i < text.length
        · simp only [if_pos inside, ih count (i + 1) (by omega) (by omega), run_bind_ok, run_pure]
          rw [List.drop_eq_getElem_cons inside, stripComments_cons]
          · rfl
          · rintro ⟨first, second⟩
            refine here ⟨by rw [List.getElem?_eq_getElem inside, first], ?_⟩
            rwa [List.head?_drop] at second
        · simp [if_neg inside, List.drop_eq_nil_of_le (by omega : text.length ≤ i), stripComments]

/-- Comments to the end of the line are all that `macra.decomment` finds. -/
theorem decomment_eq (text : Str) (noMulti : NoMulti text) :
    decomment text = .ok (stripComments false text) := by
  have first : gsubAll text (lit "/%*.+%*/") [] = .ok text := by
    have kept := gsubFrom_none text (lit "/%*.+%*/") [] (text.length + 2) (text.length + 1) 0
      (fun j => matchAt_multi text j (noMulti j)) (by omega)
    rw [List.drop_zero] at kept
    exact kept
  have second := gsubFrom_line text (text.length + 2) (text.length + 1) 0 (by omega) (by omega)
  rw [decomment, first, run_bind_ok]
  rwa [List.drop_zero] at second

def Without (a b : UInt8) (s : Str) : Prop := s.IsChain fun x y => ¬ (x = a ∧ y = b)

instance (a b : UInt8) (s : Str) : Decidable (Without a b s) := by unfold Without; infer_instance

theorem Without.noMulti {text : Str} (without : Without 47 42 text) : NoMulti text := by
  rintro i ⟨first, second⟩
  obtain ⟨_, here⟩ := List.getElem?_eq_some_iff.mp first
  obtain ⟨bound, next⟩ := List.getElem?_eq_some_iff.mp second
  exact without.getElem i bound ⟨here, next⟩

theorem without_of_not_mem {a b : UInt8} {s : Str} (absent : a ∉ s) : Without a b s := by
  induction s with
  | nil => exact .nil
  | cons x s ih =>
      simp only [List.mem_cons, not_or] at absent
      exact List.isChain_cons.mpr ⟨fun y _ both => absent.1 both.1.symm, ih absent.2⟩

theorem without_of_not_mem_right {a b : UInt8} {s : Str} (absent : b ∉ s) : Without a b s := by
  induction s with
  | nil => exact .nil
  | cons x s ih =>
      simp only [List.mem_cons, not_or] at absent
      refine List.isChain_cons.mpr ⟨fun y first both => ?_, ih absent.2⟩
      exact absent.2 (both.2 ▸ List.mem_of_mem_head? first)

theorem unlines_cons (line : Str) (lines : List Str) :
    unlines (line :: lines) = line ++ 10 :: unlines lines := by
  simp [unlines]

theorem unlines_append (first second : List Str) :
    unlines (first ++ second) = unlines first ++ unlines second :=
  List.flatMap_append

theorem splitOn_unlines {lines : List Str} (flat : ∀ line ∈ lines, 10 ∉ line) (rest : Str) :
    (unlines lines ++ rest).splitOn 10 = lines ++ rest.splitOn 10 := by
  induction lines with
  | nil => rfl
  | cons line lines ih =>
      rw [unlines_cons, List.append_assoc, List.cons_append,
        List.splitOn_append_cons_self_of_not_mem (flat line List.mem_cons_self),
        ih fun l member => flat l (List.mem_cons_of_mem line member), List.cons_append]

theorem unlines_intercalate (lines : List Str) : unlines lines = [10].intercalate (lines ++ [[]]) := by
  induction lines with
  | nil => rfl
  | cons line lines ih =>
      rw [unlines_cons, ih, List.cons_append, List.intercalate_cons_of_ne_nil (by simp), List.append_assoc]
      rfl

theorem readutf8_bom (text : Str) : readutf8 (bom ++ text) = text := by simp [readutf8, bom]

theorem without_unlines (a b : UInt8) (lines : List Str)
    (each : ∀ line ∈ lines, Without a b (line ++ [10]))
    (starts : a = 10 → ∀ line ∈ lines, (line ++ [10]).head? ≠ some b) :
    Without a b (unlines lines) := by
  induction lines with
  | nil => exact .nil
  | cons line lines ih =>
      have later := ih (fun l member => each l (by simp [member]))
        fun newline l member => starts newline l (by simp [member])
      rw [unlines, List.flatMap_cons]
      refine (each line (by simp)).append later ?_
      rintro x last y first ⟨rfl, rfl⟩
      have newline : x = 10 := by simpa [eq_comm] using last
      cases lines with
      | nil => simp at first
      | cons next lines =>
          refine starts newline next (by simp) ?_
          cases next <;> simpa using first

theorem mem_stripComments {b : UInt8} {commented : Bool} {s : Str} (inside : b ∈ stripComments commented s) : b ∈ s := by
  fun_induction stripComments commented s with
  | case1 => cases inside
  | case2 rest ih =>
      rcases List.mem_cons.mp inside with rfl | later
      · exact List.mem_cons_self
      · exact List.mem_cons_of_mem _ (ih later)
  | case3 b' rest other ih => exact List.mem_cons_of_mem b' (ih inside)
  | case4 b' => exact inside
  | case5 _ _ rest _ ih => exact List.mem_cons_of_mem _ (List.mem_cons_of_mem _ (ih inside))
  | case6 b' c rest other ih =>
      rcases List.mem_cons.mp inside with rfl | later
      · exact List.mem_cons_self
      · exact List.mem_cons_of_mem b' (ih later)

theorem stripComments_without (text : Str) (without : Without 47 47 text) :
    stripComments false text = text := by
  induction text with
  | nil => rfl
  | cons b rest ih =>
      obtain ⟨begins, later⟩ := List.isChain_cons.mp without
      rw [stripComments_cons, ih later]
      exact fun both => begins 47 both.2 ⟨both.1, rfl⟩

theorem stripComments_comment (line rest : Str) (flat : 10 ∉ line) :
    stripComments true (line ++ 10 :: rest) = 10 :: stripComments false rest := by
  induction line with
  | nil => simp [stripComments]
  | cons b line ih =>
      simp only [List.mem_cons, not_or] at flat
      rw [List.cons_append, stripComments, if_neg (Ne.symm flat.1), ih flat.2]

theorem stripComments_line (line rest : Str) (flat : 10 ∉ line) :
    stripComments false (line ++ 10 :: rest) =
      stripComments false line ++ 10 :: stripComments false rest := by
  induction line with
  | nil => rw [List.nil_append, stripComments_cons _ _ (by simp)]; rfl
  | cons b line ih =>
      simp only [List.mem_cons, not_or] at flat
      by_cases begins : b = 47 ∧ line.head? = some 47
      · obtain ⟨rfl, second⟩ := begins
        obtain ⟨tail, rfl⟩ : ∃ tail, line = 47 :: tail := by
          cases line with
          | nil => simp at second
          | cons c tail => exact ⟨tail, by simpa using second⟩
        have ended : stripComments true tail = [] := by
          have gone : tail.dropWhile (· ≠ 10) = [] := by
            rw [List.dropWhile_eq_nil_iff]
            intro b member
            simpa using fun newline : b = 10 => flat.2 (by simp [← newline, member])
          rw [stripComments_true, gone]
          rfl
        simp only [List.cons_append, stripComments, and_self, if_true, ended, List.nil_append]
        exact stripComments_comment tail rest (by simpa using flat.2)
      · have apart : ¬ (b = 47 ∧ (line ++ 10 :: rest).head? = some 47) := by
          cases line with
          | nil => simp
          | cons c line => simpa using begins
        rw [List.cons_append, stripComments_cons _ _ apart, stripComments_cons _ _ begins, ih flat.2]
        rfl

theorem stripComments_unlines (lines : List Str) (flat : ∀ line ∈ lines, 10 ∉ line) :
    stripComments false (unlines lines) = unlines (lines.map (stripComments false)) := by
  induction lines with
  | nil => rfl
  | cons line lines ih =>
      rw [unlines_cons, stripComments_line line _ (flat line (by simp)), List.map_cons, unlines_cons,
        ih fun l member => flat l (by simp [member])]

theorem replacePair_without (a b : UInt8) (new s : Str) (without : Without a b s) :
    replacePair a b new s = s := by
  induction s with
  | nil => rfl
  | cons x s ih =>
      cases s with
      | nil => rfl
      | cons y s =>
          obtain ⟨apart, later⟩ := List.isChain_cons.mp without
          rw [replacePair, if_neg (apart y rfl), ih later]

theorem cutmultiple_without (s : Str) (char : UInt8) (without : Without char char s) :
    cutmultiple s char = s := by
  rw [cutmultiple]
  cases s.length with
  | zero => rfl
  | succ fuel =>
      simp only [cutRounds, replacePair_without _ _ _ _ without, if_true]

def collapse (char : UInt8) : Str → Str
  | [] => []
  | a :: rest => if a = char ∧ rest.head? = some char then collapse char rest else a :: collapse char rest

theorem head_replacePair (char : UInt8) (s : Str) :
    (replacePair char char [char] s).head? = s.head? := by
  unfold replacePair
  split
  · split
    · simp_all
    · rfl
  · rfl

theorem collapse_replacePair (char : UInt8) (s : Str) :
    collapse char (replacePair char char [char] s) = collapse char s := by
  induction s using replacePair.induct char char with
  | case1 a b rest pair ih =>
      obtain ⟨rfl, rfl⟩ := pair
      simp [replacePair, collapse, head_replacePair, ih]
  | case2 a b rest apart ih =>
      rw [replacePair, if_neg apart]
      simp only [collapse, head_replacePair, List.head?_cons, Option.some.injEq, if_neg apart]
      rw [ih]
      rfl
  | case3 rest short => rw [replacePair]; exact short

theorem length_replacePair (char : UInt8) (s : Str) :
    (replacePair char char [char] s).length ≤ s.length := by
  induction s using replacePair.induct char char with
  | case1 a b rest pair ih =>
      simp only [replacePair, if_pos pair, List.length_append, List.length_cons, List.length_nil]
      omega
  | case2 a b rest apart ih =>
      simp only [replacePair, if_neg apart, List.length_cons] at ih ⊢
      omega
  | case3 rest short => rw [replacePair]; exact short

theorem replacePair_shorter (char : UInt8) (s : Str)
    (changed : replacePair char char [char] s ≠ s) :
    (replacePair char char [char] s).length < s.length := by
  induction s using replacePair.induct char char with
  | case1 a b rest pair ih =>
      have shorter := length_replacePair char rest
      simp only [replacePair, if_pos pair, List.length_append, List.length_cons, List.length_nil]
      omega
  | case2 a b rest apart ih =>
      rw [replacePair, if_neg apart] at changed ⊢
      have later := ih fun same => changed (by rw [same])
      simpa using later
  | case3 rest short => exact absurd (by rw [replacePair]; exact short) changed

theorem collapse_of_replacePair (char : UInt8) (s : Str)
    (unchanged : replacePair char char [char] s = s) : collapse char s = s := by
  induction s using replacePair.induct char char with
  | case1 a b rest pair ih =>
      have shorter := length_replacePair char rest
      have lengths := congrArg List.length unchanged
      simp only [replacePair, if_pos pair, List.length_append, List.length_cons, List.length_nil]
        at lengths
      omega
  | case2 a b rest apart ih =>
      rw [replacePair, if_neg apart] at unchanged
      have later := ih (List.cons.inj unchanged).2
      rw [collapse, later, if_neg (by simpa using apart)]
  | case3 rest short =>
      cases rest with
      | nil => rfl
      | cons a rest =>
          cases rest with
          | nil => simp [collapse]
          | cons b rest => exact absurd rfl (short a b rest)

theorem cutRounds_eq (char : UInt8) (fuel : Nat) (s : Str) (enough : s.length ≤ fuel) :
    cutRounds char fuel s = collapse char s := by
  induction fuel generalizing s with
  | zero =>
      rw [List.eq_nil_of_length_eq_zero (by omega : s.length = 0)]
      rfl
  | succ fuel ih =>
      rw [cutRounds]
      by_cases unchanged : replacePair char char [char] s = s
      · simp only [unchanged, if_true, collapse_of_replacePair char s unchanged]
      · have shorter := replacePair_shorter char s unchanged
        simp only [if_neg unchanged]
        rw [ih _ (by omega), collapse_replacePair]

theorem cutmultiple_eq (s : Str) (char : UInt8) : cutmultiple s char = collapse char s :=
  cutRounds_eq char s.length s le_rfl

theorem collapse_line (char : UInt8) (line rest : Str) (flat : char ∉ line) :
    collapse char (line ++ rest) = line ++ collapse char rest := by
  induction line with
  | nil => rfl
  | cons b line ih =>
      simp only [List.mem_cons, not_or] at flat
      rw [List.cons_append, collapse, if_neg fun both => flat.1 both.1.symm, ih flat.2]
      rfl

theorem collapse_unlines (lines : List Str) (flat : ∀ line ∈ lines, 10 ∉ line) :
    collapse 10 (10 :: unlines lines) = 10 :: unlines (lines.filter (· ≠ [])) := by
  induction lines with
  | nil => rfl
  | cons line lines ih =>
      have later := ih fun l member => flat l (by simp [member])
      rw [unlines_cons]
      cases line with
      | nil =>
          rw [List.nil_append, collapse, if_pos ⟨rfl, rfl⟩, later]
          simp
      | cons b line =>
          have here := flat (b :: line) (by simp)
          have apart : b ≠ 10 := fun newline => here (by simp [newline])
          rw [collapse, if_neg (by simp [apart]), collapse_line _ _ _ here, later]
          simp [unlines_cons]

theorem dropWhile_collapse (s : Str) :
    (collapse 10 (10 :: s)).dropWhile (· == 10) = (collapse 10 s).dropWhile (· == 10) := by
  rw [collapse]
  split
  · rfl
  · simp

theorem unlines_eq_intercalate (lines : List Str) (some : lines ≠ []) :
    unlines lines = [10].intercalate lines ++ [10] := by
  induction lines with
  | nil => exact absurd rfl some
  | cons line lines ih =>
      rw [unlines_cons]
      cases lines with
      | nil => simp [unlines]
      | cons next lines =>
          rw [ih (by simp), List.intercalate_cons_cons]
          simp

theorem dropWhile_unlines (lines : List Str) (flat : ∀ line ∈ lines, 10 ∉ line)
    (filled : ∀ line ∈ lines, line ≠ []) :
    (unlines lines).dropWhile (· == 10) = unlines lines := by
  cases lines with
  | nil => rfl
  | cons line lines =>
      cases line with
      | nil => exact absurd rfl (filled [] (by simp))
      | cons b line =>
          have apart : b ≠ 10 := fun newline => flat (b :: line) (by simp) (by simp [newline])
          simp [unlines_cons, apart]

theorem rdropWhile_unlines (lines : List Str) (flat : ∀ line ∈ lines, 10 ∉ line)
    (filled : ∀ line ∈ lines, line ≠ []) (some : lines ≠ []) :
    (unlines lines).rdropWhile (· == 10) = [10].intercalate lines := by
  obtain ⟨front, last, rfl⟩ := (List.eq_nil_or_concat' lines).resolve_left some
  obtain ⟨line, b, rfl⟩ :=
    (List.eq_nil_or_concat' last).resolve_left (filled last (by simp))
  have apart : b ≠ 10 := fun newline => flat (line ++ [b]) (by simp) (by simp [newline])
  have whole := unlines_eq_intercalate (front ++ [line ++ [b]]) some
  have parts : unlines (front ++ [line ++ [b]]) = unlines front ++ line ++ [b] ++ [10] := by
    simp [unlines]
  have joined : [10].intercalate (front ++ [line ++ [b]]) = unlines front ++ line ++ [b] :=
    List.append_cancel_right (whole.symm.trans parts)
  rw [parts, List.rdropWhile_concat_pos _ _ _ (by rfl),
    List.rdropWhile_concat_neg _ _ _ (by simpa using apart), joined]

theorem trimNewlines_unlines (lines : List Str) (flat : ∀ line ∈ lines, 10 ∉ line)
    (some : lines.filter (· ≠ []) ≠ []) :
    (trimNewlines (cutmultiple (unlines lines) 10)).splitOn 10 = lines.filter (· ≠ []) := by
  have kept : ∀ line ∈ lines.filter (· ≠ []), 10 ∉ line :=
    fun line member => flat line (List.mem_of_mem_filter member)
  have filled : ∀ line ∈ lines.filter (· ≠ []), line ≠ [] :=
    fun line member => by simpa using (List.mem_filter.mp member).2
  have front : (collapse 10 (unlines lines)).dropWhile (· == 10) =
      unlines (lines.filter (· ≠ [])) := by
    rw [← dropWhile_collapse, collapse_unlines lines flat, List.dropWhile_cons_of_pos (by rfl),
      dropWhile_unlines _ kept filled]
  rw [trimNewlines, cutmultiple_eq, front, rdropWhile_unlines _ kept filled some,
    List.splitOn_intercalate 10 kept some]

/-- What `macra.cleanup` leaves alone in a line, with or without its spaces. -/
structure Tidy (keepspaces : Bool) (line : Str) : Prop where
  flat : 10 ∉ line
  tabs : Without 9 9 line
  tabFirst : line.head? ≠ some 9
  tabLast : line.getLast? ≠ some 9
  spaces : if keepspaces then Without 32 32 line else 32 ∉ line

theorem without_newline (a b : UInt8) (line : Str) (inside : Without a b line)
    (last : b = 10 → line.getLast? ≠ some a) : Without a b (line ++ [10]) := by
  refine inside.append (.singleton _) ?_
  rintro x final y first ⟨rfl, rfl⟩
  have newline : y = 10 := by simpa [eq_comm] using first
  exact last newline final

theorem without_unlines_tidy {keepspaces : Bool} (lines : List Str)
    (tidy : ∀ line ∈ lines, Tidy keepspaces line) :
    Without 10 9 (unlines lines) ∧ Without 9 10 (unlines lines) ∧ Without 9 9 (unlines lines) := by
  refine ⟨without_unlines _ _ _ ?_ ?_, without_unlines _ _ _ ?_ (by simp),
    without_unlines _ _ _ ?_ (by simp)⟩
  · intro line member
    exact without_newline _ _ _ (without_of_not_mem (tidy line member).flat) (by simp)
  · intro _ line member
    have first := (tidy line member).tabFirst
    cases line <;> simp_all
  · intro line member
    have here := tidy line member
    exact without_newline _ _ _ (without_of_not_mem_right here.flat) fun _ => here.tabLast
  · intro line member
    exact without_newline _ _ _ (tidy line member).tabs (by simp)

theorem spaces_unlines {keepspaces : Bool} (lines : List Str)
    (tidy : ∀ line ∈ lines, Tidy keepspaces line) :
    (if keepspaces then cutmultiple (unlines lines) 32 else (unlines lines).filter (· ≠ 32)) =
      unlines lines := by
  cases keepspaces with
  | true =>
      refine cutmultiple_without _ _ (without_unlines _ _ _ ?_ (by simp))
      intro line member
      exact without_newline _ _ _ (tidy line member).spaces (by simp)
  | false =>
      refine List.filter_eq_self.mpr ?_
      intro b member
      obtain ⟨line, present, inside⟩ := List.mem_flatMap.mp member
      have absent : 32 ∉ line := (tidy line present).spaces
      rcases List.mem_append.mp inside with within | newline
      · simpa using fun space : b = 32 => absent (space ▸ within)
      · simp [List.mem_singleton.mp newline]

theorem cleanup_unlines {keepspaces : Bool} (lines : List Str)
    (tidy : ∀ line ∈ lines, Tidy keepspaces line) (some : lines.filter (· ≠ []) ≠ []) :
    (cleanup (unlines lines) true keepspaces).splitOn 10 = lines.filter (· ≠ []) := by
  obtain ⟨afterNewline, beforeNewline, double⟩ := without_unlines_tidy lines tidy
  rw [cleanup]
  simp only [if_true, replacePair_without _ _ _ _ afterNewline,
    replacePair_without _ _ _ _ beforeNewline, cutmultiple_without _ _ double,
    spaces_unlines lines tidy]
  exact trimNewlines_unlines lines (fun line member => (tidy line member).flat) some

end Maccer
