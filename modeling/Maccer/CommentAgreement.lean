import Maccer.CommentReaders

/-! The texts in which `macra.decomment` and `macra.getcommentset` see the comments. -/

namespace Maccer

open Lua

/-- `decomment` deletes the bytes that `getcommentset` marks and returns the others, and what they
mark are the comments. -/
def ReadersAgree (text : Str) : Prop :=
  ∃ commentstbl, getcommentset text = .ok commentstbl ∧
    decomment text = .ok (keep (commentMarks commentstbl text) text) ∧
    decommentCuts text = .ok (commentMarks commentstbl text) ∧
    commentMarks commentstbl text = comments .code text

theorem readersAgree_of_cuts {text : Str} {commentstbl : List (Int × Int)} (ran : getcommentset text = .ok commentstbl)
    (deletes : decommentCuts text = .ok (commentMarks commentstbl text))
    (same : commentMarks commentstbl text = comments .code text) : ReadersAgree text := by
  refine ⟨commentstbl, ran, ?_, deletes, same⟩
  rw [decomment_cuts, deletes]
  rfl

structure Cut (text u x mid y v : Str) : Prop where
  shape : text = u ++ (x ++ 47 :: 42 :: (mid ++ 42 :: 47 :: (y ++ v)))
  span : Span text (u ++ x).length ((u ++ x).length + 2 + mid.length)
  front : u = [] ∨ ∃ u', u = u' ++ [10]
  line : 10 ∉ x
  rest : 10 ∉ y
  back : v = [] ∨ ∃ v', v = 10 :: v'

def OneLine (x mid y : Str) : Prop :=
  10 ∉ mid ∧ (slashes (x ++ y) < x.length ∨ mid = [] ∧ slashes (x ++ [47]) < x.length)

structure Blocks (x mid y : Str) : Prop where
  outside : x.length ≤ slashes (x ++ [47])
  filled : mid ≠ []
  whole : comments .code (47 :: 42 :: (mid ++ [42, 47])) = List.replicate (mid.length + 4) true
  resumes : Resumes (lastLine (47 :: 42 :: (mid ++ [42, 47]))) y

/-- Something follows the first two slashes of every line, apart from those between the first `/*`
and the last `*/`, and there both marks stand in a comment to the end of the line, or all is in
comments. -/
def Agreeable (text : Str) : Prop :=
  (Spanless text ∧ ∀ line ∈ text.splitOn 10, Followed line) ∨
  ∃ u x mid y v, Cut text u x mid y v ∧ (∀ line ∈ u.splitOn 10 ++ v.splitOn 10, Followed line) ∧
    (OneLine x mid y ∨ Blocks x mid y)

theorem last_newline (s : Str) : ∃ u x, s = u ++ x ∧ (u = [] ∨ ∃ u', u = u' ++ [10]) ∧ 10 ∉ x := by
  by_cases flat : 10 ∈ s
  case neg => exact ⟨[], s, rfl, .inl rfl, flat⟩
  case pos =>
    obtain ⟨after, before, shape, first⟩ := List.eq_append_cons_of_mem (List.mem_reverse.mpr flat)
    refine ⟨before.reverse ++ [10], after.reverse, ?_, .inr ⟨before.reverse, rfl⟩, by simpa using first⟩
    rw [← List.reverse_reverse s, shape]
    simp

theorem first_newline (s : Str) : ∃ y v, s = y ++ v ∧ (v = [] ∨ ∃ v', v = 10 :: v') ∧ 10 ∉ y := by
  by_cases flat : 10 ∈ s
  case neg => exact ⟨s, [], (List.append_nil s).symm, .inl rfl, flat⟩
  case pos =>
    obtain ⟨y, v', rfl, first⟩ := List.eq_append_cons_of_mem flat
    exact ⟨y, 10 :: v', rfl, .inr ⟨v', rfl⟩, first⟩

theorem cut_of_span {text : Str} {p q : Nat} (span : Span text p q) : ∃ u x mid y v, Cut text u x mid y v := by
  obtain ⟨u, x, before, front, line⟩ := last_newline (text.take p)
  obtain ⟨y, v, after, back, rest⟩ := first_newline (text.drop (q + 2))
  have inside := span.closes.inside
  have order := span.order
  obtain ⟨inside₁, slash₁⟩ := List.getElem?_eq_some_iff.mp span.opens.1
  obtain ⟨inside₂, star₁⟩ := List.getElem?_eq_some_iff.mp span.opens.2
  obtain ⟨inside₃, star₂⟩ := List.getElem?_eq_some_iff.mp span.closes.1
  obtain ⟨inside₄, slash₂⟩ := List.getElem?_eq_some_iff.mp span.closes.2
  have length : (u ++ x).length = p := by
    rw [← before, List.length_take]
    omega
  have middle : ((text.drop (p + 2)).take (q - (p + 2))).length = q - (p + 2) := by
    rw [List.length_take, List.length_drop]
    omega
  refine ⟨u, x, (text.drop (p + 2)).take (q - (p + 2)), y, v, ?_, ?_, front, line, rest, back⟩
  · have closing : text.drop q = 42 :: 47 :: text.drop (q + 2) := by
      rw [List.drop_eq_getElem_cons inside₃, List.drop_eq_getElem_cons inside₄, star₂, slash₂]
    have opening : text.drop p = 47 :: 42 :: text.drop (p + 2) := by
      rw [List.drop_eq_getElem_cons inside₁, List.drop_eq_getElem_cons inside₂, slash₁, star₁]
    have between : text.drop (p + 2) = (text.drop (p + 2)).take (q - (p + 2)) ++ text.drop q := by
      conv_lhs => rw [← List.take_append_drop (q - (p + 2)) (text.drop (p + 2)), List.drop_drop,
        Nat.add_sub_cancel' order]
    rw [← List.append_assoc, ← before, ← after, ← closing, ← between, ← opening, List.take_append_drop]
  · rw [length, middle, show p + 2 + (q - (p + 2)) = q by omega]
    exact span

namespace Cut

variable {text u x mid y v : Str}

theorem unclosed (cut : Cut text u x mid y v) : ¬ lit "*/" <:+: y ++ v := by
  rw [closes_iff]
  intro h
  obtain ⟨i, star, slash⟩ := h
  have at' (k : Nat) : text[(u ++ x).length + 2 + mid.length + 2 + k]? = (y ++ v)[k]? := by
    rw [cut.shape, ← List.append_assoc, List.getElem?_append_right (by omega),
      show (u ++ x).length + 2 + mid.length + 2 + k - (u ++ x).length = mid.length + 2 + k + 1 + 1 by omega,
      List.getElem?_cons_succ, List.getElem?_cons_succ, List.getElem?_append_right (by omega),
      show mid.length + 2 + k - mid.length = k + 1 + 1 by omega, List.getElem?_cons_succ, List.getElem?_cons_succ]
  exact cut.span.last ((u ++ x).length + 2 + mid.length + 2 + i) (by omega) ⟨(at' i).trans star, (at' (i + 1)).trans slash⟩

theorem spanless_rest (cut : Cut text u x mid y v) : Spanless (y ++ v) :=
  fun _ q _ _ closes => cut.unclosed ((closes_iff _).mpr ⟨q, closes⟩)

theorem spanless_back (cut : Cut text u x mid y v) : Spanless v := by
  intro p q _ _ closes
  refine cut.unclosed ((closes_iff _).mpr ⟨y.length + q, ?_, ?_⟩)
  · rw [List.getElem?_append_right (by omega), Nat.add_sub_cancel_left]
    exact closes.1
  · rw [Nat.add_assoc, List.getElem?_append_right (by omega), Nat.add_sub_cancel_left]
    exact closes.2

theorem unopened (cut : Cut text u x mid y v) {j : Nat} (before : j < (u ++ x).length) (r : Str) :
    (u ++ x ++ 47 :: 42 :: (mid ++ 42 :: 47 :: (y ++ v))).drop j ≠ 47 :: 42 :: r := by
  intro here
  rw [List.append_assoc, ← cut.shape] at here
  refine cut.span.first j before ⟨?_, ?_⟩
  · rw [← List.head?_drop, here]
    rfl
  · rw [← List.head?_drop, ← List.drop_drop, here]
    rfl

/-- What `getcommentset` marks. -/
theorem marks (cut : Cut text u x mid y v) :
    ∃ commentstbl, getcommentset text = .ok commentstbl ∧ commentMarks commentstbl text = singleComments u ++
      ((singleComments (x ++ 47 :: 42 :: (mid ++ 42 :: 47 :: y))).take x.length ++
        (List.replicate (mid.length + 4) true ++
          ((singleComments (x ++ 47 :: 42 :: (mid ++ 42 :: 47 :: y))).drop (x.length + (mid.length + 4)) ++
            singleComments v))) := by
  obtain ⟨commentstbl, ran, marks⟩ := getcommentset_span cut.span
  refine ⟨commentstbl, ran, marks.trans ?_⟩
  have shape : text = u ++ (x ++ 47 :: 42 :: (mid ++ 42 :: 47 :: y) ++ v) := by
    rw [cut.shape]
    simp
  have parts : singleComments text = singleComments u ++
      (singleComments (x ++ 47 :: 42 :: (mid ++ 42 :: 47 :: y)) ++ singleComments v) := by
    conv_lhs => rw [shape]
    rw [singleComments, lineMarks_front keeps_single cut.front, lineMarks_back keeps_single cut.back]
  have long : (singleComments (x ++ 47 :: 42 :: (mid ++ 42 :: 47 :: y))).length = x.length + (mid.length + 4) + y.length := by
    rw [singleComments_length]
    simp
    omega
  have upto : (u ++ x).length = (singleComments u).length + x.length := by
    rw [singleComments_length, List.length_append]
  rw [parts, show (u ++ x).length + 2 + mid.length + 2 = (singleComments u).length + (x.length + (mid.length + 4)) by omega,
    upto, List.take_length_add_append, List.drop_length_add_append, List.take_append_of_le_length (by omega),
    List.drop_append_of_le_length (by omega), List.append_assoc,
    show (singleComments u).length + (x.length + (mid.length + 4)) - ((singleComments u).length + x.length) =
      mid.length + 4 by omega]

/-- What `decomment` deletes, if the marks have a text between them. -/
theorem cuts (cut : Cut text u x mid y v) (filled : mid ≠ []) :
    decommentCuts text = .ok (lineComments u ++ ((lineComments (x ++ y)).take x.length ++
      (List.replicate (mid.length + 4) true ++ ((lineComments (x ++ y)).drop x.length ++ lineComments v)))) := by
  have positive := List.length_pos_iff.mpr filled
  have before : text.take (u ++ x).length = u ++ x := by
    rw [cut.shape, ← List.append_assoc, List.take_append_length]
  have after : text.drop ((u ++ x).length + 2 + mid.length + 2) = y ++ v := by
    have shape : text = (u ++ x ++ 47 :: 42 :: (mid ++ [42, 47])) ++ (y ++ v) := by
      rw [cut.shape]
      simp
    have length : (u ++ x).length + 2 + mid.length + 2 = (u ++ x ++ 47 :: 42 :: (mid ++ [42, 47])).length := by
      simp
      omega
    rw [length, shape, List.drop_append_length]
  have parts : lineComments (u ++ x ++ (y ++ v)) = lineComments u ++ (lineComments (x ++ y) ++ lineComments v) := by
    rw [List.append_assoc, ← List.append_assoc x, lineComments, lineMarks_front (fun _ _ => rfl) cut.front,
      lineMarks_back (fun _ _ => rfl) cut.back]
  have long : (lineComments (x ++ y)).length = x.length + y.length := by
    rw [lineComments_length, List.length_append]
  have upto : (u ++ x).length = (lineComments u).length + x.length := by
    rw [lineComments_length, List.length_append]
  rw [decommentCuts_span cut.span (by omega), before, after, parts,
    show (u ++ x).length + 2 + mid.length + 2 - (u ++ x).length = mid.length + 4 by omega, upto,
    List.take_length_add_append, List.drop_length_add_append, List.take_append_of_le_length (by omega),
    List.drop_append_of_le_length (by omega), List.append_assoc]

theorem cuts_empty (cut : Cut text u x [] y v) :
    decommentCuts text = .ok (lineComments u ++ (lineComments (x ++ 47 :: 42 :: 42 :: 47 :: y) ++ lineComments v)) := by
  have shape : text = u ++ (x ++ 47 :: 42 :: 42 :: 47 :: y ++ v) := by
    rw [cut.shape]
    simp
  have none : ∀ p q, BlockOpens text p → p + 3 ≤ q → ¬ BlockCloses text q := by
    intro p q opens after closes
    have least : (u ++ x).length ≤ p := Nat.le_of_not_lt fun less => cut.span.first p less opens
    exact cut.span.last q (by rw [List.length_nil]; omega) closes
  rw [decommentCuts_lines none]
  conv_lhs => rw [shape]
  rw [lineComments, lineMarks_front (fun _ _ => rfl) cut.front, lineMarks_back (fun _ _ => rfl) cut.back]

theorem reads (cut : Cut text u x mid y v) :
    comments .code text = lineComments u ++ comments .code (x ++ 47 :: 42 :: (mid ++ 42 :: 47 :: (y ++ v))) := by
  conv_lhs => rw [cut.shape]
  cases cut.front with
  | inl empty => rw [empty]; rfl
  | inr newline =>
      obtain ⟨u', same⟩ := newline
      have without : Without 47 42 u' := by
        refine List.isChain_iff_getElem.mpr fun i inside both => ?_
        refine cut.span.first i (by rw [same]; simp; omega) ⟨?_, ?_⟩
        · rw [cut.shape, same, List.append_assoc, List.getElem?_append_left (by omega),
            List.getElem?_eq_getElem (by omega), both.1]
        · rw [cut.shape, same, List.append_assoc, List.getElem?_append_left inside,
            List.getElem?_eq_getElem inside, both.2]
      rw [same, List.append_assoc]
      exact comments_front without _

/-- A newline between the marks is in no comment, if one to the end of the line begins before them. -/
theorem disagree_newline (cut : Cut text u x mid y v) (inside : slashes (x ++ [47]) < x.length) (newline : 10 ∈ mid) :
    ¬ ReadersAgree text := by
  intro h
  obtain ⟨commentstbl, ran, _, _, same⟩ := h
  obtain ⟨commentstbl', ran', marks⟩ := cut.marks
  obtain rfl := Except.ok.inj (ran.symm.trans ran')
  obtain ⟨m, m', rfl, first⟩ := List.eq_append_cons_of_mem newline
  have slash := slashes_slash x (42 :: m) inside
  have flat : 10 ∉ x ++ 47 :: 42 :: m := by simp [cut.line, first]
  have shape : x ++ 47 :: 42 :: (m ++ 10 :: m' ++ 42 :: 47 :: (y ++ v)) =
      (x ++ 47 :: 42 :: m) ++ 10 :: (m' ++ 42 :: 47 :: (y ++ v)) := by simp
  have read := comments_slashes (v := 10 :: (m' ++ 42 :: 47 :: (y ++ v))) flat
    (by rw [slash, List.length_append]; omega) fun j less r here => by
      rw [slash] at less
      refine cut.unopened (j := u.length + j) (by rw [List.length_append]; omega) r ?_
      rw [List.append_assoc, List.drop_length_add_append, shape]
      exact here
  rw [marks, cut.reads, shape, read] at same
  obtain ⟨_, same⟩ := List.append_inj same (by rw [singleComments_length, lineComments_length])
  have here := congrArg (fun marks : List Bool => marks[(x ++ 47 :: 42 :: m).length]?) same
  have long : x.length ≤ (singleComments (x ++ 47 :: 42 :: (m ++ 10 :: m' ++ 42 :: 47 :: y))).length := by
    rw [singleComments_length, List.length_append]
    omega
  rw [List.getElem?_append_right (by rw [List.length_take, List.length_append]; omega), List.length_take,
    min_eq_left long, List.getElem?_append_left (by rw [List.length_replicate]; simp; omega), List.getElem?_replicate,
    if_pos (by simp; omega), List.getElem?_append_right (by rw [lineComments_length]), lineComments_length,
    Nat.sub_self, comments, if_pos rfl] at here
  cases here

theorem marks_middle {k m a n : Nat} (begun : k ≤ a) (inside : a + n ≤ k + m) :
    (List.replicate k false ++ List.replicate m true).take a ++ (List.replicate n true ++
      (List.replicate k false ++ List.replicate m true).drop (a + n)) = List.replicate k false ++ List.replicate m true := by
  conv_rhs => rw [← List.take_append_drop a (List.replicate k false ++ List.replicate m true)]
  rw [marks_drop, marks_drop, show k - (a + n) = 0 by omega, show k - a = 0 by omega, List.replicate_zero,
    List.nil_append, List.nil_append, List.replicate_append_replicate,
    show n + (m - (a + n - k)) = m - (a - k) by omega]

theorem agree_line (cut : Cut text u x mid y v) (inside : slashes (x ++ [47]) < x.length) :
    ReadersAgree text ↔ (singleComments u = lineComments u ∧ singleComments v = lineComments v) ∧ OneLine x mid y := by
  by_cases newline : 10 ∈ mid
  case pos => exact iff_of_false (cut.disagree_newline inside newline) fun h => h.2.1 newline
  case neg =>
    obtain ⟨commentstbl, ran, marks⟩ := cut.marks
    have slash := slashes_slash x (42 :: (mid ++ 42 :: 47 :: y)) inside
    have flat : 10 ∉ x ++ 47 :: 42 :: (mid ++ 42 :: 47 :: y) := by simp [cut.line, newline, cut.rest]
    have long : (x ++ 47 :: 42 :: (mid ++ 42 :: 47 :: y)).length = x.length + (mid.length + 4) + y.length := by
      simp
      omega
    have followed : Followed (x ++ 47 :: 42 :: (mid ++ 42 :: 47 :: y)) := by
      rw [Followed, slash, long]
      omega
    have line := lineComments_flat flat
    have middle := marks_middle (k := slashes (x ++ [47])) (m := x.length + (mid.length + 4) + y.length - slashes (x ++ [47]))
      (a := x.length) (n := mid.length + 4) inside.le (by omega)
    rw [slash, long] at line
    have read : comments .code text = lineComments u ++
        (lineComments (x ++ 47 :: 42 :: (mid ++ 42 :: 47 :: y)) ++ lineComments v) := by
      have shape : x ++ 47 :: 42 :: (mid ++ 42 :: 47 :: (y ++ v)) = x ++ 47 :: 42 :: (mid ++ 42 :: 47 :: y) ++ v := by simp
      rw [cut.reads, shape, comments_slashes flat (by rw [slash, long]; omega) fun j less r here => ?_,
        comments_line_end cut.back, comments_spanless cut.spanless_back]
      rw [slash] at less
      refine cut.unopened (j := u.length + j) (by rw [List.length_append]; omega) r ?_
      rw [List.append_assoc, List.drop_length_add_append, shape]
      exact here
    rw [singleComments_flat flat, if_pos followed, ← List.append_assoc (List.replicate _ true),
      ← List.append_assoc (List.take _ _), line, middle, ← line] at marks
    have equal : commentMarks commentstbl text = comments .code text ↔
        singleComments u = lineComments u ∧ singleComments v = lineComments v := by
      rw [marks, read]
      constructor
      · intro same
        obtain ⟨front, same⟩ := List.append_inj same (by rw [singleComments_length, lineComments_length])
        exact ⟨front, List.append_cancel_left same⟩
      · intro same
        rw [same.1, same.2]
    have deletes : decommentCuts text = .ok (comments .code text) ↔ slashes (x ++ y) < x.length ∨ mid = [] := by
      by_cases empty : mid = []
      case pos =>
        subst empty
        exact iff_of_true (cut.cuts_empty.trans (congrArg Except.ok read.symm)) (.inr rfl)
      case neg =>
        rw [cut.cuts empty, read, Except.ok.injEq, List.append_cancel_left_eq, line]
        have flat' : 10 ∉ x ++ y := by simp [cut.line, cut.rest]
        rw [lineComments_flat flat', marks_take, marks_drop, List.length_append]
        constructor
        · intro same
          refine .inl (Nat.lt_of_not_le fun outside => ?_)
          have here := congrArg (fun marks : List Bool => marks[slashes (x ++ [47])]?) same
          rw [min_eq_left outside, List.append_assoc, List.append_assoc, List.append_assoc,
            List.getElem?_append_left (by rw [List.length_replicate]; exact inside), List.getElem?_replicate, if_pos inside,
            List.getElem?_append_right (by rw [List.length_replicate]), List.length_replicate, Nat.sub_self,
            List.getElem?_append_left (by rw [List.length_replicate]; omega), List.getElem?_replicate,
            if_pos (by omega)] at here
          cases here
        · intro h
          have outer := (slashes_rest x y (h.resolve_right empty)).1
          rw [outer, min_eq_right inside.le, show slashes (x ++ [47]) - x.length = 0 by omega, List.replicate_zero,
            List.nil_append, ← List.append_assoc (List.replicate (mid.length + 4) true),
            List.replicate_append_replicate, ← List.append_assoc, List.append_assoc (List.replicate _ false),
            List.replicate_append_replicate]
          congr 3
          omega
    constructor
    · intro h
      obtain ⟨commentstbl', ran', _, cuts, same⟩ := h
      obtain rfl := Except.ok.inj (ran.symm.trans ran')
      rw [same, deletes] at cuts
      exact ⟨equal.mp same, newline, cuts.imp_right fun empty => ⟨empty, inside⟩⟩
    · intro h
      have same := equal.mpr h.1
      exact readersAgree_of_cuts ran (by rw [same]; exact deletes.mpr (h.2.2.imp_right And.left)) same

theorem singleComments_lastLine (w y : Str) : (singleComments (w ++ y)).drop w.length =
    (singleComments (lastLine w ++ y)).drop (lastLine w).length :=
  lineMarks_lastLine keeps_single w y

theorem marks_outside {opens : Str → Bool} {x : Str} (outside : x.length ≤ slashes (x ++ [47])) (w : Str) :
    lineMarks opens false (x ++ w) = List.replicate x.length false ++ lineMarks opens false w := by
  have skipped := lineMarks_skip opens x.length (x ++ w)
    fun j less r here => absurd here (slashes_none outside less w r)
  rwa [List.length_append, min_eq_left (by omega), List.drop_left] at skipped

theorem reads_outside (cut : Cut text u x mid y v) (outside : x.length ≤ slashes (x ++ [47])) :
    comments .code text = lineComments u ++ (List.replicate x.length false ++
      (true :: true :: comments .block (mid ++ 42 :: 47 :: (y ++ v)))) := by
  have closes : lit "*/" <:+: mid ++ 42 :: 47 :: (y ++ v) :=
    ⟨mid, y ++ v, by simp [show lit "*/" = [42, 47] by decide]⟩
  have skipped := comments_skip x.length (x ++ 47 :: 42 :: (mid ++ 42 :: 47 :: (y ++ v))) fun j less r =>
    ⟨slashes_none outside less _ r, fun here => ?_⟩
  · rw [List.length_append, min_eq_left (by omega), List.drop_left] at skipped
    rw [cut.reads, skipped, comments, if_neg (by decide), if_pos ⟨rfl, rfl, closes⟩]
  · refine cut.unopened (j := u.length + j) (by rw [List.length_append]; omega) r ?_
    rw [List.append_assoc, List.drop_length_add_append]
    exact here

theorem resumes_begun {line rest : Str} (flat : 10 ∉ rest) (begun : [47, 47] <:+: line) (resumes : Resumes line rest) :
    lineComments rest = List.replicate rest.length true := by
  obtain ⟨before, after, rfl⟩ := begun
  have first : slashes (before ++ [47, 47] ++ after ++ rest) ≤ before.length := by
    refine slashes_le_of_drop (r := after ++ rest) ?_
    simp
  rw [lineComments_flat flat]
  cases rest with
  | nil => rfl
  | cons b rest =>
      have followed : Followed (before ++ [47, 47] ++ after ++ b :: rest) := by
        simp only [Followed, List.length_append, List.length_cons] at first ⊢
        omega
      rw [Resumes, if_pos followed] at resumes
      have none : slashes (b :: rest) = 0 := by
        rw [← resumes]
        simp only [List.length_append]
        omega
      rw [none]
      rfl

/-! No comment to the end of the line begins before the span. -/

theorem marks_block (cut : Cut text u x mid y v) (outside : x.length ≤ slashes (x ++ [47])) :
    ∃ commentstbl, getcommentset text = .ok commentstbl ∧
      commentMarks commentstbl text = singleComments u ++ (List.replicate x.length false ++
        (List.replicate (mid.length + 4) true ++
          ((singleComments (lastLine (47 :: 42 :: (mid ++ [42, 47])) ++ y)).drop
            (lastLine (47 :: 42 :: (mid ++ [42, 47]))).length ++ singleComments v))) := by
  obtain ⟨commentstbl, ran, marks⟩ := cut.marks
  have line : singleComments (x ++ 47 :: 42 :: (mid ++ 42 :: 47 :: y)) =
      List.replicate x.length false ++ singleComments (47 :: 42 :: (mid ++ [42, 47]) ++ y) := by
    have joined : x ++ 47 :: 42 :: (mid ++ 42 :: 47 :: y) = x ++ (47 :: 42 :: (mid ++ [42, 47]) ++ y) := by simp
    rw [joined]
    exact marks_outside outside _
  have front : (List.replicate x.length false).length = x.length := List.length_replicate
  have taken := @List.take_append_length _ (List.replicate x.length false)
    (singleComments (47 :: 42 :: (mid ++ [42, 47]) ++ y))
  have dropped := @List.drop_length_add_append _ (List.replicate x.length false)
    (singleComments (47 :: 42 :: (mid ++ [42, 47]) ++ y)) (mid.length + 4)
  have last := singleComments_lastLine (47 :: 42 :: (mid ++ [42, 47])) y
  have span : (47 :: 42 :: (mid ++ [42, 47])).length = mid.length + 4 := by simp
  rw [span] at last
  rw [front] at taken dropped
  exact ⟨commentstbl, ran, by rw [marks, line, taken, dropped, last]⟩

theorem cuts_block (cut : Cut text u x mid y v) (outside : x.length ≤ slashes (x ++ [47])) (filled : mid ≠ []) :
    decommentCuts text = .ok (lineComments u ++ (List.replicate x.length false ++
      (List.replicate (mid.length + 4) true ++ (lineComments y ++ lineComments v)))) := by
  have line : lineComments (x ++ y) = List.replicate x.length false ++ lineComments y := marks_outside outside y
  have front : (List.replicate x.length false).length = x.length := List.length_replicate
  have taken := @List.take_append_length _ (List.replicate x.length false) (lineComments y)
  have dropped := @List.drop_append_length _ (List.replicate x.length false) (lineComments y)
  rw [front] at taken dropped
  rw [cut.cuts filled, line, taken, dropped]

theorem disagree_empty (cut : Cut text u x [] y v) (outside : x.length ≤ slashes (x ++ [47])) :
    ¬ ReadersAgree text := by
  intro h
  obtain ⟨commentstbl, ran, marks⟩ := cut.marks
  obtain ⟨commentstbl', ran', _, cuts, _⟩ := h
  obtain rfl := Except.ok.inj (ran.symm.trans ran')
  have same := Except.ok.inj (cut.cuts_empty.symm.trans cuts)
  rw [marks, lineComments, marks_outside outside, singleComments, marks_outside outside,
    List.take_append_of_le_length (by rw [List.length_replicate]), List.take_replicate, min_self] at same
  obtain ⟨_, same⟩ := List.append_inj same (by rw [lineMarks_length, lineMarks_length])
  rw [List.append_assoc, List.append_cancel_left_eq] at same
  exact absurd (congrArg List.head? same) (by simp [lineMarks])

theorem comments_begun (mid : Str) :
    comments .code (47 :: 42 :: (mid ++ [42, 47])) = true :: true :: comments .block (mid ++ [42, 47]) := by
  have closes : lit "*/" <:+: mid ++ [42, 47] := ⟨mid, [], by simp [show lit "*/" = [42, 47] by decide]⟩
  rw [comments, if_neg (by decide), if_pos ⟨rfl, rfl, closes⟩]

theorem not_closed_nil : ¬ lit "*/" <:+: ([] : Str) := by
  simp [show lit "*/" = [42, 47] by decide]

theorem whole_of_reads (cut : Cut text u x mid y v)
    (read : (comments .block (mid ++ 42 :: 47 :: (y ++ v))).take (mid.length + 2) = List.replicate (mid.length + 2) true) :
    comments .code (47 :: 42 :: (mid ++ [42, 47])) = List.replicate (mid.length + 4) true := by
  rw [comments_begun]
  cases comments_closed mid .block with
  | inr some => exact absurd read (some (y ++ v) cut.unclosed)
  | inl all =>
      obtain ⟨after, _, _, reads⟩ := all
      rw [reads [] not_closed_nil]
      cases after <;> simp [comments, List.replicate_succ]

theorem reads_of_blocks (cut : Cut text u x mid y v) (blocks : Blocks x mid y) :
    comments .block (mid ++ 42 :: 47 :: (y ++ v)) =
      List.replicate (mid.length + 2) true ++ (lineComments y ++ lineComments v) := by
  have whole := blocks.whole
  rw [comments_begun] at whole
  cases comments_closed mid .block with
  | inr some =>
      refine absurd ?_ (some [] not_closed_nil)
      have tail := (List.cons.inj (List.cons.inj whole).2).2
      rw [tail, List.take_replicate, min_self]
  | inl all =>
      obtain ⟨after, closed, begun, read⟩ := all
      rw [read (y ++ v) cut.unclosed]
      congr 1
      cases after with
      | block => exact absurd rfl closed
      | code => rw [comments_spanless cut.spanless_rest, lineComments, lineMarks_back (fun _ _ => rfl) cut.back]
      | line =>
          have inside : [47, 47] <:+: lastLine (47 :: 42 :: (mid ++ [42, 47])) := by
            cases begun rfl with
            | inl never => exact absurd never.1 (by simp)
            | inr inside => exact inside.trans (lastLine_append [47, 42] (mid ++ [42, 47])).isInfix
          rw [comments_line_flat cut.rest, comments_line_end cut.back, comments_spanless cut.spanless_back,
            resumes_begun cut.rest inside blocks.resumes]

theorem agree_block (cut : Cut text u x mid y v) (outside : x.length ≤ slashes (x ++ [47])) :
    ReadersAgree text ↔ (singleComments u = lineComments u ∧ singleComments v = lineComments v) ∧ Blocks x mid y := by
  by_cases empty : mid = []
  case pos =>
    subst empty
    exact iff_of_false (cut.disagree_empty outside) fun h => h.2.filled rfl
  case neg =>
    obtain ⟨commentstbl, ran, marks⟩ := cut.marks_block outside
    have deletes := cut.cuts_block outside empty
    have read := cut.reads_outside outside
    have resumes := @resumes_iff (lastLine (47 :: 42 :: (mid ++ [42, 47]))) y (lastLine_no_newline _) cut.rest
    constructor
    · intro h
      obtain ⟨commentstbl', ran', _, cuts, same⟩ := h
      obtain rfl := Except.ok.inj (ran.symm.trans ran')
      have both := Except.ok.inj (deletes.symm.trans cuts)
      rw [marks] at both same
      rw [read] at same
      obtain ⟨front, both⟩ := List.append_inj both (by rw [singleComments_length, lineComments_length])
      obtain ⟨_, same⟩ := List.append_inj same (by rw [singleComments_length, lineComments_length])
      rw [List.append_cancel_left_eq, List.append_cancel_left_eq] at both
      rw [List.append_cancel_left_eq] at same
      have long : ((singleComments (lastLine (47 :: 42 :: (mid ++ [42, 47])) ++ y)).drop
          (lastLine (47 :: 42 :: (mid ++ [42, 47]))).length).length = (lineComments y).length := by
        rw [List.length_drop, singleComments_length, lineComments_length, List.length_append, Nat.add_sub_cancel_left]
      obtain ⟨rest, back⟩ := List.append_inj both.symm long
      refine ⟨⟨front.symm, back⟩, outside, empty, cut.whole_of_reads ?_, resumes.mp rest⟩
      have taken := congrArg (List.take (mid.length + 4)) same
      rw [List.take_append_of_le_length (by rw [List.length_replicate]), List.take_replicate, min_self,
        List.take_succ_cons, List.take_succ_cons] at taken
      exact (List.cons.inj (List.cons.inj taken).2).2.symm
    · intro h
      obtain ⟨⟨front, back⟩, blocks⟩ := h
      refine readersAgree_of_cuts ran ?_ ?_
      · rw [deletes, marks, resumes.mpr blocks.resumes, front, back]
      · rw [marks, read, cut.reads_of_blocks blocks, resumes.mpr blocks.resumes, front, back]
        rfl

theorem agree_iff (cut : Cut text u x mid y v) :
    ReadersAgree text ↔
      (∀ line ∈ u.splitOn 10 ++ v.splitOn 10, Followed line) ∧ (OneLine x mid y ∨ Blocks x mid y) := by
  have lines : (∀ line ∈ u.splitOn 10 ++ v.splitOn 10, Followed line) ↔
      singleComments u = lineComments u ∧ singleComments v = lineComments v := by
    rw [List.forall_mem_append, ← singleComments_eq_iff, ← singleComments_eq_iff]
  rw [lines]
  by_cases outside : x.length ≤ slashes (x ++ [47])
  case pos =>
    have without : ¬ OneLine x mid y := by
      intro within
      cases within.2 with
      | inl less => exact absurd (slashes_rest x y less).2 (Nat.not_lt_of_le outside)
      | inr less => exact absurd less.2 (Nat.not_lt_of_le outside)
    rw [cut.agree_block outside, or_iff_right without]
  case neg => rw [cut.agree_line (Nat.lt_of_not_le outside), or_iff_left fun blocks => outside blocks.outside]

end Cut

theorem agree_spanless {text : Str} (spanless : Spanless text) :
    ReadersAgree text ↔ ∀ line ∈ text.splitOn 10, Followed line := by
  obtain ⟨commentstbl, ran, marks⟩ := getcommentset_spanless spanless
  have deletes := decommentCuts_lines fun p q opens after => spanless p q opens (by omega)
  rw [← singleComments_eq_iff]
  constructor
  · intro h
    obtain ⟨commentstbl', ran', _, _, same⟩ := h
    obtain rfl := Except.ok.inj (ran.symm.trans ran')
    rw [← marks, same, comments_spanless spanless]
  · intro same
    refine readersAgree_of_cuts ran ?_ ?_
    · rw [deletes, marks, same]
    · rw [marks, same, comments_spanless spanless]

/-- The readers of comments see the comments of a text just when it is agreeable. -/
theorem readersAgree_iff (text : Str) : ReadersAgree text ↔ Agreeable text := by
  cases span_or_none text with
  | inr spanless =>
      rw [agree_spanless spanless]
      constructor
      · intro followed
        exact .inl ⟨spanless, followed⟩
      · intro agreeable
        cases agreeable with
        | inl lines => exact lines.2
        | inr spans =>
            obtain ⟨u, x, mid, y, v, cut, _⟩ := spans
            exact absurd cut.span.closes (spanless _ _ cut.span.opens cut.span.order)
  | inl spans =>
      obtain ⟨p, q, span⟩ := spans
      constructor
      · intro agree
        obtain ⟨u, x, mid, y, v, cut⟩ := cut_of_span span
        exact .inr ⟨u, x, mid, y, v, cut, cut.agree_iff.mp agree⟩
      · intro agreeable
        cases agreeable with
        | inl lines => exact absurd span.closes (lines.1 _ _ span.opens span.order)
        | inr cuts =>
            obtain ⟨u, x, mid, y, v, cut, both⟩ := cuts
            exact cut.agree_iff.mpr both

/-- The text between two comments is taken for one. -/
theorem readersAgree_between : ¬ ∀ text, ReadersAgree text := by
  intro every
  obtain ⟨commentstbl, ran, _, _, same⟩ := every (lit "/*a*/b/*c*/")
  have found : getcommentset (lit "/*a*/b/*c*/") = .ok [(1, 11)] := by decide
  obtain rfl := Except.ok.inj (found.symm.trans ran)
  exact absurd same (by decide)

end Maccer
