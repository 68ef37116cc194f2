import Maccer.CommentMarks

/-! When both readers of comments see the comments of a text. -/

namespace Maccer

open Lua

/-! The first two slashes of a line. -/

def slashes : Str → Nat
  | [] => 0
  | [_] => 1
  | b :: c :: rest => if b = 47 ∧ c = 47 then 0 else slashes (c :: rest) + 1

theorem slashes_le (w : Str) : slashes w ≤ w.length := by
  induction w using slashes.induct with
  | case1 => exact le_rfl
  | case2 => exact le_rfl
  | case3 b c rest here => simp [slashes, here]
  | case4 b c rest here ih => simpa [slashes, here] using ih

def Followed (line : Str) : Prop := slashes line + 2 ≠ line.length

instance (line : Str) : Decidable (Followed line) := by unfold Followed; infer_instance

theorem lineMarks_flat_within {opens : Str → Bool} {w : Str} (flat : 10 ∉ w) :
    lineMarks opens true w = List.replicate w.length true := by
  have whole : w.takeWhile (fun b => decide (b ≠ 10)) = w :=
    List.takeWhile_eq_self_iff.mpr fun b member => decide_eq_true fun same => flat (same ▸ member)
  rw [lineMarks_within, whole, List.drop_length, lineMarks, List.append_nil]

theorem lineMarks_slashes {opens : Str → Bool} {rest : Str} (opened : opens rest = true) :
    lineMarks opens false (47 :: 47 :: rest) = true :: true :: lineMarks opens true rest := by
  rw [lineMarks, if_pos ⟨rfl, rfl, opened⟩]

theorem lineComments_flat {w : Str} (flat : 10 ∉ w) :
    lineComments w = List.replicate (slashes w) false ++ List.replicate (w.length - slashes w) true := by
  induction w using slashes.induct with
  | case1 => rfl
  | case2 => rfl
  | case3 b c rest here =>
      obtain ⟨rfl, rfl⟩ := here
      have flat' : 10 ∉ rest := fun member => flat (by simp [member])
      rw [lineComments, lineMarks_slashes rfl, lineMarks_flat_within flat']
      rfl
  | case4 b c rest here ih =>
      have flat' : 10 ∉ c :: rest := fun member => flat (List.mem_cons_of_mem b member)
      rw [lineComments] at ih ⊢
      rw [lineMarks, if_neg fun both => here ⟨both.1, both.2.1⟩, ih flat', slashes, if_neg here, List.replicate_succ,
        List.length_cons (a := b), Nat.add_sub_add_right]
      rfl

theorem singleComments_flat {w : Str} (flat : 10 ∉ w) :
    singleComments w = if Followed w then lineComments w else List.replicate w.length false := by
  induction w using slashes.induct with
  | case1 => rfl
  | case2 => rfl
  | case3 b c rest here =>
      obtain ⟨rfl, rfl⟩ := here
      have flat' : 10 ∉ rest := fun member => flat (by simp [member])
      cases rest with
      | nil => rfl
      | cons d rest =>
          have apart : d ≠ 10 := fun same => flat' (same ▸ List.mem_cons_self)
          have follows : (d :: rest).head?.any (fun b => decide (b ≠ 10)) = true := decide_eq_true apart
          have followed : Followed (47 :: 47 :: d :: rest) := by simp [Followed, slashes]
          rw [if_pos followed, singleComments, lineMarks_slashes follows, lineComments, lineMarks_slashes rfl,
            lineMarks_flat_within flat', lineMarks_flat_within flat']
  | case4 b c rest here ih =>
      have flat' : 10 ∉ c :: rest := fun member => flat (List.mem_cons_of_mem b member)
      have followed : Followed (b :: c :: rest) ↔ Followed (c :: rest) := by
        simp only [Followed, slashes, if_neg here, List.length_cons]
        omega
      rw [singleComments] at ih ⊢
      rw [lineMarks, if_neg fun both => here ⟨both.1, both.2.1⟩, ih flat']
      simp only [followed]
      split
      case isTrue =>
        rw [lineComments, lineMarks, if_neg fun both => here ⟨both.1, both.2.1⟩]
      case isFalse => rfl

theorem singleComments_eq_iff (text : Str) :
    singleComments text = lineComments text ↔ ∀ line ∈ text.splitOn 10, Followed line := by
  have one {line : Str} (flat : 10 ∉ line) : singleComments line = lineComments line ↔ Followed line := by
    rw [singleComments_flat flat]
    split
    case isTrue followed => exact iff_of_true rfl followed
    case isFalse ends =>
      refine iff_of_false (fun same => ?_) ends
      rw [lineComments_flat flat] at same
      have count := congrArg (List.count true) same
      have bound := slashes_le line
      simp only [Followed, not_not] at ends
      simp [List.count_replicate] at count
      omega
  induction h : text.length using Nat.strong_induction_on generalizing text with
  | _ n ih =>
    by_cases flat : 10 ∈ text
    case neg => rw [List.splitOn_eq_singleton flat, List.forall_mem_singleton, one flat]
    case pos =>
      obtain ⟨line, rest, rfl, first⟩ := List.eq_append_cons_of_mem flat
      have later : singleComments rest = lineComments rest ↔ ∀ line ∈ rest.splitOn 10, Followed line :=
        ih rest.length (by rw [← h, List.length_append, List.length_cons]; omega) rest rfl
      rw [List.splitOn_append_cons_self_of_not_mem first, List.forall_mem_cons, ← one first, ← later, singleComments, lineComments, lineMarks_newline keeps_single, lineMarks_newline fun _ _ => rfl]
      constructor
      · intro same
        obtain ⟨before, after⟩ := List.append_inj same (by rw [lineMarks_length, lineMarks_length])
        exact ⟨before, (List.cons.inj after).2⟩
      · intro same
        rw [same.1, same.2]

/-! The comments, read from left to right. -/

theorem comments_newline (t : Str) : comments .code (10 :: t) = false :: comments .code t := by
  cases t with
  | nil => rfl
  | cons c t => rw [comments, if_neg (by simp), if_neg (by simp)]

theorem comments_line_flat {w : Str} (flat : 10 ∉ w) (v : Str) :
    comments .line (w ++ v) = List.replicate w.length true ++ comments .line v := by
  induction w with
  | nil => rfl
  | cons b w ih =>
      rw [List.mem_cons, not_or] at flat
      rw [List.cons_append, comments, if_neg (Ne.symm flat.1), ih flat.2]
      rfl

theorem comments_line_end {v : Str} (ends : v = [] ∨ ∃ v', v = 10 :: v') : comments .line v = comments .code v := by
  cases ends with
  | inl empty => rw [empty]; rfl
  | inr newline =>
      obtain ⟨v', rfl⟩ := newline
      rw [comments, if_pos rfl, comments_newline]

theorem comments_skip (skip : Nat) (s : Str)
    (absent : ∀ j < skip, ∀ r, s.drop j ≠ 47 :: 47 :: r ∧ s.drop j ≠ 47 :: 42 :: r) :
    comments .code s = List.replicate (min skip s.length) false ++ comments .code (s.drop skip) := by
  induction skip generalizing s with
  | zero => simp
  | succ skip ih =>
      cases s with
      | nil => rfl
      | cons b s =>
          have rest := ih s fun j less r => absent (j + 1) (by omega) r
          have first : comments .code (b :: s) = false :: comments .code s := by
            cases s with
            | nil => rfl
            | cons c s =>
                obtain ⟨line, block⟩ := absent 0 (by omega) s
                rw [comments, if_neg, if_neg]
                · intro here
                  exact block (by rw [here.1, here.2.1]; rfl)
                · intro here
                  exact line (by rw [here.1, here.2]; rfl)
          rw [first, rest, List.length_cons, Nat.succ_min_succ, List.replicate_succ]
          rfl

theorem closes_iff (s : Str) : lit "*/" <:+: s ↔ ∃ q, BlockCloses s q := by
  rw [show lit "*/" = [42, 47] by decide]
  constructor
  · intro inside
    obtain ⟨before, after, rfl⟩ := inside
    refine ⟨before.length, ?_, ?_⟩ <;> simp
  · intro h
    obtain ⟨q, star, slash⟩ := h
    obtain ⟨inside, star⟩ := List.getElem?_eq_some_iff.mp star
    obtain ⟨inside', slash⟩ := List.getElem?_eq_some_iff.mp slash
    refine ⟨s.take q, s.drop (q + 2), ?_⟩
    conv_rhs => rw [← List.take_append_drop q s, List.drop_eq_getElem_cons inside, List.drop_eq_getElem_cons inside',
      star, slash]
    simp

theorem Spanless.tail {b : UInt8} {s : Str} (spanless : Spanless (b :: s)) : Spanless s :=
  fun p q opens after closes => spanless (p + 1) (q + 1) opens (by omega) closes

theorem comments_spanless {s : Str} (spanless : Spanless s) : comments .code s = lineComments s := by
  have general (within : Bool) : comments (if within then .line else .code) s =
      lineMarks (fun _ => true) within s := by
    induction within, s using lineMarks.induct (fun _ => true) with
    | case1 within => cases within <;> rfl
    | case2 rest ih => simpa [comments, lineMarks] using ih spanless.tail
    | case3 b rest newline ih => simpa [comments, lineMarks, newline] using ih spanless.tail
    | case4 => rfl
    | case5 b c rest here ih =>
        obtain ⟨rfl, rfl, _⟩ := here
        simpa [comments, lineMarks] using ih spanless.tail.tail
    | case6 b c rest here ih =>
        have apart : ¬ (b = 47 ∧ c = 47) := fun both => here ⟨both.1, both.2, rfl⟩
        have open' : ¬ (b = 47 ∧ c = 42 ∧ lit "*/" <:+: rest) := by
          intro opens
          obtain ⟨rfl, rfl, closes⟩ := opens
          obtain ⟨q, closes⟩ := (closes_iff rest).mp closes
          exact spanless 0 (q + 2) ⟨rfl, rfl⟩ (by omega) closes
        rw [if_neg Bool.false_ne_true, comments, if_neg apart, if_neg open', lineMarks, if_neg here]
        exact congrArg (false :: ·) (ih spanless.tail)
  exact general false

theorem comments_front {w : Str} (without : Without 47 42 w) (t : Str) :
    comments .code (w ++ 10 :: t) = lineComments (w ++ [10]) ++ comments .code t := by
  have general (within : Bool) : comments (if within then .line else .code) (w ++ 10 :: t) =
      lineMarks (fun _ => true) within w ++ false :: comments .code t := by
    induction within, w using lineMarks.induct (fun _ => true) with
    | case1 within =>
        cases within with
        | false => exact comments_newline t
        | true => simp [comments, lineMarks]
    | case2 rest ih => simpa [comments, lineMarks] using ih (List.isChain_cons.mp without).2
    | case3 b rest newline ih => simpa [comments, lineMarks, newline] using ih (List.isChain_cons.mp without).2
    | case4 b =>
        rw [if_neg Bool.false_ne_true, List.singleton_append, comments, if_neg (by simp), if_neg (by simp),
          comments_newline]
        rfl
    | case5 b c rest here ih =>
        obtain ⟨rfl, rfl, _⟩ := here
        simpa [comments, lineMarks] using ih (List.isChain_cons_cons.mp without).2.tail
    | case6 b c rest here ih =>
        have apart : ¬ (b = 47 ∧ c = 47) := fun both => here ⟨both.1, both.2, rfl⟩
        obtain ⟨none, later⟩ := List.isChain_cons_cons.mp without
        rw [if_neg Bool.false_ne_true, List.cons_append, List.cons_append, comments, if_neg apart,
          if_neg fun opens => none ⟨opens.1, opens.2.1⟩, lineMarks, if_neg here]
        exact congrArg (false :: ·) (ih later)
  have split := @lineMarks_newline (fun _ => true) (fun _ _ => rfl) false w []
  rw [lineComments, split, List.append_assoc]
  exact general false

def lastLine (s : Str) : Str := s.rtakeWhile (· ≠ 10)

theorem lastLine_no_newline (s : Str) : 10 ∉ lastLine s := by
  intro member
  have apart := List.mem_rtakeWhile_imp (p := fun b => decide (b ≠ 10)) member
  exact absurd apart (by decide)

theorem lastLine_flat {s : Str} (flat : 10 ∉ s) : lastLine s = s :=
  List.rtakeWhile_eq_self_iff.mpr fun _ member => decide_eq_true fun same => flat (same ▸ member)

theorem lastLine_cons (b : UInt8) (s : Str) : lastLine s <:+ lastLine (b :: s) := by
  rw [lastLine, lastLine, List.rtakeWhile, List.rtakeWhile, List.reverse_suffix, List.reverse_cons, List.takeWhile_append]
  split
  case isTrue whole =>
    have same : s.reverse.takeWhile (fun b => decide (b ≠ 10)) = s.reverse :=
      (List.takeWhile_prefix _).eq_of_length whole
    rw [same]
    exact List.prefix_append _ _
  case isFalse => exact List.prefix_refl _

theorem lastLine_append (front s : Str) : lastLine s <:+ lastLine (front ++ s) := by
  induction front with
  | nil => exact List.suffix_refl _
  | cons b front ih => exact ih.trans (lastLine_cons b (front ++ s))

def ReadUp (reading : Reading) (s : Str) : Prop :=
  (∃ after, after ≠ .block ∧
    (after = .line → (reading = .line ∧ 10 ∉ s) ∨ [47, 47] <:+: lastLine (s ++ [42, 47])) ∧
    ∀ b, ¬ lit "*/" <:+: b → comments reading (s ++ 42 :: 47 :: b) =
      List.replicate (s.length + 2) true ++ comments after b) ∨
  ∀ b, ¬ lit "*/" <:+: b →
    (comments reading (s ++ 42 :: 47 :: b)).take (s.length + 2) ≠ List.replicate (s.length + 2) true

theorem ReadUp.unmarked {reading : Reading} {s : Str}
    (step : ∀ b, ¬ lit "*/" <:+: b → (comments reading (s ++ 42 :: 47 :: b)).head? = some false) :
    ReadUp reading s := by
  refine .inr fun b last same => ?_
  have first := congrArg List.head? same
  rw [List.head?_take, if_neg (by simp), step b last, List.head?_replicate, if_neg (by simp)] at first
  cases first

theorem ReadUp.marked {reading next : Reading} {s : Str} (front : Str) (read : ReadUp next s)
    (step : ∀ b, ¬ lit "*/" <:+: b → comments reading (front ++ s ++ 42 :: 47 :: b) =
      List.replicate front.length true ++ comments next (s ++ 42 :: 47 :: b))
    (line : next = .line → 10 ∉ s →
      [47, 47] <:+: lastLine (front ++ s ++ [42, 47]) ∨ (reading = .line ∧ 10 ∉ front)) :
    ReadUp reading (front ++ s) := by
  have length : (front ++ s).length + 2 = front.length + (s.length + 2) := by rw [List.length_append, Nat.add_assoc]
  rw [ReadUp, length]
  cases read with
  | inl all =>
      obtain ⟨after, closed, last, read⟩ := all
      refine .inl ⟨after, closed, fun same => ?_, fun b last => ?_⟩
      · cases last same with
        | inr inside =>
            rw [List.append_assoc]
            exact .inr (inside.trans (lastLine_append front (s ++ [42, 47])).isInfix)
        | inl within =>
            cases line within.1 within.2 with
            | inl inside => exact .inr inside
            | inr still =>
                exact .inl ⟨still.1, fun member => (List.mem_append.mp member).elim still.2 within.2⟩
      · rw [step b last, read b last, ← List.append_assoc, List.replicate_append_replicate]
  | inr some =>
      refine .inr fun b last same => some b last ?_
      rw [step b last, List.take_append, List.length_replicate, Nat.add_sub_cancel_left,
        List.take_of_length_le (by rw [List.length_replicate]; omega), List.replicate_add] at same
      exact List.append_cancel_left same

theorem comments_closed (s : Str) (reading : Reading) : ReadUp reading s := by
  induction h : s.length using Nat.strong_induction_on generalizing s reading with
  | _ n ih =>
    have later (reading : Reading) (s' : Str) (shorter : s'.length < s.length) : ReadUp reading s' :=
      ih s'.length (h ▸ shorter) s' reading rfl
    cases reading with
    | line =>
        cases s with
        | nil => exact .inl ⟨.line, by simp, fun _ => .inl ⟨rfl, List.not_mem_nil⟩, fun b _ => by simp [comments]⟩
        | cons c s =>
            by_cases newline : c = 10
            · exact .unmarked fun b _ => by simp [comments, newline]
            · refine .marked [c] (later .line s (by simp)) (fun b _ => ?_) fun _ _ => .inr ⟨rfl, ?_⟩
              · simp [comments, newline]
              · simpa using Ne.symm newline
    | block =>
        cases s with
        | nil => exact .inl ⟨.code, by simp, by simp, fun b _ => by simp [comments]⟩
        | cons c s =>
            cases s with
            | nil => exact .marked [c] (later .block [] (by simp)) (fun b _ => by simp [comments]) (by simp)
            | cons d s =>
                by_cases closes : c = 42 ∧ d = 47
                · exact .marked [c, d] (later .code s (by simp)) (fun b _ => by simp [comments, closes]) (by simp)
                · exact .marked [c] (later .block (d :: s) (by simp)) (fun b _ => by simp [comments, closes]) (by simp)
    | code =>
        cases s with
        | nil => exact .unmarked fun b _ => by simp [comments]
        | cons c s =>
            cases s with
            | nil =>
                refine .unmarked fun b last => ?_
                have none : ¬ lit "*/" <:+: 47 :: b := by
                  intro inside
                  cases List.infix_cons_iff.mp inside with
                  | inl front => exact absurd front (by simp [show lit "*/" = [42, 47] by decide])
                  | inr rest => exact last rest
                simp [comments, none]
            | cons d s =>
                by_cases line : c = 47 ∧ d = 47
                · obtain ⟨rfl, rfl⟩ := line
                  refine .marked [47, 47] (later .line s (by simp)) (fun b _ => by simp [comments]) fun _ flat => .inl ?_
                  rw [lastLine_flat (by simpa using flat)]
                  exact ⟨[], s ++ [42, 47], by simp⟩
                · by_cases block : c = 47 ∧ d = 42
                  · obtain ⟨rfl, rfl⟩ := block
                    refine .marked [47, 42] (later .block s (by simp)) (fun b _ => ?_) (by simp)
                    have closes : lit "*/" <:+: s ++ 42 :: 47 :: b := ⟨s, b, by simp [show lit "*/" = [42, 47] by decide]⟩
                    simp [comments, closes]
                  · refine .unmarked fun b _ => ?_
                    rw [List.cons_append, List.cons_append, comments, if_neg line, if_neg fun both => block ⟨both.1, both.2.1⟩]
                    rfl

/-! Marks of parts of a text. -/

theorem lineMarks_front {opens : Str → Bool} (keeps : ∀ r t, opens (r ++ 10 :: t) = opens r) {u : Str}
    (front : u = [] ∨ ∃ u', u = u' ++ [10]) (w : Str) :
    lineMarks opens false (u ++ w) = lineMarks opens false u ++ lineMarks opens false w := by
  cases front with
  | inl empty => rw [empty]; rfl
  | inr newline =>
      obtain ⟨u', rfl⟩ := newline
      rw [List.append_assoc, List.singleton_append, lineMarks_newline keeps, lineMarks_newline keeps, List.append_assoc]
      rfl

theorem lineMarks_back {opens : Str → Bool} (keeps : ∀ r t, opens (r ++ 10 :: t) = opens r) {v : Str}
    (back : v = [] ∨ ∃ v', v = 10 :: v') (w : Str) :
    lineMarks opens false (w ++ v) = lineMarks opens false w ++ lineMarks opens false v := by
  cases back with
  | inl empty => rw [empty, List.append_nil]; exact (List.append_nil _).symm
  | inr newline =>
      obtain ⟨v', rfl⟩ := newline
      have alone := lineMarks_newline keeps false [] v'
      rw [List.nil_append] at alone
      rw [lineMarks_newline keeps, alone]
      rfl

theorem lastLine_newline (w : Str) {w' : Str} (flat : 10 ∉ w') : lastLine (w ++ 10 :: w') = w' := by
  have whole : ∀ b ∈ w'.reverse, decide (b ≠ 10) = true :=
    fun b member => decide_eq_true fun same => flat (same ▸ List.mem_reverse.mp member)
  rw [lastLine, List.rtakeWhile, List.reverse_append, List.reverse_cons, List.append_assoc,
    List.takeWhile_append_of_pos whole]
  simp

theorem lineMarks_lastLine {opens : Str → Bool} (keeps : ∀ r t, opens (r ++ 10 :: t) = opens r) (w y : Str) :
    (lineMarks opens false (w ++ y)).drop w.length =
      (lineMarks opens false (lastLine w ++ y)).drop (lastLine w).length := by
  by_cases flat : 10 ∈ w
  case neg => rw [lastLine_flat flat]
  case pos =>
    obtain ⟨after, before, shape, first⟩ := List.eq_append_cons_of_mem (List.mem_reverse.mpr flat)
    obtain rfl : w = before.reverse ++ 10 :: after.reverse := by
      rw [← List.reverse_reverse w, shape]
      simp
    rw [lastLine_newline _ (by simpa using first), List.append_assoc, List.cons_append, lineMarks_newline keeps,
      List.length_append, ← lineMarks_length opens false before.reverse, List.drop_length_add_append]
    rfl

theorem marks_eq_iff {a b c d : Nat} :
    List.replicate a false ++ List.replicate b true = List.replicate c false ++ List.replicate d true ↔
      a = c ∧ b = d := by
  constructor
  · intro same
    have none := congrArg (List.count false) same
    have some := congrArg (List.count true) same
    simp [List.count_replicate] at none some
    exact ⟨none, some⟩
  · intro h
    rw [h.1, h.2]

theorem marks_drop (a b n : Nat) : (List.replicate a false ++ List.replicate b true).drop n =
    List.replicate (a - n) false ++ List.replicate (b - (n - a)) true := by
  rw [List.drop_append, List.drop_replicate, List.drop_replicate, List.length_replicate]

theorem marks_take (a b n : Nat) : (List.replicate a false ++ List.replicate b true).take n =
    List.replicate (min n a) false ++ List.replicate (min (n - a) b) true := by
  rw [List.take_append, List.take_replicate, List.take_replicate, List.length_replicate]

def Resumes (line rest : Str) : Prop :=
  if Followed (line ++ rest) then slashes (line ++ rest) - line.length = slashes rest
  else slashes rest = rest.length

theorem resumes_iff {line rest : Str} (flat : 10 ∉ line) (flat' : 10 ∉ rest) :
    (singleComments (line ++ rest)).drop line.length = lineComments rest ↔ Resumes line rest := by
  have whole : 10 ∉ line ++ rest := fun member => (List.mem_append.mp member).elim flat flat'
  have bound := slashes_le (line ++ rest)
  have bound' := slashes_le rest
  rw [List.length_append] at bound
  rw [singleComments_flat whole, Resumes, lineComments_flat flat']
  split
  case isTrue =>
    rw [lineComments_flat whole, marks_drop, marks_eq_iff, List.length_append]
    omega
  case isFalse =>
    have none := marks_eq_iff (a := rest.length) (b := 0) (c := slashes rest) (d := rest.length - slashes rest)
    rw [List.replicate_zero, List.append_nil] at none
    rw [List.drop_replicate, List.length_append, Nat.add_sub_cancel_left, none]
    omega

/-! Where the first two slashes stand in parts of a line. -/

theorem slashes_absent {w : Str} {j : Nat} (less : j < slashes w) (r : Str) : w.drop j ≠ 47 :: 47 :: r := by
  induction w using slashes.induct generalizing j with
  | case1 => exact absurd less (Nat.not_lt_zero j)
  | case2 b =>
      obtain rfl : j = 0 := Nat.lt_one_iff.mp less
      simp
  | case3 b c rest here => rw [slashes, if_pos here] at less; exact absurd less (Nat.not_lt_zero j)
  | case4 b c rest here ih =>
      rw [slashes, if_neg here] at less
      cases j with
      | zero =>
          intro same
          simp only [List.drop_zero, List.cons.injEq] at same
          exact here ⟨same.1, same.2.1⟩
      | succ j => exact ih (Nat.lt_of_succ_lt_succ less)

theorem slashes_present {w : Str} (some : slashes w < w.length) : ∃ r, w.drop (slashes w) = 47 :: 47 :: r := by
  induction w using slashes.induct with
  | case1 => exact absurd some (Nat.not_lt_zero _)
  | case2 => exact absurd some (Nat.lt_irrefl _)
  | case3 b c rest here =>
      rw [slashes, if_pos here, here.1, here.2]
      exact ⟨rest, rfl⟩
  | case4 b c rest here ih =>
      rw [slashes, if_neg here] at some ⊢
      exact ih (Nat.lt_of_succ_lt_succ some)

theorem slashes_le_of_drop {w : Str} {j : Nat} {r : Str} (here : w.drop j = 47 :: 47 :: r) : slashes w ≤ j :=
  Nat.le_of_not_lt fun less => slashes_absent less r here

theorem drop_front {x w r : Str} {j : Nat} (inside : j < x.length) (here : (x ++ w).drop j = 47 :: 47 :: r)
    (w' : Str) (next : j + 1 < x.length ∨ w'.head? = some 47) : ∃ r', (x ++ w').drop j = 47 :: 47 :: r' := by
  rw [List.drop_append_of_le_length inside.le] at here ⊢
  cases shape : x.drop j with
  | nil =>
      have length := congrArg List.length shape
      rw [List.length_drop, List.length_nil] at length
      omega
  | cons b rest =>
      rw [shape, List.cons_append, List.cons.injEq] at here
      obtain ⟨rfl, here⟩ := here
      cases rest with
      | cons c rest =>
          rw [List.cons_append, List.cons.injEq] at here
          exact ⟨rest ++ w', by rw [here.1]; rfl⟩
      | nil =>
          have length := congrArg List.length shape
          rw [List.length_drop, List.length_singleton] at length
          cases next with
          | inl more => omega
          | inr head =>
              obtain ⟨r', rfl⟩ := List.head?_eq_some_iff.mp head
              exact ⟨r', rfl⟩

theorem slashes_le_front {x w w' : Str} (inside : slashes (x ++ w) < x.length)
    (next : slashes (x ++ w) + 1 < x.length ∨ w'.head? = some 47) : slashes (x ++ w') ≤ slashes (x ++ w) := by
  obtain ⟨r, here⟩ := @slashes_present (x ++ w) (by rw [List.length_append]; omega)
  obtain ⟨r', same⟩ := drop_front inside here w' next
  exact slashes_le_of_drop same

/-- Two slashes begin in `x` just when they do with one more slash after it, if what follows begins with a slash. -/
theorem slashes_slash (x r : Str) (some : slashes (x ++ [47]) < x.length) :
    slashes (x ++ 47 :: r) = slashes (x ++ [47]) := by
  have upper : slashes (x ++ 47 :: r) ≤ slashes (x ++ [47]) := slashes_le_front some (.inr rfl)
  apply Nat.le_antisymm upper
  exact slashes_le_front (by omega) (.inr rfl)

theorem slashes_rest (x y : Str) (some : slashes (x ++ y) < x.length) :
    slashes (x ++ y) = slashes (x ++ [47]) ∧ slashes (x ++ [47]) < x.length := by
  have upper : slashes (x ++ [47]) ≤ slashes (x ++ y) := slashes_le_front some (.inr rfl)
  refine ⟨Nat.le_antisymm ?_ upper, by omega⟩
  by_contra less
  exact less (slashes_le_front (by omega) (.inl (by omega)))

theorem slashes_none {x : Str} (none : x.length ≤ slashes (x ++ [47])) {j : Nat} (inside : j < x.length) (w r : Str) :
    (x ++ w).drop j ≠ 47 :: 47 :: r := by
  intro here
  obtain ⟨r', here'⟩ := drop_front inside here [47] (.inr rfl)
  have upper := slashes_le_of_drop here'
  omega

theorem comments_slashes {w v : Str} (flat : 10 ∉ w) (some : slashes w < w.length)
    (none : ∀ j < slashes w, ∀ r, (w ++ v).drop j ≠ 47 :: 42 :: r) :
    comments .code (w ++ v) = lineComments w ++ comments .line v := by
  obtain ⟨r, here⟩ := slashes_present some
  have shape : w = w.take (slashes w) ++ 47 :: 47 :: r := by
    conv_lhs => rw [← List.take_append_drop (slashes w) w, here]
  have flat' : 10 ∉ r := fun member => flat (by rw [shape]; simp [member])
  have length := congrArg List.length here
  rw [List.length_drop, List.length_cons, List.length_cons] at length
  have skipped := comments_skip (slashes w) (w ++ v) fun j less r => ⟨?_, none j less r⟩
  · rw [List.length_append, min_eq_left (by omega), List.drop_append_of_le_length some.le, here] at skipped
    rw [skipped, List.cons_append, List.cons_append, comments, if_pos ⟨rfl, rfl⟩, comments_line_flat flat' v,
      lineComments_flat flat, length, List.append_assoc]
    rfl
  · intro front
    obtain ⟨r', front'⟩ := drop_front (by omega) front [] (.inl (by omega))
    rw [List.append_nil] at front'
    exact slashes_absent less r' front'

end Maccer
