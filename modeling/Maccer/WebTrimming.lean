import Maccer.MacWeb
import Maccer.Trimming

/-! What `ignorechars` of `mac-web.lua` takes off a token. Its right end stays on the last
character, so that only a word with nothing to keep is taken apart wrongly. -/

namespace Maccer

open Lua

namespace Tables

variable (t : Tables)

section Passes

/-! One pass of the loop. -/

variable (wstart wend : Int) (userignore : Bool)

theorem webTrimOnce_single (c : Str) (decodes : Utf8.Decodes [c]) (bad : t.ignores c = true) :
    ∃ userignore', t.webTrimOnce [c].flatten ⟨some [c].flatten, wstart, wend, 1, userignore⟩ =
      .ok (⟨none, wstart + c.length, wend - c.length, -1, userignore'⟩, false) := by
  have first := Utf8.sub_char decodes (i := 0) rfl
  have rest := Utf8.sub_from decodes 1
  simp only [Nat.cast_zero, zero_add] at first
  rw [show ((1 : Nat) : Int) + 1 = 2 from rfl] at rest
  have gone : Utf8.sub [] 1 (1 - 1 - 1) = .ok [] := rfl
  refine ⟨userignore || c == USER_IGNORE, ?_⟩
  simp only [webTrimOnce, webTrimLeft, webTrimRight, first, run_bind_ok, bad, if_true, rest, List.drop_succ_cons,
    List.drop_nil, List.flatten_nil, gone, run_pure]
  rfl

variable {cs : List Str} (decodes : Utf8.Decodes cs) {left right : Str}
  (head : cs.head? = some left) (last : cs.getLast? = some right)
include decodes head last

theorem webTrimOnce_ends (p : Nat) (size : cs.length = p + 1) :
    Utf8.sub cs.flatten 1 1 = .ok left ∧ Utf8.sub cs.flatten cs.length cs.length = .ok right ∧
      Utf8.sub cs.flatten 2 (-1) = .ok (cs.drop 1).flatten := by
  have first := Utf8.sub_char decodes (i := 0) (List.head?_eq_getElem? ▸ head)
  have final := Utf8.sub_char decodes (i := p) (by rw [← last, List.getLast?_eq_getElem?, size]; rfl)
  have rest := Utf8.sub_from decodes 1
  simp only [Nat.cast_zero, zero_add] at first
  rw [size, Nat.cast_succ]
  exact ⟨first, final, rest⟩

theorem webTrimOnce_good (keep : t.ignores left = false) (good : t.ignores right = false) :
    t.webTrimOnce cs.flatten ⟨some cs.flatten, wstart, wend, cs.length, userignore⟩ =
      .ok (⟨some cs.flatten, wstart, wend, cs.length, userignore⟩, true) := by
  obtain ⟨p, size⟩ : ∃ p, cs.length = p + 1 := by
    cases cs with
    | nil => simp at head
    | cons c cs => exact ⟨cs.length, rfl⟩
  obtain ⟨first, final, _⟩ := webTrimOnce_ends decodes head last p size
  simp only [webTrimOnce, webTrimLeft, webTrimRight, first, final, run_bind_ok, run_pure, keep, good,
    Bool.false_eq_true, if_false, if_neg (by omega : ¬ (cs.length : Int) < 1), Bool.not_false, Bool.and_self]

theorem webTrimOnce_left (more : 2 ≤ cs.length) (drop : t.ignores left = true) (good : t.ignores right = false) :
    t.webTrimOnce cs.flatten ⟨some cs.flatten, wstart, wend, cs.length, userignore⟩ =
      .ok (⟨some (cs.drop 1).flatten, wstart + left.length, wend, (cs.drop 1).length,
        userignore || left == USER_IGNORE⟩, false) := by
  obtain ⟨first, final, rest⟩ := webTrimOnce_ends decodes head last (cs.length - 1) (by omega)
  have shorter : ((cs.drop 1).length : Int) = cs.length - 1 := by
    rw [List.length_drop]
    omega
  simp only [webTrimOnce, webTrimLeft, webTrimRight, first, final, rest, run_bind_ok, run_pure, drop, good,
    Bool.false_eq_true, if_false, if_true, shorter, if_neg (by omega : ¬ (cs.length : Int) - 1 < 1),
    Bool.not_true, Bool.false_and]

theorem webTrimOnce_right (more : 2 ≤ cs.length) (keep : t.ignores left = false) (bad : t.ignores right = true) :
    t.webTrimOnce cs.flatten ⟨some cs.flatten, wstart, wend, cs.length, userignore⟩ =
      .ok (⟨some cs.dropLast.flatten, wstart, wend - right.length, cs.dropLast.length, userignore⟩, false) := by
  obtain ⟨first, final, rest⟩ := webTrimOnce_ends decodes head last (cs.length - 1) (by omega)
  have front := Utf8.sub_upto decodes (cs.length - 1) (by omega)
  have shorter : (cs.dropLast.length : Int) = cs.length - 1 := by
    rw [List.length_dropLast]
    omega
  rw [← List.dropLast_eq_take, show ((cs.length - 1 : Nat) : Int) = (cs.length : Int) - 1 by omega] at front
  simp only [webTrimOnce, webTrimLeft, webTrimRight, first, final, front, run_bind_ok, run_pure, keep, bad,
    Bool.false_eq_true, if_false, if_true, shorter, if_neg (by omega : ¬ (cs.length : Int) - 1 < 1),
    Bool.not_true, Bool.and_false]

theorem webTrimOnce_both (more : 2 ≤ cs.length) (drop : t.ignores left = true) (bad : t.ignores right = true) :
    ∃ userignore', t.webTrimOnce cs.flatten ⟨some cs.flatten, wstart, wend, cs.length, userignore⟩ =
      .ok (⟨if cs.length = 2 then none else some (cs.drop 1).dropLast.flatten, wstart + left.length,
        wend - right.length, (cs.drop 1).dropLast.length, userignore'⟩, false) := by
  obtain ⟨first, final, rest⟩ := webTrimOnce_ends decodes head last (cs.length - 1) (by omega)
  have front := Utf8.sub_upto (decodes.drop 1) ((cs.drop 1).length - 1) (by omega)
  have shorter : ((cs.drop 1).dropLast.length : Int) = cs.length - 1 - 1 := by
    rw [List.length_dropLast, List.length_drop]
    omega
  rw [← List.dropLast_eq_take, show (((cs.drop 1).length - 1 : Nat) : Int) = (cs.length : Int) - 1 - 1 by
    rw [List.length_drop]; omega] at front
  refine ⟨userignore || left == USER_IGNORE, ?_⟩
  simp only [webTrimOnce, webTrimLeft, webTrimRight, first, final, rest, front, run_bind_ok, run_pure, drop, bad,
    if_true, shorter, Bool.not_true, Bool.false_and]
  by_cases two : cs.length = 2
  · rw [if_pos two, if_pos (by omega)]
  · rw [if_neg two, if_neg (by omega)]

end Passes

/-! The loop. -/

theorem webTrimEnds_step {fuel : Nat} {w : Str} {wstart wend posright : Int} {userignore : Bool} {e : WebEnds}
    {good : Bool} (pass : t.webTrimOnce w ⟨some w, wstart, wend, posright, userignore⟩ = .ok (e, good)) :
    t.webTrimEnds (fuel + 1) ⟨some w, wstart, wend, posright, userignore⟩ =
      if good then .ok e else t.webTrimEnds fuel e := by
  rw [webTrimEnds]
  simp only [pass, run_bind_ok, run_pure]

theorem two_ends {cs : List Str} (more : 2 ≤ cs.length) :
    ∃ left mid right, cs = left :: (mid ++ [right]) := by
  obtain ⟨left, rest, rfl⟩ := List.exists_cons_of_ne_nil (List.ne_nil_of_length_pos (l := cs) (by omega))
  obtain ⟨mid, right, rfl⟩ : ∃ mid right, rest = mid ++ [right] :=
    ⟨_, _, (List.dropLast_append_getLast (List.ne_nil_of_length_pos
      (by rw [List.length_cons] at more; omega))).symm⟩
  exact ⟨left, mid, right, rfl⟩

/-- A word of characters to ignore is given up in its middle: the end is behind the first half of it. -/
theorem webTrimEnds_all (fuel : Nat) (cs : List Str) (decodes : Utf8.Decodes cs) (some : cs ≠ [])
    (all : ∀ c ∈ cs, t.ignores c = true) (enough : cs.length < fuel) (wstart wend : Int) (userignore : Bool)
    (span : wend = wstart + cs.flatten.length - 1) :
    ∃ e, t.webTrimEnds fuel ⟨.some cs.flatten, wstart, wend, cs.length, userignore⟩ = .ok e ∧ e.w = none ∧
      e.wend = wstart + (cs.take (cs.length / 2)).flatten.length - 1 := by
  induction fuel generalizing cs wstart wend userignore with
  | zero => omega
  | succ fuel ih =>
      have positive := List.length_pos_iff.mpr some
      obtain ⟨fuel, rfl⟩ : ∃ n, fuel = n + 1 := ⟨fuel - 1, by omega⟩
      by_cases more : 2 ≤ cs.length
      · obtain ⟨left, mid, right, rfl⟩ := two_ends more
        obtain ⟨userignore', pass⟩ := t.webTrimOnce_both wstart wend userignore decodes
          rfl (List.getLast?_concat (l := left :: mid)) more (all left (by simp)) (all right (by simp))
        have parts : (left :: (mid ++ [right])).flatten.length = left.length + mid.flatten.length + right.length := by
          simp only [List.flatten_cons, List.flatten_append, List.flatten_nil, List.length_append,
            List.length_nil]
          omega
        have inner : ((left :: (mid ++ [right])).drop 1).dropLast = mid := by simp
        rw [t.webTrimEnds_step pass, if_neg (by simp), inner]
        by_cases empty : mid = []
        · subst empty
          refine ⟨_, rfl, rfl, ?_⟩
          simp only [List.flatten_nil, List.length_nil] at parts
          simp
          omega
        · have long := List.length_pos_iff.mpr empty
          rw [if_neg (by simp; omega)]
          obtain ⟨e, run, gone, last⟩ := ih mid (inner ▸ (decodes.drop 1).dropLast) empty
            (fun c member => all c (by simp [member])) (by simp at enough; omega) (wstart + left.length)
            (wend - right.length) userignore' (by omega)
          refine ⟨e, run, gone, ?_⟩
          have half : (left :: (mid ++ [right])).length / 2 = mid.length / 2 + 1 := by
            simp only [List.length_cons, List.length_append, List.length_nil]
            omega
          rw [half, List.take_succ_cons, List.take_append_of_le_length (by omega), last]
          simp only [List.flatten_cons, List.length_append, Nat.cast_add]
          omega
      · obtain ⟨c, rfl⟩ := List.length_eq_one_iff.mp (show cs.length = 1 by omega)
        obtain ⟨userignore', pass⟩ := t.webTrimOnce_single wstart wend userignore c decodes (all c (by simp))
        refine ⟨_, t.webTrimEnds_step pass, rfl, ?_⟩
        simp only [List.flatten_singleton] at span
        simp
        omega

theorem strip_left (c : Str) (cs : List Str) (bad : t.ignores c = true) : t.strip (c :: cs) = t.strip cs := by
  rw [strip, List.dropWhile_cons_of_pos bad, strip]

theorem not_all_split {cs : List Str} (keep : ¬ ∀ c ∈ cs, t.ignores c = true) :
    ∃ front a back, cs = front ++ a :: back ∧ t.ignores a = false ∧ ∀ c ∈ back, t.ignores c = true := by
  induction cs with
  | nil => simp at keep
  | cons c cs ih =>
      by_cases later : ∀ d ∈ cs, t.ignores d = true
      · refine ⟨[], c, cs, rfl, ?_, later⟩
        by_contra bad
        have bad' : t.ignores c = true := by simpa using bad
        exact keep fun d member => (List.mem_cons.mp member).elim (fun same => same ▸ bad') (later d)
      · obtain ⟨front, a, back, rfl, good, rest⟩ := ih later
        exact ⟨c :: front, a, back, rfl, good, rest⟩

theorem strip_right (cs : List Str) (c : Str) (bad : t.ignores c = true)
    (keep : ¬ ∀ d ∈ cs, t.ignores d = true) :
    t.strip (cs ++ [c]) = t.strip cs ∧ (cs ++ [c]).takeWhile t.ignores = cs.takeWhile t.ignores := by
  obtain ⟨front, a, back, rfl, good, rest⟩ := t.not_all_split keep
  have shape : front ++ a :: back ++ [c] = front ++ a :: (back ++ [c]) := by simp
  have rest' : ∀ d ∈ back ++ [c], t.ignores d = true := by
    intro d member
    rcases List.mem_append.mp member with old | new
    · exact rest d old
    · rwa [List.mem_singleton.mp new]
  rw [shape, t.strip_ends front (back ++ [c]) a good rest', t.strip_ends front back a good rest,
    (ends_kept t.ignores front (back ++ [c]) a good).2, (ends_kept t.ignores front back a good).2]
  exact ⟨rfl, rfl⟩

theorem webTrimEnds_word (fuel : Nat) (cs : List Str) (decodes : Utf8.Decodes cs)
    (keep : ¬ ∀ c ∈ cs, t.ignores c = true) (enough : cs.length < fuel) (wstart wend : Int) (userignore : Bool)
    (span : wend = wstart + cs.flatten.length - 1) :
    ∃ e, t.webTrimEnds fuel ⟨some cs.flatten, wstart, wend, cs.length, userignore⟩ = .ok e ∧
      e.w = some (t.strip cs).flatten ∧ e.wstart = wstart + (cs.takeWhile t.ignores).flatten.length ∧
      e.wend = e.wstart + (t.strip cs).flatten.length - 1 := by
  induction fuel generalizing cs wstart wend userignore with
  | zero => omega
  | succ fuel ih =>
      obtain ⟨left, rest, rfl⟩ : ∃ left rest, cs = left :: rest := by
        cases cs with
        | nil => simp at keep
        | cons c cs => exact ⟨c, cs, rfl⟩
      obtain ⟨front, right, split⟩ : ∃ front right, left :: rest = front ++ [right] :=
        ⟨_, _, (List.dropLast_append_getLast (by simp)).symm⟩
      have last : (left :: rest).getLast? = some right := by rw [split, List.getLast?_concat]
      have parts : (left :: rest).flatten.length = front.flatten.length + right.length := by
        rw [split, List.flatten_append, List.length_append, List.flatten_singleton]
      have parts' : (left :: rest).flatten.length = left.length + rest.flatten.length := by
        rw [List.flatten_cons, List.length_append]
      have cut : (left :: rest).dropLast = front := by rw [split, List.dropLast_concat]
      cases drop : t.ignores left with
      | false =>
          cases bad : t.ignores right with
          | false =>
              have pass := t.webTrimOnce_good wstart wend userignore decodes rfl last drop bad
              have whole : t.strip (left :: rest) = left :: rest := by
                rw [split, t.strip_ends front [] right bad (by simp), ← split,
                  List.dropWhile_cons_of_neg (by simp [drop])]
              refine ⟨_, t.webTrimEnds_step pass, by rw [whole], by simp [drop], ?_⟩
              rw [whole]
              exact span
          | true =>
              have more : 2 ≤ (left :: rest).length := by
                cases rest with
                | nil =>
                    simp only [List.getLast?_singleton, Option.some.injEq] at last
                    simp [last, bad] at drop
                | cons d rest => simp
              have pass := t.webTrimOnce_right wstart wend userignore decodes rfl last more drop bad
              have keep' : ¬ ∀ c ∈ front, t.ignores c = true := by
                intro all
                refine keep fun c member => ?_
                rw [split, List.mem_append, List.mem_singleton] at member
                exact member.elim (all c) fun same => same ▸ bad
              obtain ⟨word, taken⟩ := t.strip_right front right bad keep'
              obtain ⟨e, run, result⟩ := ih front (cut ▸ decodes.dropLast) keep'
                (by rw [← cut, List.length_dropLast]; omega) wstart (wend - right.length) userignore (by omega)
              rw [t.webTrimEnds_step pass, if_neg (by simp), cut]
              refine ⟨e, run, ?_⟩
              rwa [split, word, taken]
      | true =>
          have more : rest ≠ [] := by
            rintro rfl
            exact keep (by simpa using drop)
          have long := List.length_pos_iff.mpr more
          have keep' : ¬ ∀ c ∈ rest, t.ignores c = true := by
            intro all
            exact keep (by simpa [drop] using all)
          have taken : (left :: rest).takeWhile t.ignores = left :: rest.takeWhile t.ignores :=
            List.takeWhile_cons_of_pos drop
          cases bad : t.ignores right with
          | false =>
              have pass := t.webTrimOnce_left wstart wend userignore decodes rfl last
                (by rw [List.length_cons]; omega) drop bad
              obtain ⟨e, run, word, first, final⟩ := ih rest decodes.2 keep'
                (by rw [List.length_cons] at enough; omega) (wstart + left.length) wend (userignore || left == USER_IGNORE)
                (by omega)
              rw [t.webTrimEnds_step pass, if_neg (by simp), t.strip_left left rest drop, taken]
              refine ⟨e, run, word, ?_, final⟩
              rw [first, List.flatten_cons, List.length_append, Nat.cast_add]
              omega
          | true =>
              obtain ⟨mid, rfl⟩ : ∃ mid, rest = mid ++ [right] := by
                refine ⟨rest.dropLast, ?_⟩
                rw [List.getLast?_cons_of_ne_nil more] at last
                exact (List.dropLast_append_getLast? right last).symm
              have keep'' : ¬ ∀ c ∈ mid, t.ignores c = true := by
                intro all
                refine keep' fun c member => ?_
                rw [List.mem_append, List.mem_singleton] at member
                exact member.elim (all c) fun same => same ▸ bad
              have filled : mid ≠ [] := by
                rintro rfl
                simp at keep''
              have size := List.length_pos_iff.mpr filled
              obtain ⟨userignore', pass⟩ := t.webTrimOnce_both wstart wend userignore decodes rfl last
                (by rw [List.length_cons]; omega) drop bad
              have inner : ((left :: (mid ++ [right])).drop 1).dropLast = mid := by simp
              obtain ⟨same, taken'⟩ := t.strip_right mid right bad keep''
              obtain ⟨e, run, word, first, final⟩ := ih mid (inner ▸ (decodes.drop 1).dropLast) keep''
                (by simp at enough; omega) (wstart + left.length) (wend - right.length) userignore'
                (by rw [List.flatten_append, List.length_append, List.flatten_singleton] at parts'; omega)
              rw [t.webTrimEnds_step pass, if_neg (by simp), inner, if_neg (by simp; omega),
                t.strip_left left _ drop, same, taken, taken']
              refine ⟨e, run, word, ?_, final⟩
              rw [first, List.flatten_cons, List.length_append, Nat.cast_add]
              omega

/-! The whole function. -/

def Lone (w : Str) : Prop :=
  w.head? ≠ some 46 ∧ ∃ c shift, t.dropLastPeriod w 0 = .ok (c, shift) ∧ Utf8.Decodes [c] ∧
    t.ignores c = true

theorem lone_valid (cs : List Str) (readable : ∀ c ∈ cs, Utf8.Readable c) :
    t.Lone cs.flatten ↔ ∃ c, t.ignores c = true ∧ c ≠ lit "." ∧ (cs = [c] ∨ cs = [c, lit "."]) := by
  have dot : lit "." = [46] := by decide
  have first (head : cs.flatten.head? ≠ some 46) : cs.head? ≠ some (lit ".") := by
    intro period
    cases cs with
    | nil => simp at period
    | cons c cs =>
        rw [Option.some.inj period, dot] at head
        exact head rfl
  have cut (head : cs.head? ≠ some (lit ".")) :
      ∃ shift, t.dropLastPeriod cs.flatten 0 = .ok ((t.dropFinal cs).flatten, shift) := by
    have ends := t.dropLastPeriod_ends readable head (1 - cs.flatten.length)
    rw [Int.sub_add_cancel, Int.sub_self] at ends
    exact ⟨_, ends⟩
  have inside : ∀ c ∈ t.dropFinal cs, Utf8.Readable c := fun c member =>
    readable c ((t.dropFinal_front cs).subset member)
  constructor
  · intro lone
    obtain ⟨head, c, _, dropped, single, ignored⟩ := lone
    obtain ⟨shift, ends⟩ := cut (first head)
    obtain rfl := (Prod.mk.inj (Except.ok.inj (dropped.symm.trans ends))).1
    have list : [(t.dropFinal cs).flatten] = t.dropFinal cs := by
      have read := Utf8.chars_decodes single
      rw [List.flatten_singleton, Utf8.chars_decodes (Utf8.decodes_of_readable inside)] at read
      exact (Prod.mk.inj read).1.symm
    generalize (t.dropFinal cs).flatten = c at list ignored
    obtain ⟨rest, whole⟩ := t.dropFinal_front cs
    have other : c ≠ lit "." := by
      rintro rfl
      exact first head (by rw [← whole, ← list]; rfl)
    refine ⟨c, ignored, other, ?_⟩
    rw [dropFinal] at list
    split at list
    · rename_i found
      have filled : cs ≠ [] := by
        rintro rfl
        simp at list
      have last := List.dropLast_append_getLast? (lit ".") found.1
      rw [← list] at last
      exact .inr last.symm
    · exact .inl list.symm
  · intro single
    obtain ⟨c, ignored, other, shape⟩ := single
    have readable' : Utf8.Readable c := by
      rcases shape with rfl | rfl <;> exact readable c (by simp)
    have head : cs.flatten.head? ≠ some 46 := by
      intro period
      have front : c.head? = some 46 := by
        obtain ⟨b, tail, rfl⟩ := List.exists_cons_of_ne_nil (char_ne_nil readable'.1)
        rcases shape with rfl | rfl <;> simpa using period
      exact other (period_of_mem readable'.1 (List.mem_of_mem_head? front))
    have left : t.dropFinal cs = [c] := by
      rcases shape with rfl | rfl
      · simp [dropFinal]
      · simp [dropFinal, ignored]
    obtain ⟨shift, ends⟩ := cut (first head)
    rw [left, List.flatten_singleton] at ends
    exact ⟨head, c, shift, ends, Utf8.decodes_of_readable (by simpa using readable'), ignored⟩

theorem dropLastPeriod_span {w w' : Str} {wend wend' : Int} (ran : t.dropLastPeriod w wend = .ok (w', wend')) :
    t.dropLastPeriod w 0 = .ok (w', wend' - wend) ∧ (w'.length : Int) - wend' = w.length - wend ∧
      wend' ≤ wend ∧ (w' = [] → w = [] ∨ w = [46]) := by
  unfold dropLastPeriod at ran ⊢
  split at ran
  · rename_i period
    rw [if_pos period]
    obtain ⟨utf8len, len, ran⟩ := bind_eq_ok.mp ran
    obtain ⟨before, char, ran⟩ := bind_eq_ok.mp ran
    simp only [len, run_bind_ok, char]
    split at ran
    · rename_i ignored
      simp only [run_pure, Except.ok.injEq, Prod.mk.injEq] at ran
      obtain ⟨rfl, rfl⟩ := ran
      have filled : w ≠ [] := by
        rintro rfl
        exact absurd period (by decide)
      have positive := List.length_pos_iff.mpr filled
      have size : (sub w 1 ((w.length : Int) - 1)).length = w.length - 1 := by
        rw [show (w.length : Int) - 1 = (w.length - 1 : Nat) by omega, sub_first, List.length_take]
        omega
      refine ⟨?_, by omega, by omega, fun empty => .inr ?_⟩
      · rw [if_pos ignored]
        simp only [run_pure]
        congr 2
        omega
      · rw [empty, List.length_nil] at size
        obtain ⟨b, rfl⟩ := List.length_eq_one_iff.mp (show w.length = 1 by omega)
        exact period
    · rename_i kept
      simp only [run_pure, Except.ok.injEq, Prod.mk.injEq] at ran
      obtain ⟨rfl, rfl⟩ := ran
      exact ⟨by rw [if_neg kept]; simp, rfl, le_rfl, .inl⟩
  · rename_i other
    simp only [run_pure, Except.ok.injEq, Prod.mk.injEq] at ran
    obtain ⟨rfl, rfl⟩ := ran
    exact ⟨by rw [if_neg other]; simp, rfl, le_rfl, .inl⟩

theorem dropPeriods_span (w : Str) (wstart wend : Int) (span : wend = wstart + w.length - 1) (filled : w ≠ []) :
    let (w', wstart', wend') := dropPeriods w wstart wend
    w'.head? ≠ some 46 ∧ wstart ≤ wstart' ∧ (w.head? = some 46 → wstart < wstart') ∧
      (w.head? ≠ some 46 → w' = w ∧ wstart' = wstart) ∧
      (w' = [] → wstart < wend') ∧ (w' ≠ [] → wend' = wend ∧ wend = wstart' + w'.length - 1) := by
  induction w generalizing wstart with
  | nil => exact absurd rfl filled
  | cons b w ih =>
      by_cases period : b = 46
      · subst period
        rw [List.length_cons] at span
        rw [dropPeriods]
        by_cases more : w = []
        · subst more
          simp only [List.length_nil] at span
          rw [if_pos (by omega)]
          simp [dropPeriods]
        · have long := List.length_pos_iff.mpr more
          rw [if_neg (by omega)]
          have later := ih (wstart + 1) (by omega) more
          generalize dropPeriods w (wstart + 1) wend = dropped at later ⊢
          obtain ⟨w', wstart', wend'⟩ := dropped
          obtain ⟨head, first, _, _, gone, kept⟩ := later
          exact ⟨head, by omega, fun _ => by omega, fun other => absurd rfl other, fun empty => by
            have := gone empty
            omega, kept⟩
      · have same : dropPeriods (b :: w) wstart wend = (b :: w, wstart, wend) := by
          rw [dropPeriods]
          exact fun w' shape => period (List.cons.inj shape).1
        rw [same]
        simp [period, span]

theorem strip_within (cs : List Str) :
    (cs.takeWhile t.ignores).flatten.length + (t.strip cs).flatten.length ≤ cs.flatten.length := by
  obtain ⟨right, word⟩ := List.rdropWhile_prefix t.ignores (l := cs.dropWhile t.ignores)
  have whole : cs.takeWhile t.ignores ++ (t.strip cs ++ right) = cs := by
    rw [strip, word, List.takeWhile_append_dropWhile]
  have parts := congrArg (fun ds : List Str => ds.flatten.length) whole
  simp only [List.flatten_append, List.length_append] at parts
  omega

theorem strip_ne_nil {cs : List Str} (decodes : Utf8.Decodes cs) (keep : ¬ ∀ c ∈ cs, t.ignores c = true) :
    (t.strip cs).flatten ≠ [] := by
  obtain ⟨front, a, back, rfl, good, rest⟩ := t.not_all_split keep
  have inside : a ∈ t.strip (front ++ a :: back) := by
    rw [t.strip_ends front back a good rest, List.dropWhile_append]
    split
    · simp [good]
    · simp
  intro empty
  exact decodes.ne_nil (by simp) (List.flatten_eq_nil_iff.mp empty a inside)

/-- Whether a token is one character to ignore is seen from what `dropLastPeriod` leaves of it. -/
theorem lone_iff {w : Str} {cs : List Str} {shift : Int} (decodes : Utf8.Decodes cs)
    (ended : w.head? ≠ some 46 → t.dropLastPeriod w 0 = .ok (cs.flatten, shift)) :
    t.Lone w ↔ w.head? ≠ some 46 ∧ cs.length = 1 ∧ ∀ c ∈ cs, t.ignores c = true := by
  constructor
  · intro lone
    obtain ⟨other, c, _, dropped, single, ignored⟩ := lone
    have word : [c].flatten = cs.flatten := by
      rw [List.flatten_singleton]
      exact (Prod.mk.inj (Except.ok.inj (dropped.symm.trans (ended other)))).1
    have list : [c] = cs := by
      have read := Utf8.chars_decodes single
      rw [word, Utf8.chars_decodes decodes] at read
      exact (Prod.mk.inj read).1.symm
    rw [← list]
    exact ⟨other, rfl, by simpa using ignored⟩
  · intro single
    obtain ⟨other, one, ignored⟩ := single
    obtain ⟨c, rfl⟩ := List.length_eq_one_iff.mp one
    have dropped := ended other
    rw [List.flatten_singleton] at dropped
    exact ⟨other, c, _, dropped, decodes, ignored c List.mem_cons_self⟩

theorem half_empty {cs : List Str} (decodes : Utf8.Decodes cs) (filled : cs ≠ []) :
    (cs.take (cs.length / 2)).flatten.length = 0 ↔ cs.length = 1 := by
  have positive := List.length_pos_iff.mpr filled
  rw [List.length_eq_zero_iff, List.flatten_eq_nil_iff]
  constructor
  · intro empty
    by_contra more
    obtain ⟨c, member⟩ := @List.exists_mem_of_length_pos _ (cs.take (cs.length / 2)) (by rw [List.length_take]; omega)
    exact decodes.ne_nil (List.mem_of_mem_take member) (empty c member)
  · intro one
    simp [one]

theorem webIgnorechars_span {w : Str} {wstart wend : Int} {trimmed : WebTrimmed}
    (ran : t.webIgnorechars w wstart wend false = .ok trimmed) (span : wend = wstart + w.length - 1)
    (filled : w ≠ []) :
    match trimmed.w with
    | none => wstart ≤ trimmed.wend + 1 ∧ (trimmed.wend + 1 = wstart ↔ t.Lone w)
    | some w' => ¬ t.Lone w ∧ wstart ≤ trimmed.wend ∧ (w' ≠ [] → wstart ≤ trimmed.wstart ∧
        trimmed.wend = trimmed.wstart + w'.length - 1 ∧ trimmed.wend ≤ wend) := by
  have dropped := dropPeriods_span w wstart wend span filled
  rw [webIgnorechars] at ran
  generalize dropPeriods w wstart wend = first at dropped ran
  obtain ⟨w₁, wstart₁, wend₁⟩ := first
  obtain ⟨head, after, strict, same, gone, kept⟩ := dropped
  simp only at ran
  obtain ⟨⟨w₂, wend₂⟩, second, ran⟩ := bind_eq_ok.mp ran
  obtain ⟨ended, shift, less, empty⟩ := t.dropLastPeriod_span second
  obtain ⟨posright, len, ran⟩ := bind_eq_ok.mp ran
  simp only at len ran
  by_cases none' : w₂ = []
  · rw [if_pos none'] at ran
    rw [← Except.ok.inj ran]
    simp only
    have periods : w₁ = [] := (empty none').resolve_right fun dot => head (by rw [dot]; rfl)
    refine ⟨fun lone => ?_, ?_, fun other => absurd none' other⟩
    · exact filled ((same lone.1).1 ▸ periods)
    · rw [periods, none', List.length_nil] at shift
      have := gone periods
      omega
  · rw [if_neg none'] at ran
    have whole : (Utf8.chars w₂).2 = [] := by
      by_contra left
      rw [Utf8.len, if_neg left] at len
      cases len
    obtain ⟨cs, decodes, rfl⟩ := Utf8.exists_decodes whole
    obtain rfl := Except.ok.inj ((Utf8.len_decodes decodes).symm.trans len)
    have word : w₁ ≠ [] := by
      rintro rfl
      exact none' (Prod.mk.inj (Except.ok.inj second)).1.symm
    obtain ⟨last, span₁⟩ := kept word
    have span₂ : wend₂ = wstart₁ + cs.flatten.length - 1 := by omega
    have some' : cs ≠ [] := by
      rintro rfl
      exact none' rfl
    have lone := t.lone_iff decodes fun other => (same other).1 ▸ ended
    by_cases all : ∀ c ∈ cs, t.ignores c = true
    · obtain ⟨e, run, nil, final⟩ := t.webTrimEnds_all (cs.length + 2) cs decodes some' all (by omega) wstart₁ wend₂
        false span₂
      rw [run] at ran
      simp only [run_bind_ok, nil, run_pure] at ran
      rw [← Except.ok.inj ran]
      simp only
      have positive := List.length_pos_iff.mpr some'
      have half := half_empty decodes some'
      refine ⟨by omega, fun back => lone.mpr ⟨fun dot => ?_, half.mp (by omega), all⟩, fun alone => ?_⟩
      · have := strict dot
        omega
      · obtain ⟨other, one, _⟩ := lone.mp alone
        have := half.mpr one
        have := (same other).2
        omega
    · obtain ⟨e, run, kept', first, final⟩ := t.webTrimEnds_word (cs.length + 2) cs decodes all (by omega) wstart₁
        wend₂ false span₂
      rw [run] at ran
      simp only [run_bind_ok, kept', Bool.false_eq_true, if_false] at ran
      obtain ⟨found, rfl⟩ : ∃ found, trimmed =
          ⟨some (t.strip cs).flatten, e.wstart, e.wend, e.userignore, found, false⟩ := by
        split at ran
        · exact ⟨_, (Except.ok.inj ran).symm⟩
        · obtain ⟨found, _, ran⟩ := bind_eq_ok.mp ran
          exact ⟨_, (Except.ok.inj ran).symm⟩
      simp only
      have within := t.strip_within cs
      have long := List.length_pos_iff.mpr (t.strip_ne_nil decodes all)
      exact ⟨fun alone => all (lone.mp alone).2.2, by omega, fun _ => ⟨by omega, by omega, by omega⟩⟩

end Tables

end Maccer
