import Mathlib.Data.List.DropRight
import Maccer.Ignore
import Maccer.Characters

/-! What `macra.ignorechars` takes off a token, and when the ends it returns are those of
the word. -/

namespace Maccer

open Lua

namespace Tables

variable (t : Tables)

section Passes

/-! One pass of the loop, on a word given by its characters. -/

variable {cs : List Str} (decodes : Utf8.Decodes cs) {left right : Str} {p : Nat}
  (head : cs[0]? = some left) (here : cs[p]? = some right) (wstart wend : Int) (userabbrev : Bool)
include decodes head here

theorem trimOnce_inner (keep : t.ignores left = false) (good : t.ignores right = false) :
    t.trimOnce cs.flatten ⟨some cs.flatten, wstart, wend, (p : Int) + 1, userabbrev⟩ =
      .ok (⟨some cs.flatten, wstart, wend, (p : Int) + 1, userabbrev⟩, true) := by
  have first := Utf8.sub_char decodes head
  simp only [Nat.cast_zero, zero_add] at first
  simp only [trimOnce, first, Utf8.sub_char decodes here, run_bind_ok, run_pure, good, keep, Bool.not_false,
    if_true, if_neg (by omega : ¬ (p : Int) + 1 < 1), Bool.false_eq_true, if_false]

theorem trimOnce_left (drop : t.ignores left = true) (good : t.ignores right = false) :
    t.trimOnce cs.flatten ⟨some cs.flatten, wstart, wend, (p : Int) + 1, userabbrev⟩ =
      .ok (⟨some (cs.drop 1).flatten, wstart + left.length, wend, p, userabbrev || left == lit "@"⟩, false) := by
  have first := Utf8.sub_char decodes head
  have rest := Utf8.sub_from decodes 1
  simp only [Nat.cast_zero, zero_add] at first
  rw [show ((1 : Nat) : Int) + 1 = 2 from rfl] at rest
  simp only [trimOnce, first, Utf8.sub_char decodes here, run_bind_ok, run_pure, good, drop, rest,
    Bool.not_false, if_true, if_neg (by omega : ¬ (p : Int) + 1 < 1), Int.add_sub_cancel]

theorem trimOnce_right (keep : t.ignores left = false) (bad : t.ignores right = true) (room : 2 ≤ p) :
    t.trimOnce cs.flatten ⟨some cs.flatten, wstart, wend, (p : Int) + 1, userabbrev⟩ =
      .ok (⟨some (cs.take p).flatten, wstart, wend - right.length, (p : Int) - 1, userabbrev⟩, false) := by
  obtain ⟨inside, _⟩ := List.getElem?_eq_some_iff.mp here
  have first := Utf8.sub_char decodes head
  have front := Utf8.sub_upto decodes p inside.le
  simp only [Nat.cast_zero, zero_add] at first
  simp only [trimOnce, first, Utf8.sub_char decodes here, run_bind_ok, run_pure, bad, keep, front,
    Bool.not_true, Bool.false_eq_true, if_false, Int.add_sub_cancel,
    if_neg (by omega : ¬ (p : Int) - 1 < 1)]

theorem trimOnce_both (drop : t.ignores left = true) (bad : t.ignores right = true) (room : 2 ≤ p) :
    t.trimOnce cs.flatten ⟨some cs.flatten, wstart, wend, (p : Int) + 1, userabbrev⟩ =
      .ok (⟨some ((cs.take p).drop 1).flatten, wstart + left.length, wend - right.length, (p : Int) - 2,
        userabbrev || left == lit "@"⟩, false) := by
  obtain ⟨inside, _⟩ := List.getElem?_eq_some_iff.mp here
  have first := Utf8.sub_char decodes head
  have front := Utf8.sub_upto decodes p inside.le
  have rest := Utf8.sub_from (decodes.take p) 1
  simp only [Nat.cast_zero, zero_add] at first
  rw [show ((1 : Nat) : Int) + 1 = 2 from rfl] at rest
  simp only [trimOnce, first, Utf8.sub_char decodes here, run_bind_ok, run_pure, bad, drop, front, rest,
    Bool.not_true, Bool.false_eq_true, if_false, if_true, Int.add_sub_cancel,
    if_neg (by omega : ¬ (p : Int) - 1 < 1)]
  rw [show (p : Int) - 1 - 1 = p - 2 by omega]

theorem trimOnce_gone (bad : t.ignores right = true) (short : p < 2) :
    t.trimOnce cs.flatten ⟨some cs.flatten, wstart, wend, (p : Int) + 1, userabbrev⟩ =
      .ok (⟨none, wstart, if wend - right.length < wstart then wend else wend - right.length, (p : Int) - 1,
        userabbrev⟩, true) := by
  obtain ⟨inside, _⟩ := List.getElem?_eq_some_iff.mp here
  have first := Utf8.sub_char decodes head
  have front := Utf8.sub_upto decodes p inside.le
  simp only [Nat.cast_zero, zero_add] at first
  simp only [trimOnce, first, Utf8.sub_char decodes here, run_bind_ok, run_pure, bad, front,
    Bool.not_true, Bool.false_eq_true, if_false, Int.add_sub_cancel,
    if_pos (by omega : (p : Int) - 1 < 1), Int.sub_add_cancel]

end Passes

theorem trimOnce_end {cs : List Str} (decodes : Utf8.Decodes cs) {left : Str} (head : cs[0]? = some left)
    (wstart wend : Int) (userabbrev : Bool) :
    ∃ e, t.trimOnce cs.flatten ⟨some cs.flatten, wstart, wend, 0, userabbrev⟩ = .ok (e, true) ∧
      e.w = none := by
  have first := Utf8.sub_char decodes head
  have whole := Utf8.sub_from decodes 0
  simp only [Nat.cast_zero, zero_add] at first whole
  cases good : t.ignores cs.flatten with
  | false =>
      simp only [trimOnce, first, Utf8.sub_zero decodes, run_bind_ok, run_pure, good, Bool.not_false, if_true,
        if_pos (by omega : (0 : Int) < 1)]
      exact ⟨_, rfl, rfl⟩
  | true =>
      simp only [trimOnce, first, Utf8.sub_zero decodes, run_bind_ok, run_pure, good, Bool.not_true,
        Bool.false_eq_true, if_false, if_pos (by omega : (0 : Int) - 1 - 1 < 1)]
      rw [show (0 : Int) - 1 = -1 by rfl, whole]
      exact ⟨_, rfl, rfl⟩


/-! The loop. -/

theorem trimEnds_step {fuel : Nat} {w : Str} {wstart wend posright : Int} {userabbrev : Bool} {e : Ends}
    {last : Bool} (pass : t.trimOnce w ⟨some w, wstart, wend, posright, userabbrev⟩ = .ok (e, last)) :
    t.trimEnds (fuel + 1) ⟨some w, wstart, wend, posright, userabbrev⟩ =
      if last then .ok e else t.trimEnds fuel e := by
  rw [trimEnds]
  simp only [pass, run_bind_ok, run_pure]

/-- Whether `macra.USER_ABBREV` is among the characters taken off the front. -/
def userMarked (cs : List Str) : Bool := (cs.takeWhile t.ignores).contains (lit "@")

theorem userMarked_cons {left : Str} {cs : List Str} (drop : t.ignores left = true) :
    t.userMarked (left :: cs) = (left == lit "@" || t.userMarked cs) := by
  rw [userMarked, List.takeWhile_cons_of_pos drop, List.contains_cons, Bool.beq_comm, userMarked]

/-- While the right end is on a character to keep, only the left end moves. What is behind the right end stays. -/
theorem trimEnds_left (cs tail : List Str) (decodes : Utf8.Decodes (cs ++ tail)) (right : Str)
    (last : cs.getLast? = some right) (good : t.ignores right = false) (fuel : Nat)
    (enough : cs.length < fuel + 1) (wstart wend : Int) (userabbrev : Bool) :
    t.trimEnds fuel ⟨some (cs ++ tail).flatten, wstart, wend, cs.length, userabbrev⟩ =
      .ok ⟨some (cs.dropWhile t.ignores ++ tail).flatten,
        wstart + (cs.takeWhile t.ignores).flatten.length, wend, (cs.dropWhile t.ignores).length,
        userabbrev || t.userMarked cs⟩ := by
  induction cs generalizing fuel wstart userabbrev with
  | nil => simp at last
  | cons left cs ih =>
      obtain ⟨fuel, rfl⟩ : ∃ n, fuel = n + 1 := ⟨fuel - 1, by simp at enough; omega⟩
      have head : (left :: cs ++ tail)[0]? = some left := rfl
      have here : (left :: cs ++ tail)[cs.length]? = some right := by
        rw [List.getElem?_append_left (by simp)]
        simpa [List.getLast?_eq_getElem?] using last
      cases drop : t.ignores left with
      | false =>
          have pass := t.trimOnce_inner decodes head here wstart wend userabbrev drop good
          rw [List.length_cons, Nat.cast_succ, t.trimEnds_step pass, if_pos rfl]
          simp [drop, userMarked]
      | true =>
          have pass := t.trimOnce_left decodes head here wstart wend userabbrev drop good
          rw [List.length_cons, Nat.cast_succ, t.trimEnds_step pass, if_neg (by simp)]
          have more : cs ≠ [] := by
            rintro rfl
            simp only [List.getLast?_singleton, Option.some.injEq] at last
            simp [last, good] at drop
          have last' : cs.getLast? = some right := by
            rwa [List.getLast?_cons_of_ne_nil more] at last
          refine (ih decodes.2 last' fuel (by simp at enough; omega) (wstart + left.length) _).trans ?_
          rw [t.userMarked_cons drop, Bool.or_assoc]
          simp [drop, add_assoc]

theorem trimEnds_all (cs : List Str) (decodes : Utf8.Decodes cs) (some : cs ≠ [])
    (all : ∀ c ∈ cs, t.ignores c = true) (p : Nat) (inside : p ≤ cs.length) (fuel : Nat) (enough : p < fuel)
    (wstart wend : Int) (userabbrev : Bool) :
    ∃ e, t.trimEnds fuel ⟨.some cs.flatten, wstart, wend, p, userabbrev⟩ = .ok e ∧ e.w = none := by
  induction fuel generalizing cs p wstart wend userabbrev with
  | zero => omega
  | succ fuel ih =>
      obtain ⟨left, rest, rfl⟩ := List.exists_cons_of_ne_nil some
      cases p with
      | zero =>
          obtain ⟨e, pass, gone⟩ := t.trimOnce_end decodes rfl wstart wend userabbrev
          exact ⟨e, t.trimEnds_step pass, gone⟩
      | succ p =>
          have here := List.getElem?_eq_getElem (show p < (left :: rest).length from inside)
          have bad := all _ (List.getElem_mem (show p < (left :: rest).length from inside))
          rw [Nat.cast_succ]
          by_cases short : p < 2
          · have pass := t.trimOnce_gone decodes rfl here wstart wend userabbrev bad short
            exact ⟨_, t.trimEnds_step pass, rfl⟩
          · have pass := t.trimOnce_both decodes rfl here wstart wend userabbrev
              (all left (by simp)) bad (by omega)
            rw [t.trimEnds_step pass, if_neg (by simp), show (p : Int) - 2 = (p - 2 : Nat) by omega]
            have size : (((left :: rest).take p).drop 1).length = p - 1 := by
              simp only [List.length_drop, List.length_take]
              omega
            exact ih _ ((decodes.take p).drop 1) (List.ne_nil_of_length_pos (by omega))
              (fun c member => all c (List.mem_of_mem_take (List.mem_of_mem_drop member))) _ (by omega)
              (by omega) _ _ _

theorem flatten_two (cs : List Str) (p : Nat) (size : cs.length = p + 2) :
    cs.flatten.length = (cs.take p).flatten.length + (cs[p]?.getD []).length +
      (cs[p + 1]?.getD []).length := by
  have first := List.getElem?_eq_getElem (show p < cs.length by omega)
  have second := List.getElem?_eq_getElem (show p + 1 < cs.length by omega)
  have whole : cs = cs.take p ++ [cs[p]] ++ [cs[p + 1]] := by
    rw [← List.take_succ_eq_append_getElem, ← List.take_succ_eq_append_getElem,
      List.take_of_length_le (by omega)]
  rw [first, second]
  conv_lhs => rw [whole]
  simp only [List.flatten_append, List.flatten_singleton, List.length_append, Option.getD_some]

/-- Once the right end is one behind, it drops two characters and takes off the bytes of
one: the span stays longer than the word. -/
theorem trimEnds_short (cs : List Str) (decodes : Utf8.Decodes cs) (p : Nat) (size : cs.length = p + 1)
    (fuel : Nat) (enough : p < fuel) (wstart wend : Int) (userabbrev : Bool)
    (slack : (cs.flatten.length : Int) ≤ wend - wstart) :
    ∃ e, t.trimEnds fuel ⟨some cs.flatten, wstart, wend, p, userabbrev⟩ = .ok e ∧
      ∀ w, e.w = some w → (w.length : Int) ≤ e.wend - e.wstart := by
  induction fuel generalizing cs p wstart wend userabbrev with
  | zero => omega
  | succ fuel ih =>
      obtain ⟨left, rest, rfl⟩ := List.exists_cons_of_length_eq_add_one size
      cases p with
      | zero =>
          obtain ⟨e, pass, gone⟩ := t.trimOnce_end decodes rfl wstart wend userabbrev
          exact ⟨e, t.trimEnds_step pass, by simp [gone]⟩
      | succ p =>
          have here := List.getElem?_eq_getElem (show p < (left :: rest).length by omega)
          have parts := flatten_two (left :: rest) p size
          rw [here, Option.getD_some] at parts
          have front : (left :: rest).flatten.length = left.length + rest.flatten.length := by simp
          rw [Nat.cast_succ]
          cases bad : t.ignores (left :: rest)[p] with
          | false =>
              cases drop : t.ignores left with
              | false =>
                  have pass := t.trimOnce_inner decodes rfl here wstart wend userabbrev drop bad
                  refine ⟨_, t.trimEnds_step pass, fun w same => ?_⟩
                  rw [← Option.some.inj same]
                  exact slack
              | true =>
                  have pass := t.trimOnce_left decodes rfl here wstart wend userabbrev drop bad
                  rw [t.trimEnds_step pass, if_neg (by simp)]
                  exact ih rest decodes.2 p (by simpa using size) (by omega) _ _ _ (by omega)
          | true =>
              by_cases short : p < 2
              · have pass := t.trimOnce_gone decodes rfl here wstart wend userabbrev bad short
                exact ⟨_, t.trimEnds_step pass, by simp⟩
              · cases drop : t.ignores left with
                | false =>
                    have pass := t.trimOnce_right decodes rfl here wstart wend userabbrev drop bad (by omega)
                    rw [t.trimEnds_step pass, if_neg (by simp), show (p : Int) - 1 = (p - 1 : Nat) by omega]
                    exact ih _ (decodes.take p) _ (by rw [List.length_take]; omega) (by omega) _ _ _ (by omega)
                | true =>
                    have pass := t.trimOnce_both decodes rfl here wstart wend userabbrev drop bad (by omega)
                    rw [t.trimEnds_step pass, if_neg (by simp), show (p : Int) - 2 = (p - 2 : Nat) by omega]
                    have cut : ((left :: rest).take p).flatten.length =
                        left.length + (((left :: rest).take p).drop 1).flatten.length := by
                      obtain ⟨p, rfl⟩ : ∃ n, p = n + 1 := ⟨p - 1, by omega⟩
                      simp
                    exact ih _ ((decodes.take p).drop 1) _
                      (by rw [List.length_drop, List.length_take]; omega) (by omega) _ _ _ (by omega)

/-! What the loop should give. -/

def strip (cs : List Str) : List Str := (cs.dropWhile t.ignores).rdropWhile t.ignores

def Exact (cs : List Str) (wstart : Int) (w : Option Str) (wstart' wend' : Int) : Prop :=
  (w = none ↔ ∀ c ∈ cs, t.ignores c = true) ∧
    ∀ w', w = some w' → w' = (t.strip cs).flatten ∧
      wstart' = wstart + (cs.takeWhile t.ignores).flatten.length ∧ wend' = wstart' + w'.length - 1

def OneAtEnd (cs : List Str) : Prop :=
  ∃ front a b c, cs = front ++ [a, b, c] ∧ t.ignores a = false ∧ t.ignores b = false

def Separate (cs : List Str) : Prop :=
  (∀ c ∈ cs, t.ignores c = true) ∨ (∀ c ∈ cs.getLast?, t.ignores c = false) ∨ t.OneAtEnd cs

theorem ends_kept {α : Type} (p : α → Bool) (front back : List α) (a : α) (keep : p a = false) :
    (front ++ a :: back).dropWhile p = (front ++ [a]).dropWhile p ++ back ∧
      (front ++ a :: back).takeWhile p = (front ++ [a]).takeWhile p := by
  induction front with
  | nil => simp [keep]
  | cons b front ih =>
      cases drop : p b with
      | false => simp [drop]
      | true => simpa [drop] using ih

theorem strip_ends (front back : List Str) (a : Str) (keep : t.ignores a = false)
    (bad : ∀ c ∈ back, t.ignores c = true) :
    t.strip (front ++ a :: back) = (front ++ [a]).dropWhile t.ignores := by
  have last : (front ++ [a]).dropWhile t.ignores = front.dropWhile t.ignores ++ [a] := by
    rw [List.dropWhile_append]
    split
    · rename_i empty
      simp [List.isEmpty_iff.mp empty, keep]
    · rfl
  calc
    t.strip (front ++ a :: back)
      = ((front ++ [a]).dropWhile t.ignores ++ back).rdropWhile t.ignores := by
        rw [strip, (ends_kept t.ignores front back a keep).1]
    _ = ((front ++ [a]).dropWhile t.ignores).rdropWhile t.ignores := by
        rw [List.rdropWhile, List.reverse_append, List.dropWhile_append_of_pos (by simpa using bad),
          List.rdropWhile]
    _ = (front ++ [a]).dropWhile t.ignores := by
        rw [last, List.rdropWhile_concat_neg _ _ _ (by simp [keep])]

/-- The first pass on a word with a character to ignore at its end: the right end is then
before the last character that is left. -/
theorem trimEnds_first (front : List Str) (a b c : Str) (decodes : Utf8.Decodes (front ++ [a, b, c]))
    (bad : t.ignores c = true) (fuel : Nat) (wstart wend : Int) (userabbrev : Bool)
    (span : wend = wstart + (front ++ [a, b, c]).flatten.length - 1) :
    ∃ gs wstart' userabbrev', t.trimEnds (fuel + 1)
        ⟨some (front ++ [a, b, c]).flatten, wstart, wend, (front.length : Int) + 3, userabbrev⟩ =
      t.trimEnds fuel ⟨some (gs ++ [b]).flatten, wstart', wstart' + (gs ++ [b]).flatten.length - 1,
        gs.length, userabbrev'⟩ ∧
      Utf8.Decodes (gs ++ [b]) ∧ gs.length ≤ front.length + 1 ∧
      gs.dropWhile t.ignores = (front ++ [a]).dropWhile t.ignores ∧
      wstart' + (gs.takeWhile t.ignores).flatten.length =
        wstart + ((front ++ [a]).takeWhile t.ignores).flatten.length ∧
      (userabbrev' || t.userMarked gs) = (userabbrev || t.userMarked (front ++ [a])) ∧
      (gs.getLast? = some a ∨ gs = [] ∧ t.ignores a = true) := by
  have here : (front ++ [a, b, c])[front.length + 2]? = some c := by
    rw [List.getElem?_append_right (by omega)]
    simp
  have cut : (front ++ [a, b, c]).take (front.length + 2) = front ++ [a] ++ [b] := by
    rw [List.take_append, List.take_of_length_le (by omega)]
    simp
  have kept : Utf8.Decodes (front ++ [a] ++ [b]) := cut ▸ decodes.take (front.length + 2)
  have bytes : (front ++ [a, b, c]).flatten.length = (front ++ [a] ++ [b]).flatten.length + c.length := by
    simp
    omega
  obtain ⟨left, head⟩ : ∃ left, (front ++ [a])[0]? = some left := by
    cases front with
    | nil => exact ⟨a, rfl⟩
    | cons left front => exact ⟨left, rfl⟩
  have head' : (front ++ [a, b, c])[0]? = some left := by
    rw [show front ++ [a, b, c] = front ++ [a] ++ [b, c] by simp, List.getElem?_append_left (by simp)]
    exact head
  have index : (front.length : Int) + 3 = (front.length + 2 : Nat) + 1 := by omega
  rw [index]
  cases drop : t.ignores left with
  | false =>
      have pass := t.trimOnce_right decodes head' here wstart wend userabbrev drop bad (by omega)
      refine ⟨front ++ [a], wstart, userabbrev, ?_, kept, by simp, rfl, rfl, rfl, .inl (by simp)⟩
      rw [t.trimEnds_step pass, if_neg (by simp), cut]
      congr 2
      · rw [span, bytes]
        omega
      · rw [List.length_append, List.length_singleton]
        omega
  | true =>
      have pass := t.trimOnce_both decodes head' here wstart wend userabbrev drop bad (by omega)
      have gone : (front ++ [a]) = left :: (front ++ [a]).drop 1 := by
        cases front with
        | nil => simpa using head
        | cons d front => simpa using head
      refine ⟨(front ++ [a]).drop 1, wstart + left.length, userabbrev || left == lit "@", ?_, ?_, by simp, ?_, ?_,
        ?_, ?_⟩
      · rw [t.trimEnds_step pass, if_neg (by simp), cut]
        have later : (front ++ [a] ++ [b]).drop 1 = (front ++ [a]).drop 1 ++ [b] :=
          List.drop_append_of_le_length (by simp)
        have size : (front ++ [a] ++ [b]).flatten.length =
            left.length + ((front ++ [a]).drop 1 ++ [b]).flatten.length := by
          conv_lhs => rw [gone]
          simp
        rw [later]
        congr 2
        · rw [span, bytes, size]
          omega
        · simp
      · rw [gone] at kept
        exact kept.2
      · conv_rhs => rw [gone]
        simp [drop]
      · conv_rhs => rw [gone]
        simp [drop, add_assoc]
      · conv_rhs => rw [gone]
        rw [t.userMarked_cons drop, Bool.or_assoc]
      · cases front with
        | nil =>
            refine .inr ⟨rfl, ?_⟩
            rw [← Option.some.inj head] at drop
            exact drop
        | cons d front => exact .inl (by simp)

theorem trimEnds_behind (gs : List Str) (a b : Str) (decodes : Utf8.Decodes (gs ++ [b]))
    (last : gs.getLast? = some a ∨ gs = []) (bad : t.ignores a = true) (fuel : Nat)
    (enough : gs.length < fuel) (wstart wend : Int) (userabbrev : Bool)
    (span : wend = wstart + (gs ++ [b]).flatten.length - 1) :
    ∃ e, t.trimEnds fuel ⟨some (gs ++ [b]).flatten, wstart, wend, gs.length, userabbrev⟩ = .ok e ∧
      ∀ w, e.w = some w → (w.length : Int) ≤ e.wend - e.wstart := by
  obtain ⟨fuel, rfl⟩ : ∃ n, fuel = n + 1 := ⟨fuel - 1, by omega⟩
  cases gs with
  | nil =>
      obtain ⟨e, pass, gone⟩ := t.trimOnce_end decodes rfl wstart wend userabbrev
      exact ⟨e, t.trimEnds_step pass, by simp [gone]⟩
  | cons left gs =>
      have last' : (left :: gs).getLast? = some a := by simpa using last
      have here : (left :: gs ++ [b])[gs.length]? = some a := by
        rw [List.getElem?_append_left (by simp)]
        simpa [List.getLast?_eq_getElem?] using last'
      have size : (left :: gs ++ [b]).length = gs.length + 2 := by simp
      have parts := flatten_two (left :: gs ++ [b]) gs.length size
      rw [here, Option.getD_some, show (left :: gs ++ [b])[gs.length + 1]? = some b by simp,
        Option.getD_some] at parts
      have filled := List.length_pos_iff.mpr (decodes.ne_nil (c := b) (by simp))
      rw [List.length_cons, Nat.cast_succ]
      by_cases short : gs.length < 2
      · have pass := t.trimOnce_gone decodes rfl here wstart wend userabbrev bad short
        exact ⟨_, t.trimEnds_step pass, by simp⟩
      · cases drop : t.ignores left with
        | false =>
            have pass := t.trimOnce_right decodes rfl here wstart wend userabbrev drop bad (by omega)
            rw [t.trimEnds_step pass, if_neg (by simp),
              show (gs.length : Int) - 1 = (gs.length - 1 : Nat) by omega]
            exact t.trimEnds_short _ (decodes.take _) _ (by rw [List.length_take]; omega) _
              (by simp at enough; omega) _ _ _ (by omega)
        | true =>
            have pass := t.trimOnce_both decodes rfl here wstart wend userabbrev drop bad (by omega)
            rw [t.trimEnds_step pass, if_neg (by simp),
              show (gs.length : Int) - 2 = (gs.length - 2 : Nat) by omega]
            have cut : ((left :: gs ++ [b]).take gs.length).flatten.length =
                left.length + (((left :: gs ++ [b]).take gs.length).drop 1).flatten.length := by
              obtain ⟨d, gs, rfl⟩ : ∃ d ds, gs = d :: ds :=
                List.exists_cons_of_ne_nil (List.ne_nil_of_length_pos (by omega))
              simp
            exact t.trimEnds_short _ ((decodes.take _).drop 1) _
              (by rw [List.length_drop, List.length_take]; omega) _ (by simp at enough; omega) _ _ _
              (by omega)

theorem not_exact {cs : List Str} {wstart wstart' wend' : Int} {w : Option Str}
    (keep : ¬ ∀ c ∈ cs, t.ignores c = true)
    (loose : ∀ w', w = some w' → (w'.length : Int) ≤ wend' - wstart') : ¬ t.Exact cs wstart w wstart' wend' := by
  intro exact
  cases w with
  | none => exact keep (exact.1.mp rfl)
  | some w' =>
      have span := (exact.2 w' rfl).2.2
      have longer := loose w' rfl
      omega

theorem trimEnds_one (front : List Str) (c : Str) (decodes : Utf8.Decodes (front ++ [c]))
    (bad : t.ignores c = true) (keep : ¬ ∀ d ∈ front ++ [c], t.ignores d = true) (wstart : Int) :
    ∃ e, t.trimEnds ((front ++ [c]).length + 2) ⟨some (front ++ [c]).flatten, wstart,
        wstart + (front ++ [c]).flatten.length - 1, (front ++ [c]).length, false⟩ = .ok e ∧
      (t.Exact (front ++ [c]) wstart e.w e.wstart e.wend ↔ t.OneAtEnd (front ++ [c])) ∧
      (t.OneAtEnd (front ++ [c]) → e.userabbrev = t.userMarked (front ++ [c])) := by
  rcases List.eq_nil_or_concat' front with rfl | ⟨front, b, rfl⟩
  · exact absurd (by simpa using bad) keep
  rcases List.eq_nil_or_concat' front with rfl | ⟨front, a, rfl⟩
  · -- One of two characters is lost with the one to ignore.
    have pass := t.trimOnce_gone (p := 1) decodes rfl rfl wstart
      (wstart + ([] ++ [b] ++ [c]).flatten.length - 1) false bad (by omega)
    have short : ¬ t.OneAtEnd ([] ++ [b] ++ [c]) := fun ⟨front, a', b', c', same, _⟩ => by
      simpa using congrArg List.length same
    exact ⟨_, t.trimEnds_step pass, iff_of_false (t.not_exact keep (by simp)) short, fun one => absurd one short⟩
  · rw [show front ++ [a] ++ [b] ++ [c] = front ++ [a, b, c] by simp] at decodes keep ⊢
    have pieces (front' : List Str) (a' b' c' : Str) (same : front ++ [a, b, c] = front' ++ [a', b', c']) :
        a = a' ∧ b = b' := by
      have parts := List.append_inj_right' same rfl
      simp only [List.cons.injEq] at parts
      exact ⟨parts.1, parts.2.1⟩
    obtain ⟨gs, wstart', userabbrev, first, decodes', fewer, dropped, taken, marked, last⟩ :=
      t.trimEnds_first front a b c decodes bad (front.length + 4) wstart
        (wstart + (front ++ [a, b, c]).flatten.length - 1) false rfl
    have size : (front ++ [a, b, c]).length = front.length + 3 := by simp
    rw [size, Nat.cast_add, show ((3 : Nat) : Int) = 3 from rfl, first]
    cases behind : t.ignores a with
    | true =>
        obtain ⟨e, run, loose⟩ := t.trimEnds_behind gs a b decodes' (last.imp_right (·.1)) behind
          (front.length + 4) (by omega) wstart' _ userabbrev rfl
        have separated : ¬ t.OneAtEnd (front ++ [a, b, c]) := by
          rintro ⟨front', a', b', c', same, good, _⟩
          rw [← (pieces front' a' b' c' same).1, behind] at good
          exact absurd good (by simp)
        exact ⟨e, run, iff_of_false (t.not_exact keep loose) separated, fun one => absurd one separated⟩
    | false =>
        have run := t.trimEnds_left gs [b] decodes' a (by simpa [behind] using last) behind
          (front.length + 4) (by omega) wstart' (wstart' + (gs ++ [b]).flatten.length - 1) userabbrev
        have found : gs.dropWhile t.ignores ++ [b] = (front ++ [a]).dropWhile t.ignores ++ [b] := by
          rw [dropped]
        rw [found] at run
        refine ⟨_, run, ⟨fun exact => ?_, fun ⟨front', a', b', c', same, _, good⟩ => ⟨?_, fun w' word => ?_⟩⟩,
          fun _ => ?_⟩
        · cases end' : t.ignores b with
          | false => exact ⟨front, a, b, c, rfl, behind, end'⟩
          | true =>
              have same := congrArg List.length (exact.2 _ rfl).1
              rw [t.strip_ends front [b, c] a behind (by simp [end', bad])] at same
              have filled := List.length_pos_iff.mpr (decodes'.ne_nil (c := b) (by simp))
              simp only [List.flatten_append, List.length_append, List.flatten_singleton] at same
              omega
        · simp only [reduceCtorEq, false_iff]
          exact keep
        · rw [← (pieces front' a' b' c' same).2] at good
          have parts := congrArg (fun ds : List Str => (ds.flatten.length : Int))
            (List.takeWhile_append_dropWhile (p := t.ignores) (l := gs))
          have shape : front ++ [a, b, c] = (front ++ [a]) ++ b :: [c] := by simp
          rw [← Option.some.inj word, shape, t.strip_ends (front ++ [a]) [c] b good (by simp [bad]),
            List.append_assoc, List.singleton_append, (ends_kept t.ignores front [b] a behind).1, ← dropped,
            List.append_assoc, List.singleton_append, (ends_kept t.ignores front [b, c] a behind).2]
          refine ⟨rfl, taken, ?_⟩
          simp only [List.flatten_append, List.length_append, Nat.cast_add] at parts ⊢
          omega
        · have shape : front ++ [a, b, c] = front ++ a :: [b, c] := rfl
          rw [marked, Bool.false_or, shape, userMarked, userMarked, (ends_kept t.ignores front [b, c] a behind).2]

/-- The loop gives the word and its ends just when there is nothing to separate it from on its right, or one
character. -/
theorem trimEnds_exact (cs : List Str) (decodes : Utf8.Decodes cs) (some : cs ≠ []) (wstart : Int) :
    ∃ e, t.trimEnds (cs.length + 2)
        ⟨.some cs.flatten, wstart, wstart + cs.flatten.length - 1, cs.length, false⟩ = .ok e ∧
      (t.Exact cs wstart e.w e.wstart e.wend ↔ t.Separate cs) ∧
      (t.Separate cs → e.w ≠ none → e.userabbrev = t.userMarked cs) := by
  obtain ⟨front, c, rfl⟩ : ∃ front c, cs = front ++ [c] :=
    ⟨_, _, (List.dropLast_append_getLast some).symm⟩
  have last : (front ++ [c]).getLast? = .some c := by simp
  cases bad : t.ignores c with
  | false =>
      have run := t.trimEnds_left (front ++ [c]) [] (by simpa using decodes) c last bad
        ((front ++ [c]).length + 2) (by omega) wstart
        (wstart + (front ++ [c]).flatten.length - 1) false
      rw [List.append_nil] at run
      refine ⟨_, run, ⟨fun _ => .inr (.inl (by simp [bad])), fun _ => ⟨?_, fun w' same => ?_⟩⟩, fun _ _ => rfl⟩
      · simp only [List.append_nil, reduceCtorEq, false_iff, not_forall]
        exact ⟨c, by simp, by simp [bad]⟩
      · have parts := congrArg (fun ds : List Str => (ds.flatten.length : Int))
          (List.takeWhile_append_dropWhile (p := t.ignores) (l := front ++ [c]))
        simp only [List.flatten_append, List.length_append, Nat.cast_add] at parts
        rw [← Option.some.inj same, t.strip_ends front [] c bad (by simp), List.append_nil]
        refine ⟨rfl, rfl, ?_⟩
        simp only [List.flatten_append, List.length_append, Nat.cast_add]
        omega
  | true =>
      by_cases all : ∀ d ∈ front ++ [c], t.ignores d = true
      · obtain ⟨e, run, gone⟩ := t.trimEnds_all _ decodes some all _ le_rfl ((front ++ [c]).length + 2)
          (by omega) wstart (wstart + (front ++ [c]).flatten.length - 1) false
        exact ⟨e, run, ⟨fun _ => .inl all, fun _ => ⟨by simpa [gone] using all, by simp [gone]⟩⟩,
          fun _ some' => absurd gone some'⟩
      · obtain ⟨e, run, exact, marked⟩ := t.trimEnds_one front c decodes bad all wstart
        have one : t.Separate (front ++ [c]) ↔ t.OneAtEnd (front ++ [c]) := by
          rw [Separate, last]
          exact (or_iff_right all).trans (or_iff_right (by simp [bad]))
        exact ⟨e, run, exact.trans one.symm, fun separate _ => marked (one.mp separate)⟩

/-! The periods of a token. -/

def upToPeriod : List Str → List Str
  | [] => []
  | c :: cs => if c = lit "." then [c] else c :: upToPeriod cs

def dropFinal (cs : List Str) : List Str :=
  if cs.getLast? = some (lit ".") ∧ cs.dropLast.getLast?.any t.ignores then cs.dropLast else cs

def remaining (cs : List Str) : List Str :=
  t.dropFinal (upToPeriod (cs.dropWhile (· = lit ".")))

theorem period_of_mem {c : Str} (char : Utf8.isChar c = true) (period : 46 ∈ c) : c = lit "." := by
  have dot : lit "." = [46] := by decide
  rw [dot]
  exact Utf8.char_of_byte (by decide) char period

theorem char_ne_nil {c : Str} (char : Utf8.isChar c = true) : c ≠ [] := by
  rintro rfl
  simp [Utf8.isChar] at char

theorem dropPeriods_word (w : Str) (wstart wend : Int) :
    (dropPeriods w wstart wend).1 = w.dropWhile (· == 46) := by
  fun_induction dropPeriods w wstart wend with
  | case1 wstart wend w ih => simpa using ih
  | case2 w wstart wend other =>
      cases w with
      | nil => rfl
      | cons b w =>
          have here : ¬ b = 46 := fun same => other w (by rw [same])
          simp [here]

section Token

variable {cs : List Str} (chars : ∀ c ∈ cs, Utf8.isChar c = true)
include chars

theorem flatten_dropWhile :
    cs.flatten.dropWhile (· == 46) = (cs.dropWhile (· = lit ".")).flatten := by
  induction cs with
  | nil => rfl
  | cons c cs ih =>
      have later := ih fun d member => chars d (by simp [member])
      by_cases period : c = lit "."
      · subst period
        have dot : lit "." = [46] := by decide
        rw [List.flatten_cons, List.dropWhile_cons_of_pos (by simp), ← later, dot]
        simp
      · obtain ⟨b, tail, rfl⟩ := List.exists_cons_of_ne_nil (char_ne_nil (chars c (by simp)))
        have here : ¬ b = 46 := by
          rintro rfl
          exact period (period_of_mem (chars _ (by simp)) (by simp))
        rw [List.dropWhile_cons_of_neg (by simpa using period)]
        simp [here]

theorem dropPeriods_ends (wstart wend : Int) (rest : cs.dropWhile (· = lit ".") ≠ [])
    (long : wstart + cs.flatten.length - 1 ≤ wend) :
    (dropPeriods cs.flatten wstart wend).2 =
      (wstart + (cs.takeWhile (· = lit ".")).flatten.length, wend) := by
  induction cs generalizing wstart with
  | nil => simp at rest
  | cons c cs ih =>
      obtain ⟨b, tail, rfl⟩ := List.exists_cons_of_ne_nil (char_ne_nil (chars c (by simp)))
      by_cases period : b :: tail = lit "."
      · have dot : lit "." = [46] := by decide
        rw [List.dropWhile_cons_of_pos (by simpa using period)] at rest
        rw [dot, List.cons.injEq] at period
        obtain ⟨rfl, rfl⟩ := period
        have more : 1 ≤ cs.flatten.length := by
          obtain ⟨d, member⟩ := List.exists_mem_of_ne_nil _ rest
          have stays := (List.dropWhile_sublist _).mem member
          have size := (List.sublist_flatten_of_mem stays).length_le
          have filled := List.length_pos_iff.mpr (char_ne_nil (chars d (by simp [stays])))
          omega
        simp only [List.flatten_cons, List.singleton_append, List.length_cons] at long
        rw [List.flatten_cons, List.singleton_append, dropPeriods, if_neg (by omega),
          ih (fun d member => chars d (by simp [member])) (wstart + 1) rest (by omega),
          List.takeWhile_cons_of_pos (by simp [dot])]
        simp only [List.flatten_cons, List.singleton_append, List.length_cons, Prod.mk.injEq, and_true]
        omega
      · have here : ¬ b = 46 := by
          rintro rfl
          exact period (period_of_mem (chars _ (by simp)) (by simp))
        rw [List.takeWhile_cons_of_neg (by simpa using period), List.flatten_cons, List.cons_append,
          dropPeriods]
        · simp
        · exact fun w same => here (by simpa using congrArg List.head? same)

theorem upToPeriod_cases :
    (upToPeriod cs = cs ∧ 46 ∉ cs.flatten) ∨
      ∃ front back, cs = front ++ lit "." :: back ∧ 46 ∉ front.flatten ∧
        upToPeriod cs = front ++ [lit "."] := by
  induction cs with
  | nil => exact .inl ⟨rfl, by simp⟩
  | cons c cs ih =>
      by_cases period : c = lit "."
      · exact .inr ⟨[], cs, by simp [period], by simp, by simp [upToPeriod, period]⟩
      · have here : 46 ∉ c := fun inside => period (period_of_mem (chars c (by simp)) inside)
        rw [upToPeriod, if_neg period]
        rcases ih fun d member => chars d (by simp [member]) with ⟨same, none⟩ | ⟨front, back, same, none, cut⟩
        · exact .inl ⟨by rw [same], by simp only [List.flatten_cons, List.mem_append, not_or]; exact ⟨here, none⟩⟩
        · refine .inr ⟨c :: front, back, by rw [same]; rfl, ?_, by rw [cut]; rfl⟩
          simp only [List.flatten_cons, List.mem_append, not_or]
          exact ⟨here, none⟩

theorem cutAtPeriod_ends (wstart : Int) (head : cs.head? ≠ some (lit ".")) :
    cutAtPeriod cs.flatten wstart (wstart + cs.flatten.length - 1) =
      ((upToPeriod cs).flatten, wstart + (upToPeriod cs).flatten.length - 1) := by
  have dot : lit "." = [46] := by decide
  rcases upToPeriod_cases chars with ⟨same, none⟩ | ⟨front, back, same, none, cut⟩
  · have missing : dotpos cs.flatten = .none := by
      rw [dotpos, List.findIdx?_eq_none_iff.mpr (by simpa using fun b member => ne_of_mem_of_not_mem member none)]
      rfl
    rw [cutAtPeriod, missing, same]
  · have found : dotpos cs.flatten = some (front.flatten.length + 1) := by
      have shape : cs.flatten = front.flatten ++ 46 :: back.flatten := by rw [same, dot]; simp
      rw [dotpos, shape, List.findIdx?_append, List.findIdx?_eq_none_iff.mpr
        (by simpa using fun b member => ne_of_mem_of_not_mem member none)]
      simp [List.findIdx?_cons]
    have first : front.flatten.length ≠ 0 := by
      intro empty
      cases front with
      | nil => exact head (by simp [same])
      | cons c front =>
          have filled := List.length_pos_iff.mpr (char_ne_nil (chars c (by simp [same])))
          simp only [List.flatten_cons, List.length_append] at empty
          omega
    have size : (front ++ [lit "."]).flatten.length = front.flatten.length + 1 := by simp [dot]
    have front' : cs.flatten.take (front.flatten.length + 1) = (front ++ [lit "."]).flatten := by
      have shape : cs.flatten = (front ++ [lit "."]).flatten ++ back.flatten := by rw [same]; simp
      rw [shape, ← size, List.take_left]
    rw [cutAtPeriod, found, cut, size]
    simp only
    split
    · rw [sub_first, front']
    · rename_i whole
      have last : front.flatten.length + 1 = cs.flatten.length := by omega
      rw [← front', last, List.take_length]

end Token

theorem last_period (front : List Str) (c : Str) (char : Utf8.isChar c = true) :
    subFrom (front ++ [c]).flatten (front ++ [c]).flatten.length = lit "." ↔ c = lit "." := by
  have dot : lit "." = [46] := by decide
  obtain ⟨first, b, rfl⟩ : ∃ first b, c = first ++ [b] :=
    ⟨_, _, (List.dropLast_append_getLast (char_ne_nil char)).symm⟩
  have shape : (front ++ [first ++ [b]]).flatten = front.flatten ++ first ++ [b] := by simp
  have size : (front.flatten ++ first ++ [b]).length = (front.flatten ++ first).length + 1 := by
    rw [List.length_append, List.length_singleton]
  rw [shape, size, Nat.cast_succ, subFrom_succ, List.drop_left, dot]
  constructor
  · intro same
    rw [← dot]
    exact period_of_mem char (by rw [same]; simp)
  · intro same
    have parts := @List.append_inj' _ first [b] [] [46] same rfl
    exact parts.2

theorem dropLastPeriod_ends {cs : List Str} (readable : ∀ c ∈ cs, Utf8.Readable c)
    (head : cs.head? ≠ some (lit ".")) (wstart : Int) :
    t.dropLastPeriod cs.flatten (wstart + cs.flatten.length - 1) =
      .ok ((t.dropFinal cs).flatten, wstart + (t.dropFinal cs).flatten.length - 1) := by
  have decodes := Utf8.decodes_of_readable readable
  rcases List.eq_nil_or_concat' cs with rfl | ⟨front, c, rfl⟩
  · rfl
  · have same := last_period front c (readable c (by simp)).1
    rw [dropLastPeriod, dropFinal]
    by_cases period : c = lit "."
    · obtain ⟨front, d, rfl⟩ : ∃ first d, front = first ++ [d] := by
        rcases List.eq_nil_or_concat' front with rfl | whole
        · exact absurd (by simp [period]) head
        · exact whole
      have before : (front ++ [d] ++ [c])[front.length]? = some d := by simp
      have dot : lit "." = [46] := by decide
      rw [if_pos (same.mpr period), Utf8.len_decodes decodes]
      have index : ((front ++ [d] ++ [c]).length : Int) - 1 = (front.length : Int) + 1 := by
        simp only [List.length_append, List.length_singleton]
        omega
      simp only [run_bind_ok, index, Utf8.sub_char decodes before]
      have size : ((front ++ [d] ++ [c]).flatten.length : Int) - 1 = (front ++ [d]).flatten.length := by
        rw [List.flatten_append, period, dot]
        simp only [List.flatten_singleton, List.length_append, List.length_singleton]
        omega
      have cut : Lua.sub (front ++ [d] ++ [c]).flatten 1 ((front ++ [d] ++ [c]).flatten.length - 1) =
          (front ++ [d]).flatten := by
        rw [size, sub_first, @List.flatten_append _ (front ++ [d]), List.take_left]
      cases ignored : t.ignores d with
      | true =>
          rw [if_pos rfl, if_pos ⟨by simp [period], by simp [ignored]⟩, cut, List.dropLast_concat,
            show wstart + ((front ++ [d] ++ [c]).flatten.length : Int) - 1 - 1 =
              wstart + ((front ++ [d]).flatten.length : Int) - 1 by omega]
          rfl
      | false =>
          rw [if_neg (by simp), if_neg (by simp [ignored])]
          rfl
    · rw [if_neg (fun found => period (same.mp found)), if_neg (by simp [period])]
      rfl

/-! The whole function. -/

def MultiByte : Prop := ∀ c, t.ignores c = true → Utf8.isChar c = true ∧ 2 ≤ c.length

theorem high_of_multi {c : Str} (char : Utf8.isChar c = true) (multi : 2 ≤ c.length) : ∀ b ∈ c, 128 ≤ b := by
  match c, char with
  | [a], _ => simp at multi
  | [a, b], char =>
      simp only [Utf8.isChar, Utf8.isTail, Bool.and_eq_true, decide_eq_true_eq] at char
      grind
  | [a, b, c], char =>
      simp only [Utf8.isChar, Utf8.isTail, Bool.and_eq_true, Bool.or_eq_true, decide_eq_true_eq,
        beq_iff_eq] at char
      grind
  | [a, b, c, d], char =>
      simp only [Utf8.isChar, Utf8.isTail, Bool.and_eq_true, Bool.or_eq_true, decide_eq_true_eq,
        beq_iff_eq] at char
      grind

theorem findIgnored_run (multi : t.MultiByte) (w : Str) :
    ∃ found, findIgnored w ((pairs t.hash t.ignoretbl).map (·.1)) = .ok found := by
  have plain : ∀ ig ∈ (pairs t.hash t.ignoretbl).map (·.1), hasPattern ig = false := by
    intro ig member
    obtain ⟨⟨ig, v⟩, pair, rfl⟩ := List.mem_map.mp member
    have stored : t.ignores ig = true := by simp [ignores, (mem_pairs _ _ _ _).mp pair]
    have high := high_of_multi (multi ig stored).1 (multi ig stored).2
    have low : (lit "^$*+?.([%-").all (· < 128) = true := by decide
    simp only [hasPattern, List.any_eq_false, decide_eq_true_eq]
    intro b inside special
    have small := of_decide_eq_true (List.all_eq_true.mp low b special)
    exact absurd (high b inside) (by grind)
  generalize (pairs t.hash t.ignoretbl).map (·.1) = igs at plain
  induction igs with
  | nil => exact ⟨false, rfl⟩
  | cons ig igs ih =>
      obtain ⟨found, later⟩ := ih fun ig' member => plain ig' (by simp [member])
      simp only [findIgnored, find, plain ig (by simp), Bool.false_eq_true, if_false, run_bind_ok, later]
      split
      · exact ⟨true, rfl⟩
      · exact ⟨found, rfl⟩

def afterPeriods (front : Str) (cs : List Str) : Int :=
  front.length + 1 + (cs.takeWhile (· = lit ".")).flatten.length

/-- What `ignorechars` should do with a token that has `front` before it and `back` after
it in its text. -/
def Trims (front : Str) (cs : List Str) (back : Str) : Prop :=
  ∃ trimmed, t.ignorechars cs.flatten (front.length + 1) (front.length + cs.flatten.length) false =
      .ok trimmed ∧
    t.Exact (t.remaining cs) (afterPeriods front cs) trimmed.w trimmed.wstart trimmed.wend ∧
    ∀ w, trimmed.w = some w → sub (front ++ cs.flatten ++ back) trimmed.wstart trimmed.wend = w

/-- More than periods and no NUL before an inner period, and ends that the loop can
separate. -/
def Trimmable (cs : List Str) : Prop :=
  t.remaining cs ≠ [] ∧ [0] ∉ upToPeriod (cs.dropWhile (· = lit ".")) ∧ t.Separate (t.remaining cs)

theorem dropFinal_front (cs : List Str) : t.dropFinal cs <+: cs := by
  rw [dropFinal]
  split
  · exact List.dropLast_prefix cs
  · exact List.prefix_rfl

theorem dropFinal_ne_nil {cs : List Str} (some : cs ≠ []) : t.dropFinal cs ≠ [] := by
  rw [dropFinal]
  split
  · rename_i found
    intro empty
    simp [empty] at found
  · exact some

theorem upToPeriod_front (cs : List Str) : upToPeriod cs <+: cs := by
  induction cs with
  | nil => exact List.prefix_rfl
  | cons c cs ih =>
      rw [upToPeriod]
      split
      · exact List.prefix_cons_inj c |>.mpr List.nil_prefix
      · exact List.prefix_cons_inj c |>.mpr ih

theorem upToPeriod_ne_nil {cs : List Str} (some : cs ≠ []) : upToPeriod cs ≠ [] := by
  obtain ⟨c, cs, rfl⟩ := List.exists_cons_of_ne_nil some
  rw [upToPeriod]
  split <;> simp

theorem word_within (cs : List Str) :
    ∃ rest, cs = cs.takeWhile (· = lit ".") ++ (t.remaining cs).takeWhile t.ignores ++
      t.strip (t.remaining cs) ++ rest := by
  obtain ⟨right, word⟩ := List.rdropWhile_prefix t.ignores (l := (t.remaining cs).dropWhile t.ignores)
  obtain ⟨after, cut⟩ := (t.dropFinal_front _).trans (upToPeriod_front (cs.dropWhile (· = lit ".")))
  refine ⟨right ++ after, ?_⟩
  conv_lhs => rw [← List.takeWhile_append_dropWhile (p := (· = lit ".")) (l := cs), ← cut]
  have whole : t.dropFinal (upToPeriod (cs.dropWhile (· = lit "."))) =
      (t.remaining cs).takeWhile t.ignores ++ (t.strip (t.remaining cs) ++ right) := by
    rw [strip, word, List.takeWhile_append_dropWhile, remaining]
  rw [whole]
  simp only [List.append_assoc]

theorem span_word (front : Str) (cs : List Str) (back : Str) (wstart wend : Int)
    (first : wstart = afterPeriods front cs + ((t.remaining cs).takeWhile t.ignores).flatten.length)
    (last : wend = wstart + (t.strip (t.remaining cs)).flatten.length - 1) :
    sub (front ++ cs.flatten ++ back) wstart wend = (t.strip (t.remaining cs)).flatten := by
  obtain ⟨rest, whole⟩ := t.word_within cs
  have shape : front ++ cs.flatten ++ back =
      (front ++ (cs.takeWhile (· = lit ".")).flatten ++ ((t.remaining cs).takeWhile t.ignores).flatten) ++
        (t.strip (t.remaining cs)).flatten ++ (rest.flatten ++ back) := by
    conv_lhs => rw [whole]
    simp only [List.flatten_append, List.append_assoc]
  rw [shape, last, first, afterPeriods]
  convert sub_middle _ _ _ using 2
  · simp only [List.length_append, Nat.cast_add]
    omega
  · simp only [List.length_append, Nat.cast_add]
    omega

theorem head_token (cs : List Str) : (cs.dropWhile (· = lit ".")).head? ≠ some (lit ".") := by
  intro first
  have kept := List.head?_dropWhile_not (· = lit ".") cs
  simp [first] at kept

/-- What `ignorechars` does after its loop. -/
def afterLoop (abbrevcheck : Bool) (e : Ends) : Run Trimmed :=
  match e.w with
  | none => .ok ⟨none, e.wstart, e.wend, false, false⟩
  | some w => do
      let middlefound ← findIgnored w ((pairs t.hash t.ignoretbl).map (·.1))
      if abbrevcheck then
        let (w, wend, isabbrev) ← t.checkAbbrev w e.wend e.userabbrev middlefound
        return ⟨some w, e.wstart, wend, middlefound, isabbrev⟩
      else return ⟨some w, e.wstart, e.wend, middlefound, false⟩

section Parts

variable {cs : List Str} (chars : ∀ c ∈ cs, Utf8.isChar c = true) (front : Str)
include chars

theorem dropPeriods_token (more : cs.dropWhile (· = lit ".") ≠ []) :
    dropPeriods cs.flatten (front.length + 1) (front.length + cs.flatten.length) =
      ((cs.dropWhile (· = lit ".")).flatten, afterPeriods front cs,
        afterPeriods front cs + (cs.dropWhile (· = lit ".")).flatten.length - 1) := by
  have parts := congrArg (fun ds : List Str => (ds.flatten.length : Int))
    (List.takeWhile_append_dropWhile (p := (· = lit ".")) (l := cs))
  simp only [List.flatten_append, List.length_append, Nat.cast_add] at parts
  apply Prod.ext
  · rw [dropPeriods_word]
    exact flatten_dropWhile chars
  · rw [dropPeriods_ends chars _ _ more (by omega), afterPeriods]
    refine Prod.ext rfl ?_
    simp only
    omega

theorem ignorechars_ends (more : cs.dropWhile (· = lit ".") ≠ [])
    (readable : [0] ∉ upToPeriod (cs.dropWhile (· = lit "."))) (e : Ends)
    (run : t.trimEnds ((t.remaining cs).length + 2) ⟨some (t.remaining cs).flatten, afterPeriods front cs,
      afterPeriods front cs + (t.remaining cs).flatten.length - 1, (t.remaining cs).length, false⟩ = .ok e)
    (abbrevcheck : Bool) :
    t.ignorechars cs.flatten (front.length + 1) (front.length + cs.flatten.length) abbrevcheck =
      t.afterLoop abbrevcheck e := by
  have chars' : ∀ c ∈ cs.dropWhile (· = lit "."), Utf8.isChar c = true := fun c member =>
    chars c ((List.dropWhile_sublist _).mem member)
  have readable' : ∀ c ∈ upToPeriod (cs.dropWhile (· = lit ".")), Utf8.Readable c := fun c member =>
    ⟨chars' c ((upToPeriod_front _).subset member), fun same => readable (same ▸ member)⟩
  have first : (upToPeriod (cs.dropWhile (· = lit "."))).head? ≠ some (lit ".") := by
    obtain ⟨c, ds, same⟩ := List.exists_cons_of_ne_nil more
    have other := head_token cs
    rw [same] at other ⊢
    rw [upToPeriod, if_neg (by simpa using other)]
    simpa using other
  have readable'' : ∀ c ∈ t.remaining cs, Utf8.Readable c := fun c member =>
    readable' c ((t.dropFinal_front _).subset member)
  have decodes := Utf8.decodes_of_readable readable''
  have some' : (t.remaining cs).flatten ≠ [] := by
    obtain ⟨c, member⟩ := List.exists_mem_of_ne_nil _ (t.dropFinal_ne_nil (upToPeriod_ne_nil more))
    intro empty
    exact char_ne_nil (readable'' c member).1 (List.flatten_eq_nil_iff.mp empty c member)
  have cut := t.dropLastPeriod_ends readable' first (afterPeriods front cs)
  rw [← remaining] at cut
  rw [ignorechars, dropPeriods_token chars front more]
  simp only [cutAtPeriod_ends chars' _ (head_token cs), cut, run_bind_ok, Utf8.len_decodes decodes,
    if_neg some', run]
  rfl

theorem ignorechars_nul (more : cs.dropWhile (· = lit ".") ≠ [])
    (nul : [0] ∈ upToPeriod (cs.dropWhile (· = lit "."))) :
    t.ignorechars cs.flatten (front.length + 1) (front.length + cs.flatten.length) false =
      .error .raised := by
  have chars' : ∀ c ∈ cs.dropWhile (· = lit "."), Utf8.isChar c = true := fun c member =>
    chars c ((List.dropWhile_sublist _).mem member)
  have len := Utf8.len_nul (fun c member => chars' c ((upToPeriod_front _).subset member)) nul
  rw [ignorechars, dropPeriods_token chars front more]
  simp only [cutAtPeriod_ends chars' _ (head_token cs), dropLastPeriod, len]
  split
  · rfl
  · simp only [run_pure, run_bind_ok, len, run_bind_error]

end Parts

theorem ignorechars_periods (front : Str) (cs : List Str) (chars : ∀ c ∈ cs, Utf8.isChar c = true)
    (periods : cs.dropWhile (· = lit ".") = []) :
    ∃ trimmed, t.ignorechars cs.flatten (front.length + 1) (front.length + cs.flatten.length) false =
      .ok trimmed ∧ trimmed.w = some [] := by
  have word := dropPeriods_word cs.flatten (front.length + 1) (front.length + cs.flatten.length)
  rw [flatten_dropWhile chars, periods, List.flatten_nil] at word
  obtain ⟨wstart, wend, parts⟩ : ∃ wstart wend,
      dropPeriods cs.flatten (front.length + 1) (front.length + cs.flatten.length) = ([], wstart, wend) :=
    ⟨_, _, Prod.ext word rfl⟩
  rw [ignorechars, parts]
  exact ⟨_, rfl, rfl⟩

/-- `ignorechars` does what it should with the words that its loop can separate, and with
no others. -/
theorem ignorechars_trims (multi : t.MultiByte) (front : Str) (cs : List Str) (back : Str)
    (chars : ∀ c ∈ cs, Utf8.isChar c = true) : t.Trims front cs back ↔ t.Trimmable cs := by
  by_cases periods : cs.dropWhile (· = lit ".") = []
  · -- Of periods alone the empty word is left, with a span of one byte.
    obtain ⟨trimmed, ran, word⟩ := t.ignorechars_periods front cs chars periods
    have empty : t.remaining cs = [] := by rw [remaining, periods]; rfl
    constructor
    · intro ⟨trimmed', ran', exact, _⟩
      obtain rfl := Except.ok.inj (ran.symm.trans ran')
      have gone := exact.1.mpr (by simp [empty])
      exact absurd (word.symm.trans gone) (by simp)
    · intro trimmable
      exact absurd empty trimmable.1
  by_cases nul : [0] ∈ upToPeriod (cs.dropWhile (· = lit "."))
  · have raised := t.ignorechars_nul chars front periods nul
    constructor
    · intro ⟨trimmed, ran, _⟩
      exact absurd (raised.symm.trans ran) (by simp)
    · intro trimmable
      exact absurd nul trimmable.2.1
  have some := t.dropFinal_ne_nil (upToPeriod_ne_nil periods)
  have readable : ∀ c ∈ t.remaining cs, Utf8.Readable c := by
    intro c member
    have inside := (t.dropFinal_front _).subset member
    exact ⟨chars c ((List.dropWhile_sublist _).mem ((upToPeriod_front _).subset inside)),
      fun same => nul (same ▸ inside)⟩
  obtain ⟨e, run, exact, _⟩ := t.trimEnds_exact (t.remaining cs) (Utf8.decodes_of_readable readable) some
    (afterPeriods front cs)
  obtain ⟨trimmed, ran, word, first, last⟩ : ∃ trimmed,
      t.ignorechars cs.flatten (front.length + 1) (front.length + cs.flatten.length) false = .ok trimmed ∧
        trimmed.w = e.w ∧ trimmed.wstart = e.wstart ∧ trimmed.wend = e.wend := by
    rw [t.ignorechars_ends chars front periods nul e run false, afterLoop]
    cases e.w with
    | none => exact ⟨_, rfl, rfl, rfl, rfl⟩
    | some w =>
        obtain ⟨found, searched⟩ := t.findIgnored_run multi w
        exact ⟨⟨_, e.wstart, e.wend, found, false⟩, by simp only [searched]; rfl, rfl, rfl, rfl⟩
  constructor
  · intro ⟨trimmed', ran', exact', _⟩
    obtain rfl := Except.ok.inj (ran.symm.trans ran')
    rw [word, first, last] at exact'
    exact ⟨some, nul, exact.mp exact'⟩
  · intro trimmable
    have exact' := exact.mpr trimmable.2.2
    refine ⟨trimmed, ran, by rwa [word, first, last], fun w same => ?_⟩
    rw [word] at same
    obtain ⟨shape, left, right⟩ := exact'.2 w same
    rw [shape] at right ⊢
    rw [first, last]
    exact t.span_word front cs back e.wstart e.wend left right

def quoteTables : Tables := { Tables.empty with ignoretbl := AList.insert (lit "»") () ∅ }

theorem quoteTables_multi : quoteTables.MultiByte := by
  intro c ignored
  by_cases quote : c = lit "»"
  · subst quote
    decide
  · have missing : field quoteTables.ignoretbl c = none := (field_insert_ne _ _ _ _ quote).trans rfl
    simp [ignores, missing] at ignored

theorem ignorechars_trims_et : quoteTables.Trims (lit "«") [lit "e", lit "t", lit "»"] (lit " sic") := by
  have readable : ∀ c ∈ [lit "e", lit "t", lit "»"], Utf8.isChar c = true := by decide
  apply (quoteTables.ignorechars_trims quoteTables_multi _ _ _ readable).mpr
  have whole : quoteTables.remaining [lit "e", lit "t", lit "»"] = [] ++ [lit "e", lit "t", lit "»"] := by
    decide
  refine ⟨by decide, by decide, .inr (.inr ?_)⟩
  exact ⟨[], lit "e", lit "t", lit "»", whole, by decide, by decide⟩

/-- A word of one letter is taken off with the quotation mark after it. -/
theorem ignorechars_quoted_letter :
    ¬ ∀ (t : Tables) (front : Str) (cs : List Str) (back : Str), t.MultiByte →
      (∀ c ∈ cs, Utf8.isChar c = true) → t.Trims front cs back := by
  intro claim
  have readable : ∀ c ∈ [lit "o", lit "»"], Utf8.isChar c = true := by decide
  obtain ⟨trimmed, ran, exact, _⟩ := claim quoteTables [] [lit "o", lit "»"] [] quoteTables_multi readable
  have gone : quoteTables.ignorechars (lit "o»") 1 3 false = .ok ⟨none, 1, 1, false, false⟩ := by decide
  have same : trimmed = ⟨none, 1, 1, false, false⟩ := Except.ok.inj (ran.symm.trans gone)
  rw [same] at exact
  have letter := exact.1.mp rfl (lit "o") (by decide)
  exact absurd letter (by decide)

end Tables

end Maccer
