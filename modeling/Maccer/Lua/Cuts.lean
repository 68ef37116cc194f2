import Maccer.Lua.Matching

/-! The bytes that `gsub` takes out of a string when it puts nothing in. -/

namespace Lua

def keep : List Bool → Str → Str
  | mark :: marks, b :: s => if mark then keep marks s else b :: keep marks s
  | _, s => s

def overlay : List Bool → List Bool → List Bool
  | true :: marks, later => true :: overlay marks later
  | false :: marks, mark :: later => mark :: overlay marks later
  | false :: marks, [] => false :: marks
  | [], later => later

theorem keep_nil (marks : List Bool) : keep marks [] = [] := by
  cases marks <;> rfl

theorem keep_length_le (marks : List Bool) (s : Str) : (keep marks s).length ≤ s.length := by
  induction marks generalizing s with
  | nil => exact le_rfl
  | cons mark marks ih =>
      cases s with
      | nil => exact le_rfl
      | cons b s =>
          have later := ih s
          cases mark with
          | true => exact later.trans (Nat.le_succ _)
          | false => exact Nat.succ_le_succ later

theorem keep_subset (marks : List Bool) (s : Str) : keep marks s ⊆ s := by
  induction marks generalizing s with
  | nil => exact List.Subset.refl s
  | cons mark marks ih =>
      cases s with
      | nil => exact List.Subset.refl []
      | cons b s =>
          cases mark with
          | true => exact fun c member => List.mem_cons_of_mem b (ih s member)
          | false => exact List.cons_subset_cons b (ih s)

theorem keep_overlay (marks later : List Bool) (s : Str) :
    keep (overlay marks later) s = keep later (keep marks s) := by
  induction marks generalizing later s with
  | nil => rfl
  | cons mark marks ih =>
      cases s with
      | nil => rw [keep_nil, keep_nil, keep_nil]
      | cons b s =>
          cases mark with
          | true => exact ih later s
          | false =>
              cases later with
              | nil => rfl
              | cons mark later =>
                  cases mark with
                  | true => exact ih later s
                  | false => exact congrArg (b :: ·) (ih later s)

theorem keep_cut (count : Nat) (marks : List Bool) (s : Str) :
    keep (List.replicate count true ++ marks) s = keep marks (s.drop count) := by
  induction count generalizing s with
  | zero => rfl
  | succ count ih =>
      cases s with
      | nil => rw [keep_nil, List.drop_nil, keep_nil]
      | cons b s => exact ih s

theorem keep_none (count : Nat) (s : Str) : keep (List.replicate count false) s = s := by
  induction count generalizing s with
  | zero => rfl
  | succ count ih =>
      cases s with
      | nil => rfl
      | cons b s => exact congrArg (b :: ·) (ih s)

theorem keep_front (count : Nat) (marks : List Bool) (s : Str) :
    keep (List.replicate count false ++ marks) s = s.take count ++ keep marks (s.drop count) := by
  induction count generalizing s with
  | zero => rfl
  | succ count ih =>
      cases s with
      | nil => rw [keep_nil, List.drop_nil, keep_nil, List.take_nil, List.append_nil]
      | cons b s => exact congrArg (b :: ·) (ih s)

theorem overlay_front (count : Nat) (marks later : List Bool) (inside : count ≤ later.length) :
    overlay (List.replicate count false ++ marks) later = later.take count ++ overlay marks (later.drop count) := by
  induction count generalizing later with
  | zero => rfl
  | succ count ih =>
      cases later with
      | nil => exact absurd inside (Nat.not_succ_le_zero count)
      | cons mark later => exact congrArg (mark :: ·) (ih later (Nat.le_of_succ_le_succ inside))

theorem overlay_cut (count : Nat) (marks later : List Bool) :
    overlay (List.replicate count true ++ marks) later = List.replicate count true ++ overlay marks later := by
  induction count with
  | zero => rfl
  | succ count ih => exact congrArg (true :: ·) ih

theorem overlay_none (later : List Bool) : overlay (List.replicate later.length false) later = later := by
  induction later with
  | nil => rfl
  | cons mark later ih => exact congrArg (mark :: ·) ih

def cutsFrom (s pattern : Str) : Nat → Nat → Nat → Run (List Bool)
  | 0, _, _ => .error .running
  | fuel + 1, count, i =>
      if count = 0 then .ok (List.replicate (s.length - i) false)
      else match matchAt s pattern i with
        | .error fault => .error fault
        | .ok (some (stop, _)) =>
            if i < stop then (cutsFrom s pattern fuel (count - 1) stop).map (List.replicate (stop - i) true ++ ·)
            else if i < s.length then (cutsFrom s pattern fuel (count - 1) (i + 1)).map (false :: ·)
            else .ok []
        | .ok none =>
            if i < s.length then (cutsFrom s pattern fuel count (i + 1)).map (false :: ·) else .ok []

def cuts (s pattern : Str) : Run (List Bool) := cutsFrom s pattern (s.length + 2) (s.length + 1) 0

theorem gsubFrom_cuts (s pattern : Str) (fuel count i : Nat) :
    gsubFrom s pattern [] fuel count i = (cutsFrom s pattern fuel count i).map fun marks => keep marks (s.drop i) := by
  induction fuel generalizing count i with
  | zero => rfl
  | succ fuel ih =>
      have passed (count : Nat) (inside : i < s.length) :
          (do
            let rest ← gsubFrom s pattern [] fuel count (i + 1)
            return (s.drop i).take 1 ++ rest : Run Str) =
          ((cutsFrom s pattern fuel count (i + 1)).map (false :: ·)).map fun marks => keep marks (s.drop i) := by
        rw [ih, List.drop_eq_getElem_cons inside]
        cases cutsFrom s pattern fuel count (i + 1) <;> rfl
      rw [gsubFrom, cutsFrom]
      split
      case isTrue => exact congrArg Except.ok (keep_none _ _).symm
      case isFalse =>
        cases matchAt s pattern i with
        | error fault => rfl
        | ok found =>
            cases found with
            | none =>
                dsimp only
                split
                case isTrue inside => exact passed count inside
                case isFalse beyond => rw [List.drop_eq_nil_of_le (Nat.le_of_not_lt beyond)]; rfl
            | some found =>
                dsimp only [fillIn, run_bind_ok]
                split
                case isTrue after =>
                  rw [ih]
                  cases cutsFrom s pattern fuel (count - 1) found.1 with
                  | error fault => rfl
                  | ok marks =>
                      have cut := keep_cut (found.1 - i) marks (s.drop i)
                      rw [List.drop_drop, Nat.add_sub_cancel' after.le] at cut
                      exact congrArg Except.ok cut.symm
                case isFalse =>
                  split
                  case isTrue inside => exact passed (count - 1) inside
                  case isFalse beyond => rw [List.drop_eq_nil_of_le (Nat.le_of_not_lt beyond)]; rfl

theorem gsubAll_cuts (s pattern : Str) :
    gsubAll s pattern [] = (cuts s pattern).map fun marks => keep marks s := by
  rw [gsubAll, gsub, gsubFrom_cuts, List.drop_zero]
  rfl

theorem cutsFrom_none (s pattern : Str) (fuel count i : Nat) (misses : ∀ j, i ≤ j → matchAt s pattern j = .ok none)
    (enough : s.length - i < fuel) :
    cutsFrom s pattern fuel count i = .ok (List.replicate (s.length - i) false) := by
  induction fuel generalizing i with
  | zero => omega
  | succ fuel ih =>
      rw [cutsFrom, misses i le_rfl]
      split
      case isTrue => rfl
      case isFalse =>
        dsimp only
        split
        case isTrue inside =>
          rw [ih (i + 1) (fun j after => misses j (by omega)) (by omega),
            show s.length - i = s.length - (i + 1) + 1 by omega]
          rfl
        case isFalse beyond =>
          rw [show s.length - i = 0 by omega]
          rfl

theorem cutsFrom_skip (s pattern : Str) (fuel count i skip : Nat) (some : count ≠ 0)
    (misses : ∀ j, i ≤ j → j < i + skip → matchAt s pattern j = .ok none) (inside : i + skip ≤ s.length) :
    cutsFrom s pattern (fuel + skip) count i =
      (cutsFrom s pattern fuel count (i + skip)).map (List.replicate skip false ++ ·) := by
  induction skip generalizing i with
  | zero => cases cutsFrom s pattern fuel count i <;> rfl
  | succ skip ih =>
      rw [← Nat.add_assoc, cutsFrom, if_neg some, misses i le_rfl (by omega)]
      dsimp only
      rw [if_pos (by omega), ih (i + 1) (fun j after less => misses j (by omega) (by omega)) (by omega),
        show i + 1 + skip = i + (skip + 1) by omega]
      cases cutsFrom s pattern fuel count (i + (skip + 1)) <;> rfl

end Lua
