import Mathlib.Data.Nat.Init
import Mathlib.Logic.Function.Basic

/-! Pieces of a list exchanged for others, and put back by position from the last to the
first. -/

namespace Edits

variable {α β : Type}

def exchange (l : List α) (start count : Nat) (new : List α) : List α :=
  l.take start ++ new ++ l.drop (start + count)

abbrev Log (α : Type) := Nat → Option (List α × Nat)

def undoAt (log : Log α) (l : List α) (pos : Nat) : List α :=
  match log pos with
  | none => l
  | some (old, count) => exchange l (pos - 1) count old

def undo (log : Log α) : Nat → List α → List α
  | 0, l => l
  | pos + 1, l => undo log pos (undoAt log l (pos + 1))

theorem exchange_map (f : α → β) (l : List α) (start count : Nat) (new : List α) :
    (exchange l start count new).map f = exchange (l.map f) start count (new.map f) := by
  simp [exchange]

theorem exchange_append (front old back new : List α) :
    exchange (front ++ old ++ back) front.length old.length new = front ++ new ++ back := by
  simp [exchange]

theorem exchange_room (l : List α) (start count : Nat) (new : List α) (room : start ≤ l.length) :
    start ≤ (exchange l start count new).length := by
  simp only [exchange, List.length_append, List.length_take]
  omega

theorem exchange_behind (front old new back : List α) (start count : Nat) (later : List α)
    (same : old.length = new.length) (behind : front.length + old.length ≤ start) :
    ∃ back', exchange (front ++ old ++ back) start count later = front ++ old ++ back' ∧
      exchange (front ++ new ++ back) start count later = front ++ new ++ back' := by
  have shape (piece : List α) (length : piece.length = new.length) :
      exchange (front ++ piece ++ back) start count later =
        front ++ piece ++ exchange back (start - (front ++ new).length) count later := by
    have whole : (front ++ piece).length = (front ++ new).length := by simp [length]
    have reach : (front ++ piece).length ≤ start := by
      rw [List.length_append]
      omega
    unfold exchange
    rw [List.take_append, List.take_of_length_le reach, List.drop_append,
      List.drop_eq_nil_of_le (by omega), List.nil_append, whole,
      Nat.sub_add_comm (by omega)]
    simp only [List.append_assoc]
  exact ⟨_, shape old same, shape new rfl⟩

theorem undoAt_none {log : Log α} {pos : Nat} (free : log pos = none) (l : List α) :
    undoAt log l pos = l := by
  rw [undoAt, free]

theorem undoAt_some {log : Log α} {pos count : Nat} {old : List α} (made : log pos = some (old, count))
    (l : List α) : undoAt log l pos = exchange l (pos - 1) count old := by
  rw [undoAt, made]

theorem undo_congr {log other : Log α} (n : Nat) (agree : ∀ pos ≤ n, log pos = other pos) (l : List α) :
    undo log n l = undo other n l := by
  induction n generalizing l with
  | zero => rfl
  | succ n ih =>
      have here : undoAt log l (n + 1) = undoAt other l (n + 1) := by
        simp only [undoAt, agree (n + 1) (Nat.le_refl _)]
      calc
        undo log (n + 1) l = undo log n (undoAt other l (n + 1)) := by rw [undo, here]
        _ = undo other n (undoAt other l (n + 1)) := ih (fun pos less => agree pos (by omega)) _

theorem undo_empty (n : Nat) (l : List α) : undo (fun _ => none) n l = l := by
  induction n generalizing l with
  | zero => rfl
  | succ n ih => exact ih l

/-- A new exchange is undone with the ones before it when each of these stands before it, or
behind it with the length unchanged. What is left of it is put back from behind. -/
theorem undo_record (log : Log α) (front old new : List α) (free : log (front.length + 1) = none)
    (n : Nat) (reach : front.length + 1 ≤ n) (back : List α)
    (apart : ∀ pos, log pos ≠ none → front.length < pos → pos ≤ n →
      front.length + old.length < pos ∧ old.length = new.length)
    (room : ∀ pos, log pos ≠ none → pos ≤ n → pos ≤ (front ++ old ++ back).length + 1) :
    undo (Function.update log (front.length + 1) (some (old, new.length))) n (front ++ new ++ back) =
      undo log n (front ++ old ++ back) := by
  induction n, reach using Nat.le_induction generalizing back with
  | base =>
      have put : undoAt (Function.update log (front.length + 1) (some (old, new.length)))
          (front ++ new ++ back) (front.length + 1) = front ++ old ++ back := by
        rw [undoAt_some (Function.update_self ..)]
        exact exchange_append front new back old
      rw [undo, put, undo, undoAt_none free]
      apply undo_congr
      intro pos less
      exact Function.update_of_ne (by omega) _ _
  | succ n reach ih =>
      have other : Function.update log (front.length + 1) (some (old, new.length)) (n + 1) = log (n + 1) :=
        Function.update_of_ne (by omega) _ _
      rw [undo, undo]
      cases made : log (n + 1) with
      | none =>
          rw [undoAt_none (other.trans made), undoAt_none made]
          exact ih back (fun pos logged after less => apart pos logged after (by omega))
            fun pos logged less => room pos logged (by omega)
      | some entry =>
          obtain ⟨later, count⟩ := entry
          have filled : log (n + 1) ≠ none := by simp [made]
          obtain ⟨behind, same⟩ := apart (n + 1) filled (by omega) (Nat.le_refl _)
          have inside := room (n + 1) filled (Nat.le_refl _)
          obtain ⟨back', before, after⟩ :=
            exchange_behind front old new back (n + 1 - 1) count later same (by omega)
          have kept : n ≤ (front ++ old ++ back').length := by
            rw [← before]
            exact exchange_room _ _ _ _ (by omega)
          rw [undoAt_some (other.trans made), undoAt_some made, before, after]
          exact ih back' (fun pos logged after less => apart pos logged after (by omega))
            fun pos logged less => by omega

end Edits
