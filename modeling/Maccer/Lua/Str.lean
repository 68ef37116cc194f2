import Mathlib.Tactic

/-! Lua strings: byte strings with one-based, inclusive positions. -/

namespace Lua

abbrev Str := List UInt8

instance : LawfulBEq Str := inferInstance

def lit (text : String) : Str := text.toList.flatMap String.utf8EncodeChar

theorem lit_chars (cs : List Char) : lit (String.ofList cs) = cs.flatMap String.utf8EncodeChar := by
  rw [lit, String.toList_ofList]

inductive Fault where
  | raised
  | running
  deriving DecidableEq, Repr

abbrev Run (α : Type) := Except Fault α

instance {α : Type} [DecidableEq α] : DecidableEq (Run α)
  | .ok a, .ok b => decidable_of_iff (a = b) (by simp)
  | .error e, .error f => decidable_of_iff (e = f) (by simp)
  | .ok _, .error _ => isFalse (by simp)
  | .error _, .ok _ => isFalse (by simp)

section Run

variable {α β : Type}

@[simp] theorem run_pure (a : α) : (pure a : Run α) = .ok a := rfl

@[simp] theorem run_throw (fault : Fault) : (throw fault : Run α) = .error fault := rfl

@[simp] theorem run_bind_ok (a : α) (next : α → Run β) : ((.ok a : Run α) >>= next) = next a := rfl

@[simp] theorem run_bind_error (fault : Fault) (next : α → Run β) :
    ((.error fault : Run α) >>= next) = .error fault := rfl

@[simp] theorem run_map_ok (f : α → β) (a : α) : f <$> (.ok a : Run α) = .ok (f a) := rfl

@[simp] theorem run_map_error (f : α → β) (fault : Fault) :
    f <$> (.error fault : Run α) = .error fault := rfl

theorem bind_eq_ok {x : Run α} {next : α → Run β} {b : β} :
    x >>= next = .ok b ↔ ∃ a, x = .ok a ∧ next a = .ok b := by
  cases x <;> simp

theorem map_eq_ok {f : α → β} {x : Run α} {b : β} :
    f <$> x = .ok b ↔ ∃ a, x = .ok a ∧ f a = b := by
  cases x <;> simp

theorem exists_ok {x : Run α} (returns : x.toBool = true) : ∃ a, x = .ok a := by
  cases x with
  | ok a => exact ⟨a, rfl⟩
  | error fault => cases returns

end Run

/-- `string.sub`: negative positions count from the end, and positions beyond
either end are moved to it. -/
def sub (s : Str) (i j : Int) : Str :=
  let first := if i < 0 then max (s.length + i + 1) 1 else max i 1
  let last := if j < 0 then s.length + j + 1 else j
  (s.take last.toNat).drop (first - 1).toNat

def subFrom (s : Str) (i : Int) : Str := sub s i (-1)

theorem sub_first (s : Str) (n : Nat) : sub s 1 n = s.take n := by
  have positive : ¬ (n : Int) < 0 := by omega
  simp [sub, positive]

theorem sub_of_toNat (s : Str) (i j : Int) (first : 1 ≤ i) (last : 0 ≤ j) :
    sub s i j = (s.take j.toNat).drop (i - 1).toNat := by
  have left : ¬ i < 0 := by omega
  have right : ¬ j < 0 := by omega
  simp [sub, left, right, max_eq_left first]

theorem subFrom_succ (s : Str) (n : Nat) : subFrom s (n + 1) = s.drop n := by
  have left : ¬ (n : Int) + 1 < 0 := by omega
  simp [subFrom, sub, left]

theorem sub_middle (front word back : Str) :
    sub (front ++ word ++ back) (front.length + 1) (front.length + word.length) = word := by
  rw [sub_of_toNat _ _ _ (by omega) (by omega)]
  have last : ((front.length : Int) + word.length).toNat = (front ++ word).length := by
    simp only [List.length_append]
    omega
  have first : ((front.length : Int) + 1 - 1).toNat = front.length := by omega
  rw [last, first, List.take_left, List.drop_left]

def decimal (n : Nat) : Str := (Nat.toDigits 10 n).map fun c => c.toNat.toUInt8

def isDigit (b : UInt8) : Bool := 48 ≤ b && b ≤ 57

theorem byte_cases (property : UInt8 → Prop) (each : ∀ n : Fin 256, property (UInt8.ofNat n))
    (b : UInt8) : property b := by
  simpa using each ⟨b.toNat, b.toNat_lt⟩

def tonumber (s : Str) : Option Nat :=
  if s ≠ [] ∧ s.all isDigit = true then
    some (s.foldl (fun n b => 10 * n + (b.toNat - 48)) 0)
  else none

def digitByte (d : Nat) : UInt8 := (48 + d).toUInt8

theorem decimal_small (n : Nat) (small : n < 10) : decimal n = [digitByte n] := by
  rw [decimal, Nat.toDigits_of_lt_base small]
  interval_cases n <;> rfl

theorem decimal_step (n : Nat) (large : 10 ≤ n) :
    decimal n = decimal (n / 10) ++ [digitByte (n % 10)] := by
  rw [decimal, Nat.toDigits_of_base_le (by decide) large, List.map_append]
  have digit : n % 10 < 10 := Nat.mod_lt _ (by decide)
  have last : List.map (fun c : Char => c.toNat.toUInt8) [(n % 10).digitChar] =
      [digitByte (n % 10)] := by
    interval_cases n % 10 <;> rfl
  rw [last, decimal]

theorem isDigit_digitByte (d : Nat) (small : d < 10) : isDigit (digitByte d) = true := by
  interval_cases d <;> rfl

theorem decimal_digits (n : Nat) : ∀ b ∈ decimal n, isDigit b = true := by
  induction n using Nat.strong_induction_on with
  | _ n ih =>
      by_cases small : n < 10
      · rw [decimal_small n small]
        intro b member
        rw [List.mem_singleton.mp member]
        exact isDigit_digitByte n small
      · rw [decimal_step n (by omega)]
        intro b member
        rcases List.mem_append.mp member with front | last
        · exact ih (n / 10) (by omega) b front
        · rw [List.mem_singleton.mp last]
          exact isDigit_digitByte _ (Nat.mod_lt _ (by decide))

theorem decimal_ne_nil (n : Nat) : decimal n ≠ [] := by
  simp [decimal, Nat.toDigits_ne_nil]

theorem digitByte_value (d : Nat) (small : d < 10) : (digitByte d).toNat - 48 = d := by
  interval_cases d <;> rfl

theorem decimal_value (n : Nat) :
    (decimal n).foldl (fun m b => 10 * m + (b.toNat - 48)) 0 = n := by
  induction n using Nat.strong_induction_on with
  | _ n ih =>
      by_cases small : n < 10
      · rw [decimal_small n small]
        simp [digitByte_value n small]
      · have digit : n % 10 < 10 := Nat.mod_lt _ (by decide)
        rw [decimal_step n (by omega), List.foldl_append, ih (n / 10) (by omega)]
        simp only [List.foldl_cons, List.foldl_nil, digitByte_value _ digit]
        omega

theorem tonumber_decimal (n : Nat) : tonumber (decimal n) = some n := by
  have digits : (decimal n).all isDigit = true := List.all_eq_true.mpr (decimal_digits n)
  rw [tonumber, if_pos ⟨decimal_ne_nil n, digits⟩, decimal_value]

theorem decimal_injective {m n : Nat} (same : decimal m = decimal n) : m = n := by
  have values := congrArg tonumber same
  simpa only [tonumber_decimal, Option.some.injEq] using values

theorem prefix_before (mark front back : Str) (b : UInt8) (absent : b ∉ mark)
    (starts : mark <+: front ++ b :: back) : mark <+: front := by
  rcases Nat.le_total mark.length front.length with short | long
  · exact List.prefix_of_prefix_length_le starts (List.prefix_append _ _) short
  · rcases Nat.eq_or_lt_of_le long with same | longer
    · have whole : front = mark :=
        (List.prefix_of_prefix_length_le (List.prefix_append _ _) starts long).eq_of_length same
      rw [whole]
    · have through : front ++ [b] <+: mark :=
        List.prefix_of_prefix_length_le ⟨back, by simp⟩ starts (by simpa using longer)
      exact absurd (through.subset (by simp)) absent

end Lua
