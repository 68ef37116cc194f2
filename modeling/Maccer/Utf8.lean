import Maccer.Lua.Str

/-! `scripts/utf8.lua`: strings taken as sequences of UTF-8 characters. -/

namespace Maccer.Utf8

open Lua

def charbytes (c : UInt8) : Option Nat :=
  if 0 < c ∧ c ≤ 127 then some 1
  else if 194 ≤ c ∧ c ≤ 223 then some 2
  else if 224 ≤ c ∧ c ≤ 239 then some 3
  else if 240 ≤ c ∧ c ≤ 244 then some 4
  else none

/-- The characters that a loop adding `charbytes` steps through, and the bytes
left over where it raises. Each step passes at least one byte. -/
def charsFrom : Nat → Str → List Str × Str
  | 0, s => ([], s)
  | _ + 1, [] => ([], [])
  | fuel + 1, c :: rest =>
      match charbytes c with
      | none => ([], c :: rest)
      | some n =>
          let later := charsFrom fuel ((c :: rest).drop n)
          ((c :: rest).take n :: later.1, later.2)

def chars (s : Str) : List Str × Str := charsFrom s.length s

def len (s : Str) : Run Nat :=
  if (chars s).2 = [] then .ok (chars s).1.length else .error .raised

def offset (cs : List Str) (k : Nat) : Nat := (cs.take k).flatten.length

/-- `utf8.sub`. The loop stops at the last character wanted, so that bytes after
it are not looked at; a character number that is not reached leaves the byte
offset at the end of the string it started from. -/
def sub (s : Str) (i j : Int) : Run Str := do
  let l ← if 0 ≤ i ∧ 0 ≤ j then pure 0 else len s
  let startChar := if 0 ≤ i then i else l + i + 1
  let endChar := if 0 ≤ j then j else l + j + 1
  if startChar > endChar then return []
  let cs := (chars s).1
  let startByte : Int :=
    if 1 ≤ startChar ∧ startChar ≤ cs.length then offset cs (startChar.toNat - 1) + 1 else 1
  if 1 ≤ endChar ∧ endChar ≤ cs.length then
    return Lua.sub s startByte (offset cs endChar.toNat)
  else if (chars s).2 = [] then return Lua.sub s startByte s.length
  else throw .raised

/-- `utf8.replace`: every character that has an entry becomes that entry. -/
def replace (s : Str) (mapping : Str → Option Str) : Run Str :=
  if (chars s).2 = [] then .ok ((chars s).1.flatMap fun c => (mapping c).getD c)
  else .error .raised

/-! The UTF-8 grammar that the source quotes. -/

def isTail (b : UInt8) : Bool := 0x80 ≤ b && b ≤ 0xBF

def isChar : Str → Bool
  | [a] => a ≤ 0x7F
  | [a, b] => (0xC2 ≤ a && a ≤ 0xDF) && isTail b
  | [a, b, c] =>
      (a == 0xE0 && (0xA0 ≤ b && b ≤ 0xBF) || (0xE1 ≤ a && a ≤ 0xEC) && isTail b ||
        a == 0xED && (0x80 ≤ b && b ≤ 0x9F) || (0xEE ≤ a && a ≤ 0xEF) && isTail b) && isTail c
  | [a, b, c, d] =>
      (a == 0xF0 && (0x90 ≤ b && b ≤ 0xBF) || (0xF1 ≤ a && a ≤ 0xF3) && isTail b ||
        a == 0xF4 && (0x80 ≤ b && b ≤ 0x8F)) && isTail c && isTail d
  | _ => false

def Readable (c : Str) : Prop := isChar c = true ∧ c ≠ [0]

instance (c : Str) : Decidable (Readable c) := by unfold Readable; infer_instance

def Valid (s : Str) : Prop := ∃ cs : List Str, (∀ c ∈ cs, Readable c) ∧ s = cs.flatten

/-- UTF-8, in which a NUL may stand. -/
def Encoded (s : Str) : Prop := ∃ cs : List Str, (∀ c ∈ cs, isChar c = true) ∧ s = cs.flatten

theorem charbytes_two (c : UInt8) (low : 194 ≤ c) (high : c ≤ 223) : charbytes c = some 2 := by
  unfold charbytes
  grind

theorem charbytes_three (c : UInt8) (low : 224 ≤ c) (high : c ≤ 239) : charbytes c = some 3 := by
  unfold charbytes
  grind

theorem charbytes_four (c : UInt8) (low : 240 ≤ c) (high : c ≤ 244) : charbytes c = some 4 := by
  unfold charbytes
  grind

theorem charbytes_of_readable (c : Str) (readable : Readable c) :
    ∃ b tail, c = b :: tail ∧ charbytes b = some c.length := by
  obtain ⟨valid, notNul⟩ := readable
  match c, valid with
  | [a], valid =>
      refine ⟨a, [], rfl, ?_⟩
      have nonzero : a ≠ 0 := fun zero => notNul (by rw [zero])
      simp only [isChar, decide_eq_true_eq] at valid
      rw [charbytes, if_pos ⟨UInt8.pos_iff_ne_zero.mpr nonzero, valid⟩]
      rfl
  | [a, b], valid =>
      simp only [isChar, Bool.and_eq_true, decide_eq_true_eq] at valid
      exact ⟨a, [b], rfl, charbytes_two a valid.1.1 valid.1.2⟩
  | [a, b, c], valid =>
      simp only [isChar, Bool.and_eq_true, Bool.or_eq_true, decide_eq_true_eq, beq_iff_eq] at valid
      have lead : 224 ≤ a ∧ a ≤ 239 := by grind
      exact ⟨a, [b, c], rfl, charbytes_three a lead.1 lead.2⟩
  | [a, b, c, d], valid =>
      simp only [isChar, Bool.and_eq_true, Bool.or_eq_true, decide_eq_true_eq, beq_iff_eq] at valid
      have lead : 240 ≤ a ∧ a ≤ 244 := by grind
      exact ⟨a, [b, c, d], rfl, charbytes_four a lead.1 lead.2⟩

theorem charsFrom_flatten (cs : List Str) (readable : ∀ c ∈ cs, Readable c) (fuel : Nat)
    (enough : cs.length ≤ fuel) : charsFrom fuel cs.flatten = (cs, []) := by
  induction cs generalizing fuel with
  | nil => cases fuel <;> rfl
  | cons c cs ih =>
      obtain ⟨b, tail, rfl, size⟩ := charbytes_of_readable c (readable _ (by simp))
      cases fuel with
      | zero => simp at enough
      | succ fuel =>
          have later := ih (fun d member => readable d (by simp [member])) fuel
            (by simpa using enough)
          simp only [List.flatten_cons, List.cons_append, charsFrom, size]
          have whole : b :: (tail ++ cs.flatten) = (b :: tail) ++ cs.flatten := rfl
          rw [whole, List.take_left, List.drop_left, later]

theorem length_le_flatten (cs : List Str) (readable : ∀ c ∈ cs, Readable c) :
    cs.length ≤ cs.flatten.length := by
  induction cs with
  | nil => simp
  | cons c cs ih =>
      obtain ⟨b, tail, rfl, _⟩ := charbytes_of_readable c (readable _ (by simp))
      have later := ih fun d member => readable d (by simp [member])
      simp only [List.flatten_cons, List.length_append, List.length_cons]
      omega

theorem chars_flatten (cs : List Str) (readable : ∀ c ∈ cs, Readable c) :
    chars cs.flatten = (cs, []) :=
  charsFrom_flatten cs readable _ (length_le_flatten cs readable)

theorem replace_flatten (cs : List Str) (readable : ∀ c ∈ cs, Readable c)
    (mapping : Str → Option Str) :
    replace cs.flatten mapping = .ok (cs.flatMap fun c => (mapping c).getD c) := by
  simp [replace, chars_flatten cs readable]

theorem charbytes_pos (c : UInt8) (n : Nat) (size : charbytes c = some n) : 1 ≤ n := by
  unfold charbytes at size
  grind

theorem charsFrom_join (fuel : Nat) (s : Str) (enough : s.length ≤ fuel) :
    (charsFrom fuel s).1.flatten ++ (charsFrom fuel s).2 = s := by
  induction fuel generalizing s with
  | zero => simp [charsFrom]
  | succ fuel ih =>
      cases s with
      | nil => rfl
      | cons c rest =>
          unfold charsFrom
          cases size : charbytes c with
          | none => rfl
          | some n =>
              have positive := charbytes_pos c n size
              have shorter : ((c :: rest).drop n).length ≤ fuel := by
                simp only [List.length_drop, List.length_cons] at *
                omega
              simp only [List.flatten_cons, List.append_assoc, ih _ shorter]
              exact List.take_append_drop n (c :: rest)

theorem chars_join (s : Str) : (chars s).1.flatten ++ (chars s).2 = s :=
  charsFrom_join s.length s le_rfl

theorem valid_of_chars (s : Str) (whole : (chars s).2 = []) (readable : ∀ c ∈ (chars s).1, Readable c) :
    Valid s := by
  have joined := chars_join s
  rw [whole, List.append_nil] at joined
  exact ⟨(chars s).1, readable, joined.symm⟩

end Maccer.Utf8
