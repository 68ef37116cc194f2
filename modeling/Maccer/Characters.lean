import Maccer.Utf8

/-! Strings as lists of characters, for the functions of `scripts/utf8.lua`. -/

namespace Maccer.Utf8

open Lua

structure Char (last : Prop) (c : Str) : Prop where
  lead : ∃ b tail n, c = b :: tail ∧ charbytes b = some n ∧ (c.length = n ∨ last ∧ c.length ≤ n)

def Decodes : List Str → Prop
  | [] => True
  | c :: cs => Char (cs = []) c ∧ Decodes cs

theorem Char.ne_nil {last : Prop} {c : Str} (char : Char last c) : c ≠ [] := by
  obtain ⟨b, tail, n, rfl, _⟩ := char.lead
  simp

theorem Readable.char {c : Str} (readable : Readable c) (last : Prop) : Char last c := by
  obtain ⟨b, tail, rfl, size⟩ := charbytes_of_readable c readable
  exact ⟨b, tail, _, rfl, size, .inl rfl⟩

theorem decodes_of_readable {cs : List Str} (readable : ∀ c ∈ cs, Readable c) : Decodes cs := by
  induction cs with
  | nil => trivial
  | cons c cs ih =>
      exact ⟨(readable c (by simp)).char _, ih fun d member => readable d (by simp [member])⟩

theorem charsFrom_front (front : List Str) (readable : ∀ c ∈ front, Readable c) (rest : Str) (fuel : Nat) :
    charsFrom (front.length + fuel) (front.flatten ++ rest) =
      (front ++ (charsFrom fuel rest).1, (charsFrom fuel rest).2) := by
  induction front with
  | nil => simp
  | cons c front ih =>
      obtain ⟨b, tail, rfl, size⟩ := charbytes_of_readable c (readable _ (by simp))
      have later := ih fun d member => readable d (by simp [member])
      have whole : b :: tail ++ (front.flatten ++ rest) = (b :: tail) ++ (front.flatten ++ rest) := rfl
      rw [List.length_cons, Nat.add_right_comm, List.flatten_cons, List.append_assoc, List.cons_append,
        charsFrom, size]
      simp only [← List.cons_append, List.take_left, List.drop_left, later]

theorem len_nul {cs : List Str} (valid : ∀ c ∈ cs, isChar c = true) (nul : [0] ∈ cs) :
    len cs.flatten = .error .raised := by
  obtain ⟨front, back, rfl, before⟩ := List.eq_append_cons_of_mem nul
  have readable : ∀ c ∈ front, Readable c := fun c member =>
    ⟨valid c (by simp [member]), fun same => before (same ▸ member)⟩
  have short := length_le_flatten front readable
  have shape : (front ++ [0] :: back).flatten = front.flatten ++ 0 :: back.flatten := by simp
  obtain ⟨fuel, same⟩ : ∃ n, (front.flatten ++ 0 :: back.flatten).length = front.length + (n + 1) := by
    refine ⟨(front.flatten ++ 0 :: back.flatten).length - front.length - 1, ?_⟩
    simp only [List.length_append, List.length_cons]
    omega
  have left : (chars (front ++ [0] :: back).flatten).2 = 0 :: back.flatten := by
    rw [shape, chars, same, charsFrom_front front readable]
    rfl
  rw [len, left, if_neg (by simp)]

theorem charsFrom_decodes {cs : List Str} (decodes : Decodes cs) (fuel : Nat)
    (enough : cs.flatten.length ≤ fuel) : charsFrom fuel cs.flatten = (cs, []) := by
  induction cs generalizing fuel with
  | nil => cases fuel <;> rfl
  | cons c cs ih =>
      obtain ⟨char, later⟩ := decodes
      obtain ⟨b, tail, n, rfl, size, long⟩ := char.lead
      simp only [List.flatten_cons, List.length_append, List.length_cons] at enough
      cases fuel with
      | zero => omega
      | succ fuel =>
          have parts : ((b :: tail) ++ cs.flatten).take n = b :: tail ∧
              ((b :: tail) ++ cs.flatten).drop n = cs.flatten := by
            rcases long with exact | ⟨rfl, short⟩
            · exact ⟨List.take_left' exact, List.drop_left' exact⟩
            · simp only [List.flatten_nil, List.append_nil]
              exact ⟨List.take_of_length_le short, List.drop_eq_nil_of_le short⟩
          rw [List.flatten_cons, List.cons_append, charsFrom, size]
          rw [List.cons_append] at parts
          simp only [parts.1, parts.2, ih later fuel (by omega)]

theorem chars_decodes {cs : List Str} (decodes : Decodes cs) : chars cs.flatten = (cs, []) :=
  charsFrom_decodes decodes _ le_rfl

theorem decodes_charsFrom (fuel : Nat) (s : Str) (enough : s.length ≤ fuel)
    (whole : (charsFrom fuel s).2 = []) : Decodes (charsFrom fuel s).1 := by
  induction fuel generalizing s with
  | zero => trivial
  | succ fuel ih =>
      cases s with
      | nil => trivial
      | cons b rest =>
          unfold charsFrom at whole ⊢
          cases size : charbytes b with
          | none => simp [size] at whole
          | some n =>
              have positive := charbytes_pos b n size
              simp only [size] at whole
              have shorter : ((b :: rest).drop n).length ≤ fuel := by
                simp only [List.length_drop, List.length_cons] at *
                omega
              refine ⟨⟨b, rest.take (n - 1), n, ?_, size, ?_⟩, ih _ shorter whole⟩
              · obtain ⟨m, rfl⟩ : ∃ m, n = m + 1 := ⟨n - 1, by omega⟩
                rfl
              · rw [List.length_take, List.length_cons]
                by_cases room : n ≤ rest.length + 1
                · exact .inl (by omega)
                · have ended : (b :: rest).drop n = [] :=
                    List.drop_eq_nil_of_le (by simp only [List.length_cons]; omega)
                  refine .inr ⟨?_, by omega⟩
                  rw [ended]
                  cases fuel <;> rfl

theorem decodes_chars {s : Str} (whole : (chars s).2 = []) : Decodes (chars s).1 :=
  decodes_charsFrom s.length s le_rfl whole

theorem exists_decodes {s : Str} (whole : (chars s).2 = []) :
    ∃ cs, Decodes cs ∧ s = cs.flatten := by
  have joined := chars_join s
  rw [whole, List.append_nil] at joined
  exact ⟨(chars s).1, decodes_chars whole, joined.symm⟩

theorem Decodes.ne_nil {cs : List Str} (decodes : Decodes cs) {c : Str} (member : c ∈ cs) :
    c ≠ [] := by
  induction cs with
  | nil => simp at member
  | cons d cs ih =>
      rcases List.mem_cons.mp member with rfl | later
      · exact decodes.1.ne_nil
      · exact ih decodes.2 later

theorem Char.weaken {first second : Prop} {c : Str} (char : Char first c)
    (still : first → second) : Char second c := by
  obtain ⟨b, tail, n, shape, size, long⟩ := char.lead
  exact ⟨b, tail, n, shape, size, long.imp_right (.imp_left still)⟩

theorem Decodes.map {cs : List Str} (decodes : Decodes cs) (f : Str → Str)
    (each : ∀ c ∈ cs, f c = c ∨ Readable (f c)) : Decodes (cs.map f) := by
  induction cs with
  | nil => trivial
  | cons c cs ih =>
      refine ⟨?_, ih decodes.2 fun d member => each d (by simp [member])⟩
      rcases each c (by simp) with same | readable
      · rw [same]
        exact decodes.1.weaken fun ended => by simp [ended]
      · exact readable.char _

theorem Decodes.set {cs : List Str} (decodes : Decodes cs) (i : Nat) {c : Str}
    (readable : Readable c) : Decodes (cs.set i c) := by
  induction cs generalizing i with
  | nil => trivial
  | cons d cs ih =>
      cases i with
      | zero => exact ⟨readable.char _, decodes.2⟩
      | succ i =>
          refine ⟨decodes.1.weaken fun ended => by simp [ended], ih decodes.2 i⟩

theorem Decodes.drop {cs : List Str} (decodes : Decodes cs) (n : Nat) : Decodes (cs.drop n) := by
  induction cs generalizing n with
  | nil => simpa using decodes
  | cons c cs ih =>
      cases n with
      | zero => exact decodes
      | succ n => exact ih decodes.2 n

theorem Decodes.take {cs : List Str} (decodes : Decodes cs) (n : Nat) : Decodes (cs.take n) := by
  induction cs generalizing n with
  | nil => simp [Decodes]
  | cons c cs ih =>
      cases n with
      | zero => trivial
      | succ n => exact ⟨decodes.1.weaken fun ended => by simp [ended], ih decodes.2 n⟩

theorem Decodes.dropLast {cs : List Str} (decodes : Decodes cs) : Decodes cs.dropLast :=
  List.dropLast_eq_take ▸ decodes.take _

theorem offset_take (cs : List Str) (k : Nat) :
    cs.flatten.take (offset cs k) = (cs.take k).flatten := by
  have parts : cs.flatten = (cs.take k).flatten ++ (cs.drop k).flatten := by
    rw [← List.flatten_append, List.take_append_drop]
  rw [parts, offset, List.take_left]

theorem offset_drop (cs : List Str) (k : Nat) :
    cs.flatten.drop (offset cs k) = (cs.drop k).flatten := by
  have parts : cs.flatten = (cs.take k).flatten ++ (cs.drop k).flatten := by
    rw [← List.flatten_append, List.take_append_drop]
  rw [parts, offset, List.drop_left]

section

variable {cs : List Str} (decodes : Decodes cs)
include decodes

theorem len_decodes : len cs.flatten = .ok cs.length := by
  simp [len, chars_decodes decodes]

theorem replace_decodes (mapping : Str → Option Str) :
    replace cs.flatten mapping = .ok (cs.map fun c => (mapping c).getD c).flatten := by
  rw [← List.flatMap_def]
  simp [replace, chars_decodes decodes]

theorem sub_decodes (i j : Nat) (first : 1 ≤ i) (last : 1 ≤ j) (inside : j ≤ cs.length) :
    sub cs.flatten i j = .ok ((cs.take j).drop (i - 1)).flatten := by
  have natural : (0 : Int) ≤ i ∧ (0 : Int) ≤ j := by omega
  unfold sub
  rw [if_pos natural]
  simp only [run_pure, run_bind_ok, if_pos natural.1, if_pos natural.2, chars_decodes decodes]
  by_cases empty : j < i
  · rw [if_pos (by omega), List.drop_eq_nil_of_le (by rw [List.length_take]; omega)]
    rfl
  · rw [if_neg (by omega), if_pos (by omega), if_pos (by omega)]
    have bytes : Lua.sub cs.flatten ((offset cs (i - 1) : Int) + 1) (offset cs j) =
        ((cs.take j).drop (i - 1)).flatten := by
      rw [sub_of_toNat _ _ _ (by omega) (by omega), Int.toNat_natCast, offset_take,
        show ((offset cs (i - 1) : Int) + 1 - 1).toNat = offset cs (i - 1) by omega]
      have same : offset cs (i - 1) = offset (cs.take j) (i - 1) := by
        rw [offset, offset, List.take_take, min_eq_left (by omega)]
      rw [same, offset_drop]
    simp only [Int.toNat_natCast, bytes]

theorem sub_char {i : Nat} {c : Str} (here : cs[i]? = some c) :
    sub cs.flatten ((i : Int) + 1) ((i : Int) + 1) = .ok c := by
  obtain ⟨inside, same⟩ := List.getElem?_eq_some_iff.mp here
  have found := sub_decodes decodes (i + 1) (i + 1) (by omega) (by omega) (by omega)
  rw [Nat.add_sub_cancel, List.take_succ_eq_append_getElem inside, List.drop_append_of_le_length
    (by rw [List.length_take]; omega), List.drop_eq_nil_of_le (by rw [List.length_take]; omega)] at found
  simpa [same] using found

theorem sub_upto (k : Nat) (inside : k ≤ cs.length) :
    sub cs.flatten 1 k = .ok (cs.take k).flatten := by
  cases k with
  | zero => rfl
  | succ k => exact sub_decodes decodes 1 (k + 1) le_rfl (by omega) inside

theorem sub_zero : sub cs.flatten 0 0 = .ok cs.flatten := by
  have natural : (0 : Int) ≤ 0 ∧ (0 : Int) ≤ 0 := by omega
  unfold sub
  rw [if_pos natural]
  simp only [run_pure, run_bind_ok, if_pos natural.1, chars_decodes decodes]
  have outside : ¬ ((1 : Int) ≤ 0 ∧ 0 ≤ (cs.length : Int)) := by omega
  rw [if_neg (by omega), if_neg outside, if_neg outside, if_pos trivial, sub_first, List.take_length]

theorem sub_from (k : Nat) : sub cs.flatten ((k : Int) + 1) (-1) = .ok (cs.drop k).flatten := by
  unfold sub
  rw [if_neg (by omega), len_decodes decodes]
  simp only [run_bind_ok, chars_decodes decodes, if_pos (by omega : (0 : Int) ≤ (k : Int) + 1),
    if_neg (by omega : ¬ (0 : Int) ≤ -1)]
  by_cases beyond : cs.length ≤ k
  · rw [if_pos (by omega), List.drop_eq_nil_of_le beyond]
    rfl
  · rw [if_neg (by omega), if_pos (by omega), if_pos (by omega)]
    have bytes : Lua.sub cs.flatten ((offset cs k : Int) + 1) (offset cs cs.length) =
        (cs.drop k).flatten := by
      rw [sub_of_toNat _ _ _ (by omega) (by omega), Int.toNat_natCast, offset_take, List.take_length,
        show ((offset cs k : Int) + 1 - 1).toNat = offset cs k by omega, offset_drop]
    rw [show (((k : Int) + 1).toNat - 1) = k by omega,
      show ((cs.length : Int) + -1 + 1).toNat = cs.length by omega, bytes]
    rfl

theorem sub_before (i : Int) (before : i ≤ 0) : ∃ k, sub cs.flatten i (-1) = .ok (cs.drop k).flatten := by
  have last : (if (0 : Int) ≤ -1 then (-1 : Int) else (cs.length : Int) + -1 + 1) = cs.length := by
    rw [if_neg (by omega)]
    omega
  have outside : ¬ ((0 : Int) ≤ i ∧ (0 : Int) ≤ -1) := by omega
  by_cases inside : i < 0 ∧ 0 ≤ (cs.length : Int) + i
  · obtain ⟨k, place⟩ := Int.eq_ofNat_of_zero_le inside.2
    have start : (if (0 : Int) ≤ i then i else (cs.length : Int) + i + 1) = k + 1 := by
      rw [if_neg (by omega), place]
    have natural : (if (0 : Int) ≤ (k : Int) + 1 then (k : Int) + 1 else (cs.length : Int) + (k + 1) + 1) = k + 1 :=
      if_pos (by omega)
    have same : sub cs.flatten i (-1) = sub cs.flatten ((k : Int) + 1) (-1) := by
      unfold sub
      rw [if_neg outside, if_neg (by omega), len_decodes decodes]
      simp only [run_bind_ok, start, natural]
    exact ⟨k, same.trans (sub_from decodes k)⟩
  · refine ⟨0, ?_⟩
    have start : (if (0 : Int) ≤ i then i else (cs.length : Int) + i + 1) ≤ 0 := by
      split <;> omega
    unfold sub
    rw [if_neg outside, len_decodes decodes]
    simp only [run_bind_ok, last, chars_decodes decodes]
    generalize (if (0 : Int) ≤ i then i else (cs.length : Int) + i + 1) = startChar at start ⊢
    have first : ¬ (1 ≤ startChar ∧ startChar ≤ (cs.length : Int)) := by omega
    rw [if_neg (by omega : ¬ startChar > (cs.length : Int)), if_neg first]
    have all : offset cs (cs.length : Int).toNat = cs.flatten.length := by
      rw [Int.toNat_natCast, offset, List.take_length]
    have whole : Lua.sub cs.flatten 1 cs.flatten.length = cs.flatten := by rw [sub_first, List.take_length]
    rw [all, whole]
    split <;> rfl

end

/-! Valid strings. -/

theorem tail_bytes {b : UInt8} {tail : Str} (char : isChar (b :: tail) = true) :
    ∀ x ∈ tail, 128 ≤ x ∧ x ≤ 191 := by
  match tail, char with
  | [], _ => simp
  | [c], char =>
      simp only [isChar, isTail, Bool.and_eq_true, decide_eq_true_eq] at char
      grind
  | [c, d], char =>
      simp only [isChar, isTail, Bool.and_eq_true, Bool.or_eq_true, decide_eq_true_eq, beq_iff_eq] at char
      grind
  | [c, d, e], char =>
      simp only [isChar, isTail, Bool.and_eq_true, Bool.or_eq_true, decide_eq_true_eq, beq_iff_eq] at char
      grind

theorem lead_byte {b : UInt8} {n : Nat} (size : charbytes b = some n) : b ≠ 0 ∧ ¬ (128 ≤ b ∧ b ≤ 191) := by
  unfold charbytes at size
  grind

theorem char_begins {v c rest : Str} (letter : Readable v) (char : isChar c = true)
    (after : Str) (here : v ++ after <+: c ++ rest) : v = c ∧ after <+: rest := by
  obtain ⟨b, tail, rfl, size⟩ := charbytes_of_readable v letter
  cases c with
  | nil => cases char
  | cons d ctail =>
      have same : b = d := (List.cons_prefix_cons.mp here).1
      subst same
      have notNul : b :: ctail ≠ [0] := fun nul => (lead_byte size).1 (List.cons.inj nul).1
      obtain ⟨_, _, shape, size'⟩ := charbytes_of_readable (b :: ctail) ⟨char, notNul⟩
      cases shape
      rw [size, Option.some.injEq] at size'
      obtain ⟨last, joined⟩ := here
      rw [List.append_assoc] at joined
      obtain ⟨word, later⟩ := List.append_inj joined size'
      exact ⟨word, last, later⟩

theorem char_of_byte {b : UInt8} (low : Readable [b]) {c : Str} (char : isChar c = true) (inside : b ∈ c) : c = [b] := by
  cases c with
  | nil => cases inside
  | cons d tail =>
      rcases List.mem_cons.mp inside with rfl | later
      · have here : [b] ++ [] <+: (b :: tail) ++ [] := by simp
        exact (char_begins low char [] here).1.symm
      · obtain ⟨_, _, shape, size⟩ := charbytes_of_readable [b] low
        cases shape
        exact absurd (tail_bytes char b later) (lead_byte size).2

theorem flatten_split {cs : List Str} (chars : ∀ c ∈ cs, isChar c = true) {front rest : Str} {b : UInt8}
    (low : Readable [b]) (joined : cs.flatten = front ++ b :: rest) :
    ∃ before after, cs = before ++ [b] :: after ∧ before.flatten = front ∧ after.flatten = rest := by
  induction cs generalizing front with
  | nil => simp at joined
  | cons c cs ih =>
      have later := fun d (member : d ∈ cs) => chars d (List.mem_cons_of_mem c member)
      rw [List.flatten_cons] at joined
      rcases List.append_eq_append_iff.mp joined with ⟨between, rfl, shorter⟩ | ⟨between, rfl, longer⟩
      · obtain ⟨before, after, rfl, rfl, rfl⟩ := ih later shorter
        exact ⟨c :: before, after, rfl, rfl, rfl⟩
      · cases between with
        | nil =>
            have shorter : cs.flatten = [] ++ b :: rest := longer.symm
            obtain ⟨before, after, rfl, empty, rfl⟩ := ih later shorter
            exact ⟨front :: before, after, by simp, by simp [empty], rfl⟩
        | cons d between =>
            obtain ⟨rfl, ended⟩ := List.cons.inj longer
            have alone := char_of_byte low (chars (front ++ b :: between) List.mem_cons_self)
              (List.mem_append_right front List.mem_cons_self)
            cases front with
            | nil =>
                obtain rfl : between = [] := (List.cons.inj alone).2
                exact ⟨[], cs, rfl, rfl, ended.symm⟩
            | cons x front =>
                have size := congrArg List.length alone
                simp at size

theorem Encoded.split {front rest : Str} {b : UInt8} (low : Readable [b]) (encoded : Encoded (front ++ b :: rest)) :
    Encoded front ∧ Encoded rest := by
  obtain ⟨cs, chars, joined⟩ := encoded
  obtain ⟨before, after, rfl, rfl, rfl⟩ := flatten_split chars low joined.symm
  have first : ∀ c ∈ before, isChar c = true := fun c member => chars c (List.mem_append_left _ member)
  have second : ∀ c ∈ after, isChar c = true := fun c member => chars c (by simp [member])
  exact ⟨⟨before, first, rfl⟩, ⟨after, second, rfl⟩⟩

theorem Encoded.append {a b : Str} (first : Encoded a) (second : Encoded b) : Encoded (a ++ b) := by
  obtain ⟨cs, chars, rfl⟩ := first
  obtain ⟨ds, chars', rfl⟩ := second
  exact ⟨cs ++ ds, fun c member => (List.mem_append.mp member).elim (chars c) (chars' c), by rw [List.flatten_append]⟩

theorem encoded_nil : Encoded [] := ⟨[], by simp, rfl⟩

theorem flatten_front {cs front : List Str} (readable : ∀ c ∈ cs, Readable c)
    (readable' : ∀ c ∈ front, Readable c) {rest : Str} (joined : cs.flatten = front.flatten ++ rest) :
    ∃ back, cs = front ++ back ∧ rest = back.flatten := by
  have short := length_le_flatten front readable'
  obtain ⟨fuel, same⟩ : ∃ n, (front.flatten ++ rest).length = front.length + n := by
    refine ⟨(front.flatten ++ rest).length - front.length, ?_⟩
    rw [List.length_append]
    omega
  have read := chars_flatten cs readable
  rw [joined, chars, same, charsFrom_front front readable'] at read
  have parts : front ++ (charsFrom fuel rest).1 = cs := (Prod.mk.inj read).1
  refine ⟨(charsFrom fuel rest).1, parts.symm, ?_⟩
  rw [← parts, List.flatten_append] at joined
  exact (List.append_cancel_left joined).symm

theorem flatten_ascii {cs : List Str} (readable : ∀ c ∈ cs, Readable c) {front rest : Str}
    (low : ∀ b ∈ front, b < 128) (joined : cs.flatten = front ++ rest) :
    ∃ back, cs = front.map ([·]) ++ back ∧ rest = back.flatten := by
  induction front generalizing cs with
  | nil => exact ⟨cs, rfl, joined.symm⟩
  | cons b front ih =>
      cases cs with
      | nil => simp at joined
      | cons c cs =>
          obtain ⟨lead, tail, rfl, size⟩ := charbytes_of_readable c (readable c (by simp))
          rw [List.flatten_cons, List.cons_append, List.cons_append, List.cons.injEq] at joined
          obtain ⟨rfl, joined⟩ := joined
          have single : charbytes lead = some 1 ∨ charbytes lead = none := by
            have small := low lead (by simp)
            unfold charbytes
            grind
          have alone : tail = [] := by
            rcases single with one | none
            · rw [one, List.length_cons, Option.some.injEq] at size
              exact List.eq_nil_of_length_eq_zero (by omega)
            · rw [none] at size
              cases size
          subst alone
          obtain ⟨back, rfl, rest⟩ := ih (fun d member => readable d (by simp [member]))
            (fun d member => low d (by simp [member])) joined
          exact ⟨back, rfl, rest⟩

end Maccer.Utf8
