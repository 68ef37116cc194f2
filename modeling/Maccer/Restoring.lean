import Maccer.Edits
import Maccer.Guessing

/-! Whether `macronize` gets the spelling of a word back from its substitutions. -/

namespace Maccer

open Lua

/-! Plain characters. -/

def plainChar (c : Str) : Str := (field unicode.macroninvtbl c).getD c

set_option maxRecDepth 8000 in
theorem letters_plain : ∀ e ∈ unicode.macroninvtbl.entries,
    Utf8.Readable e.1 ∧ Utf8.Readable e.2 ∧ field unicode.macroninvtbl e.2 = none := by
  decide

theorem plainChar_cases (c : Str) :
    plainChar c = c ∨ Utf8.Readable c ∧ Utf8.Readable (plainChar c) ∧
      field unicode.macroninvtbl (plainChar c) = none := by
  unfold plainChar
  cases entry : field unicode.macroninvtbl c with
  | none => exact .inl rfl
  | some letter => exact .inr (letters_plain ⟨c, letter⟩ (AList.mem_lookup_iff.mp entry))

theorem plainChar_readable {c : Str} : Utf8.Readable (plainChar c) ↔ Utf8.Readable c := by
  cases plainChar_cases c with
  | inl same => rw [same]
  | inr letter => exact iff_of_true letter.2.1 letter.1

theorem plainChar_plain (c : Str) : plainChar (plainChar c) = plainChar c := by
  cases plainChar_cases c with
  | inl same => rw [same, same]
  | inr letter => rw [plainChar, letter.2.2, Option.getD_none]

theorem plainChar_map (cs : List Str) : (cs.map plainChar).map plainChar = cs.map plainChar := by
  rw [List.map_map]
  exact List.map_congr_left fun c _ => plainChar_plain c

theorem plain_flatten {cs : List Str} (readable : ∀ c ∈ cs, Utf8.Readable c) :
    plain cs.flatten = .ok (cs.map plainChar).flatten :=
  Utf8.replace_decodes (Utf8.decodes_of_readable readable) _

theorem plain_same {x : Str} {ss : List Str} (readable : ∀ c ∈ ss, Utf8.Readable c)
    (same : plain x = plain ss.flatten) :
    ∃ xs : List Str, (∀ c ∈ xs, Utf8.Readable c) ∧ x = xs.flatten ∧ xs.map plainChar = ss.map plainChar := by
  rw [plain_flatten readable] at same
  obtain ⟨xs, _, rfl, plains, joined⟩ := plain_chars same
  have plains' : ∀ c ∈ ss.map plainChar, Utf8.Readable c := by
    intro c member
    obtain ⟨d, inside, rfl⟩ := List.mem_map.mp member
    exact plainChar_readable.mpr (readable d inside)
  have equal : xs.map plainChar = ss.map plainChar := by
    have read := Utf8.chars_decodes plains
    rw [← joined, Utf8.chars_decodes (Utf8.decodes_of_readable plains')] at read
    exact (Prod.mk.inj read).1.symm
  refine ⟨xs, fun c member => ?_, rfl, equal⟩
  apply plainChar_readable.mp
  apply plains'
  rw [← equal]
  exact List.mem_map_of_mem member

/-! Substitutions that are made. -/

/-- A substitution that is made: the word with the positions of those before it, the entry
of the table, and the match. -/
structure Made where
  subw : Str
  subatpostbl : Positions
  rule : Rule
  replstart : Int
  replend : Int

/-- A substitution that can be undone by its position. The match is the original itself
and not what a pattern stands for. It begins at the character that has the number of its
byte. The substitutions made before stand to the left of it, or to the right where it
leaves the number of characters as it is. It leaves a character at its position. -/
structure Made.Undoable (made : Made) : Prop where
  literal : plain made.rule.orig = .ok (Lua.sub made.subw made.replstart made.replend)
  ascii : ∀ b ∈ Lua.sub made.subw 1 (made.replstart - 1), b < 128
  apart : ∀ sub ∈ made.subatpostbl, (sub.1 : Int) < made.replstart ∨
    made.replstart < sub.1 ∧ made.replend < sub.1 ∧ Utf8.len made.rule.orig = Utf8.len made.rule.repl
  inside : made.rule.repl ≠ [] ∨ made.replend < made.subw.length

instance (made : Made) : Decidable made.Undoable :=
  letI : Decidable (∀ b ∈ Lua.sub made.subw 1 (made.replstart - 1), b < 128) := List.decidableBAll _ _
  decidable_of_iff (plain made.rule.orig = .ok (Lua.sub made.subw made.replstart made.replend) ∧
    (∀ b ∈ Lua.sub made.subw 1 (made.replstart - 1), b < 128) ∧
    (∀ sub ∈ made.subatpostbl, (sub.1 : Int) < made.replstart ∨ made.replstart < sub.1 ∧
      made.replend < sub.1 ∧ Utf8.len made.rule.orig = Utf8.len made.rule.repl) ∧
    (made.rule.repl ≠ [] ∨ made.replend < made.subw.length))
    ⟨fun ⟨literal, ascii, apart, inside⟩ => ⟨literal, ascii, apart, inside⟩,
      fun undoable => ⟨undoable.literal, undoable.ascii, undoable.apart, undoable.inside⟩⟩

/-- The substitution leaves what stands at the end of the word alone, and a character before it. -/
def Made.Before (made : Made) (tail : Str) : Prop :=
  tail = [] ∨ made.replend + tail.length ≤ made.subw.length ∧
    (made.rule.repl ≠ [] ∨ made.replend + tail.length < made.subw.length)

theorem sub_parts (s : Str) (first last : Nat) (order : first ≤ last) (inside : last ≤ s.length) :
    ∃ front word back, s = front ++ word ++ back ∧ front.length = first ∧ first + word.length = last ∧
      Lua.sub s 1 first = front ∧ Lua.sub s (first + 1) last = word ∧ subFrom s (last + 1) = back := by
  refine ⟨s.take first, (s.take last).drop first, s.drop last, ?_, ?_, ?_, sub_first s first, ?_,
    subFrom_succ s last⟩
  · have left : s.take first = (s.take last).take first := by rw [List.take_take, min_eq_left order]
    rw [left, List.take_append_drop, List.take_append_drop]
  · rw [List.length_take]
    omega
  · rw [List.length_drop, List.length_take]
    omega
  · rw [sub_of_toNat _ _ _ (by omega) (by omega)]
    congr 1
    omega

theorem Made.Undoable.parts {subw tail : Str} {subatpostbl : Positions} {rule : Rule} {first last : Nat}
    (undoable : Made.Undoable ⟨subw, subatpostbl, rule, first + 1, last⟩) {ss os : List Str}
    (readable : ∀ c ∈ ss, Utf8.Readable c) (chars : subw = ss.flatten ++ tail)
    (orig : ∀ c ∈ os, Utf8.Readable c) (origs : rule.orig = os.flatten)
    (order : first ≤ last) (inside : last ≤ ss.flatten.length) :
    ∃ front back : List Str, ss = front ++ os.map plainChar ++ back ∧ front.length = first ∧
      first + os.length ≤ last ∧ Lua.sub subw 1 first = front.flatten ∧
      subFrom subw (last + 1) = back.flatten ++ tail := by
  obtain ⟨front, word, behind, shape, length, extent, before, found, after⟩ :=
    sub_parts subw first last order (by rw [chars, List.length_append]; omega)
  obtain ⟨back, shape', rfl⟩ : ∃ back, ss.flatten = front ++ word ++ back ∧ behind = back ++ tail := by
    rcases List.append_eq_append_iff.mp (chars.symm.trans shape) with ⟨between, longer, rfl⟩ | ⟨back, shorter, rfl⟩
    · have lengths := congrArg List.length longer
      simp only [List.length_append] at lengths
      obtain rfl : between = [] := List.eq_nil_of_length_eq_zero (by omega)
      exact ⟨[], by simpa using longer.symm, rfl⟩
    · exact ⟨back, shorter, rfl⟩
  have literal : plain rule.orig = .ok (Lua.sub subw (first + 1) last) := undoable.literal
  have low : ∀ b ∈ Lua.sub subw 1 ((first : Int) + 1 - 1), b < 128 := undoable.ascii
  rw [found, origs, plain_flatten orig, Except.ok.injEq] at literal
  rw [add_sub_cancel_right, before] at low
  have joined : ss.flatten = front ++ (word ++ back) := by rw [shape', List.append_assoc]
  obtain ⟨behind, rfl, rest⟩ := Utf8.flatten_ascii readable low joined
  have origs' : ∀ c ∈ os.map plainChar, Utf8.Readable c := by
    intro c member
    obtain ⟨d, origin, rfl⟩ := List.mem_map.mp member
    exact plainChar_readable.mpr (orig d origin)
  rw [← literal] at rest
  obtain ⟨bs, rfl, rfl⟩ :=
    Utf8.flatten_front (fun c member => readable c (by simp [member])) origs' rest.symm
  have short := Utf8.length_le_flatten _ origs'
  rw [List.length_map, literal] at short
  refine ⟨front.map ([·]), bs, by rw [List.append_assoc], by rw [List.length_map, length], by omega, ?_, after⟩
  rw [before, ← List.flatMap_def, List.flatMap_singleton']

namespace Tables

variable (t : Tables)

def madeRule (i : Nat) (rule : Rule) (orig : Str) (includedoubtful : Bool)
    (prev : Option (Str × Positions)) : Nat → Int → Substituted → List Made
  | 0, _, _ => []
  | fuel + 1, findstart, s =>
      match find s.subw orig findstart with
      | .ok (some (replstart, replend)) =>
          if issubvalid s.subw rule.mod replstart replend s.subbed = some true then
            match t.applyAt i rule includedoubtful true prev replstart replend s with
            | .ok next =>
                (if next = s then [] else [⟨s.subw, s.subatpostbl, rule, replstart, replend⟩]) ++
                  madeRule i rule orig includedoubtful prev fuel (replend + 1) next
            | .error _ => []
          else []
      | _ => []

def madeRules (fuel : Nat) (includedoubtful : Bool) (prev : Option (Str × Positions)) :
    List Rule → Nat → Substituted → List Made
  | [], _, _ => []
  | rule :: rules, i, s =>
      match t.toAscii true rule.orig with
      | .ok orig =>
          t.madeRule i rule orig includedoubtful prev fuel 1 s ++
            match t.applyRule i rule orig includedoubtful true prev fuel 1 s with
            | .ok next => madeRules fuel includedoubtful prev rules (i + 1) next
            | .error _ => []
      | .error _ => []

/-- The substitutions that `subword` makes for `macronize`. -/
def made (fuel : Nat) (w : Str) (includedoubtful : Bool) (prev : Option (Str × Positions)) : List Made :=
  t.madeRules fuel includedoubtful prev t.rules 1 ⟨w, [], false⟩

def log (subatpostbl : Positions) : Edits.Log Str := fun pos =>
  (subatpostbl.lookup pos).bind fun i => t.rules[i - 1]?.map fun rule =>
    ((Utf8.chars rule.orig).1.map plainChar, (Utf8.chars rule.repl).1.length)

theorem log_none {subatpostbl : Positions} {pos : Nat} (free : ∀ sub ∈ subatpostbl, sub.1 ≠ pos) :
    t.log subatpostbl pos = none := by
  have missing : subatpostbl.lookup pos = none := by
    apply List.lookup_eq_none_iff.mpr
    intro sub member
    exact bne_iff_ne.mpr (free sub member).symm
  rw [log, missing, Option.bind_none]

theorem log_cons {i pos : Nat} {rule : Rule} {os rs : List Str} (entry : t.rules[i - 1]? = some rule)
    (orig : (Utf8.chars rule.orig).1 = os) (repl : (Utf8.chars rule.repl).1 = rs)
    (subatpostbl : Positions) :
    t.log ((pos, i) :: subatpostbl) =
      Function.update (t.log subatpostbl) pos (some (os.map plainChar, rs.length)) := by
  funext other
  by_cases here : other = pos
  · subst here
    rw [Function.update_self, log, List.lookup_cons_self, Option.bind_some, entry, Option.map_some, orig,
      repl]
  · have apart : (other == pos) = false := beq_false_of_ne here
    rw [Function.update_of_ne here, log, log, List.lookup_cons, apart]

/-! The restore loop. -/

def Entered (subatpostbl : Positions) : Prop := ∀ sub ∈ subatpostbl, ∃ rule, t.rules[sub.2 - 1]? = some rule

def ValidRules : Prop := ∀ rule ∈ t.rules, Utf8.Valid rule.orig ∧ Utf8.Valid rule.repl

variable {t}

theorem restoreAt_undo (valid : t.ValidRules) {subatpostbl : Positions} (entered : t.Entered subatpostbl)
    {xs : List Str} (readable : ∀ c ∈ xs, Utf8.Readable c) (pos : Nat) (room : pos ≤ xs.length) :
    ∃ ys : List Str, t.restoreAt subatpostbl xs.flatten (pos + 1) = .ok ys.flatten ∧
      (∀ c ∈ ys, Utf8.Readable c) ∧ pos ≤ ys.length ∧
      ys.map plainChar = Edits.undoAt (t.log subatpostbl) (xs.map plainChar) (pos + 1) := by
  cases found : subatpostbl.lookup (pos + 1) with
  | none =>
      refine ⟨xs, ?_, readable, room, ?_⟩
      · rw [restoreAt, found, run_pure]
      · rw [Edits.undoAt_none]
        rw [log, found, Option.bind_none]
  | some i =>
      obtain ⟨front, back, shape, _⟩ := List.lookup_eq_some_iff.mp found
      obtain ⟨rule, entry⟩ := entered (pos + 1, i) (by simp [shape])
      obtain ⟨⟨os, orig, origs⟩, ⟨rs, repl, repls⟩⟩ := valid rule (List.mem_of_getElem? entry)
      have decodes := Utf8.decodes_of_readable readable
      have logged : t.log subatpostbl (pos + 1) = some (os.map plainChar, rs.length) := by
        rw [log, found, Option.bind_some, entry, Option.map_some, origs, repls,
          Utf8.chars_flatten os orig, Utf8.chars_flatten rs repl]
      refine ⟨Edits.exchange xs pos rs.length os, ?_, fun c member => ?_, Edits.exchange_room _ _ _ _ room, ?_⟩
      · have place : ((pos + 1 : Nat) : Int) - 1 = pos := by omega
        have after : ((pos + 1 : Nat) : Int) + (rs.length : Nat) = ((pos + rs.length : Nat) : Int) + 1 := by
          omega
        simp only [restoreAt, found, entry, origs, repls]
        rw [Utf8.len_decodes (Utf8.decodes_of_readable orig), run_bind_ok,
          Utf8.len_decodes (Utf8.decodes_of_readable repl), run_bind_ok, place, after,
          Utf8.sub_upto decodes _ room, run_bind_ok, Utf8.sub_from decodes, run_bind_ok, run_pure,
          Edits.exchange, List.flatten_append, List.flatten_append]
      · simp only [Edits.exchange, List.mem_append] at member
        rcases member with (before | new) | after
        · exact readable c (List.mem_of_mem_take before)
        · exact orig c new
        · exact readable c (List.mem_of_mem_drop after)
      · rw [Edits.undoAt_some logged, Edits.exchange_map, Nat.add_sub_cancel]

theorem restore_undo (valid : t.ValidRules) {subatpostbl : Positions} (entered : t.Entered subatpostbl)
    (n : Nat) {xs : List Str} (readable : ∀ c ∈ xs, Utf8.Readable c) (room : n ≤ xs.length) :
    ∃ ys : List Str, (List.range' 1 n).reverse.foldlM (t.restoreAt subatpostbl) xs.flatten = .ok ys.flatten ∧
      (∀ c ∈ ys, Utf8.Readable c) ∧
      ys.map plainChar = Edits.undo (t.log subatpostbl) n (xs.map plainChar) := by
  induction n generalizing xs with
  | zero => exact ⟨xs, rfl, readable, rfl⟩
  | succ n ih =>
      obtain ⟨ys, ran, readable', room', here⟩ :=
        restoreAt_undo valid entered readable n (by omega)
      obtain ⟨zs, later, readable'', undone⟩ := ih readable' room'
      refine ⟨zs, ?_, readable'', ?_⟩
      · rw [List.range'_1_concat, List.reverse_append, List.reverse_singleton, List.singleton_append,
          List.foldlM_cons, Nat.add_comm 1 n, ran, run_bind_ok, later]
      · rw [undone, here, Edits.undo]

/-! The loop that makes the substitutions. -/

theorem toAscii_plain (known : t.unicode = Maccer.unicode) (str : Str) : t.toAscii true str = plain str := by
  rw [toAscii, if_pos rfl, known]
  rfl

variable (t) in
structure Restorable (ws : List Str) (tail : Str) (s : Substituted) (ss : List Str) : Prop where
  readable : ∀ c ∈ ss, Utf8.Readable c
  chars : s.subw = ss.flatten ++ tail
  entered : t.Entered s.subatpostbl
  bounds : ∀ sub ∈ s.subatpostbl, 1 ≤ sub.1 ∧ sub.1 ≤ ss.length
  undone : ∀ n, (∀ sub ∈ s.subatpostbl, sub.1 ≤ n) →
    Edits.undo (t.log s.subatpostbl) n (ss.map plainChar) = ws.map plainChar

/-- A substitution that can be undone leaves a word that the plain one can be had back from. -/
theorem Restorable.applied {ws ss : List Str} {tail : Str} {s : Substituted} (restorable : t.Restorable ws tail s ss)
    (valid : t.ValidRules) {i : Nat} {rule : Rule} (entry : t.rules[i - 1]? = some rule) {first last : Nat}
    (order : first ≤ last) (inside : last ≤ s.subw.length)
    (undoable : Made.Undoable ⟨s.subw, s.subatpostbl, rule, first + 1, last⟩)
    (outside : Made.Before ⟨s.subw, s.subatpostbl, rule, first + 1, last⟩ tail) {repl : Str}
    (ascii : plain rule.repl = .ok repl) :
    ∃ ss', t.Restorable ws tail
      ⟨Lua.sub s.subw 1 first ++ repl ++ subFrom s.subw (last + 1), (first + 1, i) :: s.subatpostbl, true⟩
      ss' := by
  obtain ⟨⟨os, orig, origs⟩, ⟨rs, rep, repls⟩⟩ := valid rule (List.mem_of_getElem? entry)
  have long := congrArg List.length restorable.chars
  rw [List.length_append] at long
  obtain ⟨inside', ended⟩ : last ≤ ss.flatten.length ∧ (rule.repl ≠ [] ∨ last < ss.flatten.length) := by
    rcases outside with rfl | outside
    · have ended : rule.repl ≠ [] ∨ (last : Int) < s.subw.length := undoable.inside
      rw [List.length_nil] at long
      exact ⟨by omega, ended.imp_right fun less => by omega⟩
    · obtain ⟨inside', ended⟩ := outside
      dsimp only at inside' ended
      exact ⟨by omega, ended.imp_right fun less => by omega⟩
  obtain ⟨front, back, rfl, rfl, extent, before, after⟩ :=
    undoable.parts restorable.readable restorable.chars orig origs order inside'
  rw [repls, plain_flatten rep, Except.ok.injEq] at ascii
  subst ascii
  have later {sub : Nat × Nat} (member : sub ∈ s.subatpostbl) :
      sub.1 < front.length + 1 ∨
        front.length + 1 < sub.1 ∧ front.length + os.length < sub.1 ∧ os.length = rs.length := by
    have cases : (sub.1 : Int) < (front.length : Int) + 1 ∨ (front.length : Int) + 1 < sub.1 ∧
      (last : Int) < sub.1 ∧ Utf8.len rule.orig = Utf8.len rule.repl := undoable.apart sub member
    rw [origs, repls, Utf8.len_decodes (Utf8.decodes_of_readable orig),
      Utf8.len_decodes (Utf8.decodes_of_readable rep), Except.ok.injEq] at cases
    omega
  have filled : 1 ≤ rs.length + back.length := by
    by_contra empty
    have nothing : rs = [] ∧ back = [] :=
      ⟨List.eq_nil_of_length_eq_zero (by omega), List.eq_nil_of_length_eq_zero (by omega)⟩
    rw [repls, nothing.1, List.flatten_nil] at ended
    have short := ended.resolve_left (fun filled => filled rfl)
    have rest := congrArg List.length after
    rw [nothing.2, subFrom_succ, List.flatten_nil, List.nil_append, List.length_drop] at rest
    omega
  refine ⟨front ++ rs.map plainChar ++ back, ⟨?_, ?_, ?_, ?_, ?_⟩⟩
  · intro c member
    have old := restorable.readable c
    simp only [List.mem_append, List.mem_map] at member old
    rcases member with (left | ⟨d, new, rfl⟩) | right
    · exact old (.inl (.inl left))
    · exact plainChar_readable.mpr (rep d new)
    · exact old (.inr right)
  · rw [before, after, List.flatten_append, List.flatten_append, List.append_assoc, List.append_assoc, List.append_assoc]
  · intro sub member
    cases List.mem_cons.mp member with
    | inl new => exact ⟨rule, new ▸ entry⟩
    | inr old => exact restorable.entered sub old
  · intro sub member
    simp only [List.length_append, List.length_map]
    cases List.mem_cons.mp member with
    | inl new =>
        rw [new]
        omega
    | inr old =>
        have bounds := restorable.bounds sub old
        simp only [List.length_append, List.length_map] at bounds
        have place := later old
        omega
  · intro n reach
    have logged {pos : Nat} (some : t.log s.subatpostbl pos ≠ none) :
        ∃ sub ∈ s.subatpostbl, sub.1 = pos := by
      by_contra free
      exact some (t.log_none fun sub member same => free ⟨sub, member, same⟩)
    have shape : (front.map plainChar).length + 1 = front.length + 1 := by rw [List.length_map]
    have reach' := reach (front.length + 1, i) (by simp)
    have origin := restorable.undone n fun sub member => reach sub (by simp [member])
    rw [List.map_append, List.map_append, plainChar_map] at origin ⊢
    have apart (pos : Nat) (some : t.log s.subatpostbl pos ≠ none) :
        pos < front.length + 1 ∨
          front.length + 1 < pos ∧ front.length + os.length < pos ∧ os.length = rs.length := by
      obtain ⟨sub, member, rfl⟩ := logged some
      exact later member
    have undone := Edits.undo_record (t.log s.subatpostbl) (front.map plainChar) (os.map plainChar)
      (rs.map plainChar) ?_ n (by rw [shape]; exact reach') (back.map plainChar) ?_ ?_
    · rw [t.log_cons entry (origs ▸ congrArg Prod.fst (Utf8.chars_flatten os orig))
        (repls ▸ congrArg Prod.fst (Utf8.chars_flatten rs rep)), ← show (rs.map plainChar).length = rs.length from List.length_map plainChar,
        ← shape, undone]
      exact origin
    · rw [shape]
      by_contra some
      have place := apart _ some
      omega
    · intro pos some behind _
      have place := apart pos some
      simp only [List.length_map] at behind ⊢
      omega
    · intro pos some _
      obtain ⟨sub, member, rfl⟩ := logged some
      have bounds := restorable.bounds sub member
      simp only [List.length_append, List.length_map] at bounds ⊢
      omega

theorem Restorable.applyAt {ws ss : List Str} {tail : Str} {s next : Substituted}
    (restorable : t.Restorable ws tail s ss)
    (known : t.unicode = Maccer.unicode) (valid : t.ValidRules) {i : Nat} {rule : Rule}
    (entry : t.rules[i - 1]? = some rule) {includedoubtful : Bool} {prev : Option (Str × Positions)}
    {orig : Str} {findstart replstart replend : Int}
    (found : find s.subw orig findstart = .ok (some (replstart, replend)))
    (ran : t.applyAt i rule includedoubtful true prev replstart replend s = .ok next)
    (undoable : next ≠ s → Made.Undoable ⟨s.subw, s.subatpostbl, rule, replstart, replend⟩ ∧
      Made.Before ⟨s.subw, s.subatpostbl, rule, replstart, replend⟩ tail) :
    ∃ ss', t.Restorable ws tail next ss' := by
  have bounds := find_bounds _ _ _ _ found
  cases t.applyAt_cases ran with
  | inl same => exact ⟨ss, same ▸ restorable⟩
  | inr applied =>
      obtain ⟨repl, ascii, shape⟩ := applied
      have grown : next ≠ s := by
        intro same
        have lengths := congrArg (fun s => s.subatpostbl.length) (shape.symm.trans same)
        simp at lengths
      have made := undoable grown
      obtain ⟨first, rfl⟩ : ∃ n : Nat, replstart = n + 1 := ⟨(replstart - 1).toNat, by omega⟩
      obtain ⟨last, rfl⟩ : ∃ n : Nat, replend = n := ⟨replend.toNat, by omega⟩
      rw [toAscii_plain known] at ascii
      obtain ⟨ss', restorable'⟩ :=
        restorable.applied valid entry (by omega) (by omega) made.1 made.2 ascii
      rw [add_sub_cancel_right, Int.toNat_natCast_add_one] at shape
      exact ⟨ss', shape ▸ restorable'⟩

theorem Restorable.applyRule {ws : List Str} {tail : Str} (known : t.unicode = Maccer.unicode) (valid : t.ValidRules)
    {i : Nat} {rule : Rule} (entry : t.rules[i - 1]? = some rule) {orig : Str} {includedoubtful : Bool}
    {prev : Option (Str × Positions)} (fuel : Nat) (findstart : Int) {s next : Substituted} {ss : List Str}
    (restorable : t.Restorable ws tail s ss)
    (ran : t.applyRule i rule orig includedoubtful true prev fuel findstart s = .ok next)
    (undoable : ∀ made ∈ t.madeRule i rule orig includedoubtful prev fuel findstart s,
      made.Undoable ∧ made.Before tail) :
    ∃ ss', t.Restorable ws tail next ss' := by
  induction fuel generalizing findstart s ss with
  | zero => cases ran
  | succ fuel ih =>
      obtain ⟨result, found, ran⟩ := bind_eq_ok.mp ran
      cases result with
      | none => exact ⟨ss, Except.ok.inj ran ▸ restorable⟩
      | some match' =>
          obtain ⟨replstart, replend⟩ := match'
          rw [madeRule, found] at undoable
          dsimp only at ran undoable
          split at ran
          case isFalse => exact ⟨ss, Except.ok.inj ran ▸ restorable⟩
          case isTrue valid' =>
            obtain ⟨step, applied, ran⟩ := bind_eq_ok.mp ran
            rw [if_pos valid', applied] at undoable
            obtain ⟨ss', restorable'⟩ := restorable.applyAt known valid entry found applied fun grown =>
              undoable _ (by simp [grown])
            exact ih _ restorable' ran fun made member => undoable made (by simp [member])

theorem Restorable.applyRules {ws : List Str} {tail : Str} (known : t.unicode = Maccer.unicode) (valid : t.ValidRules)
    {fuel : Nat} {includedoubtful : Bool} {prev : Option (Str × Positions)} (rules done : List Rule)
    (whole : t.rules = done ++ rules) {s next : Substituted} {ss : List Str}
    (restorable : t.Restorable ws tail s ss)
    (ran : t.applyRules fuel includedoubtful true prev rules (done.length + 1) s = .ok next)
    (undoable : ∀ made ∈ t.madeRules fuel includedoubtful prev rules (done.length + 1) s,
      made.Undoable ∧ made.Before tail) :
    ∃ ss', t.Restorable ws tail next ss' := by
  induction rules generalizing done s ss with
  | nil => exact ⟨ss, Except.ok.inj ran ▸ restorable⟩
  | cons rule rules ih =>
      obtain ⟨orig, ascii, ran⟩ := bind_eq_ok.mp ran
      obtain ⟨step, applied, ran⟩ := bind_eq_ok.mp ran
      rw [madeRules, ascii] at undoable
      dsimp only at undoable
      rw [applied] at undoable
      have entry : t.rules[done.length + 1 - 1]? = some rule := by
        rw [whole, Nat.add_sub_cancel, List.getElem?_append_right le_rfl, Nat.sub_self,
          List.getElem?_cons_zero]
      obtain ⟨ss', restorable'⟩ := restorable.applyRule known valid entry fuel 1 applied
        fun made member => undoable made (by simp [member])
      have shift : (done ++ [rule]).length + 1 = done.length + 1 + 1 := by simp
      apply ih (done ++ [rule]) (by simp [whole]) restorable'
      · rw [shift]
        exact ran
      · rw [shift]
        intro made member
        exact undoable made (List.mem_append_right _ member)

theorem Restorable.restored {ws ss : List Str} {tail : Str} {s : Substituted} (restorable : t.Restorable ws tail s ss)
    (valid : t.ValidRules) {x : Str} (same : plain x = plain ss.flatten) :
    ∃ r, t.restore s.subatpostbl x = .ok r ∧ plain r = .ok (ws.map plainChar).flatten := by
  obtain ⟨xs, readable, rfl, equal⟩ := plain_same restorable.readable same
  have length : xs.length = ss.length := by simpa using congrArg List.length equal
  obtain ⟨ys, ran, readable', undone⟩ := restore_undo valid restorable.entered xs.length readable le_rfl
  refine ⟨ys.flatten, ?_, ?_⟩
  · rw [restore, Utf8.len_decodes (Utf8.decodes_of_readable readable), run_bind_ok, ran]
  · have origin := restorable.undone xs.length fun sub member => by
      rw [length]
      exact (restorable.bounds sub member).2
    rw [plain_flatten readable', undone, equal, origin]

/-- What `subword` makes of a word that ends in `tail` can be undone on every form with the letters before that. -/
theorem subword_restored (known : t.unicode = Maccer.unicode) (valid : t.ValidRules) {fuel : Nat} {ws : List Str}
    (readable : ∀ c ∈ ws, Utf8.Readable c) {s tail : Str} {subatpostbl : Positions} {includedoubtful : Bool}
    {prev : Option (Str × Positions)}
    (ran : t.subword fuel (ws.flatten ++ tail) includedoubtful true prev = .ok (s, subatpostbl))
    (undoable : s = ws.flatten ++ tail ∨ ∀ made ∈ t.made fuel (ws.flatten ++ tail) includedoubtful prev,
      made.Undoable ∧ made.Before tail) :
    ∃ ss : List Str, (∀ c ∈ ss, Utf8.Readable c) ∧ s = ss.flatten ++ tail ∧ ∀ x, plain x = plain ss.flatten →
      ∃ r, t.restore subatpostbl x = .ok r ∧ plain r = plain ws.flatten := by
  obtain ⟨subst, applied, result⟩ := bind_eq_ok.mp ran
  obtain ⟨rfl, rfl⟩ := Prod.mk.inj (Except.ok.inj result)
  have start : t.Restorable ws tail ⟨ws.flatten ++ tail, [], false⟩ ws :=
    ⟨readable, rfl, by simp [Entered], by simp, fun n _ => Edits.undo_empty n _⟩
  rw [plain_flatten readable]
  by_cases unchanged : subst.subw = ws.flatten ++ tail
  · rw [if_pos unchanged]
    exact ⟨ws, readable, unchanged, fun x same => start.restored valid same⟩
  · rw [if_neg unchanged]
    obtain ⟨ss, restorable⟩ :=
      start.applyRules known valid t.rules [] rfl applied (undoable.resolve_left unchanged)
    exact ⟨ss, restorable.readable, restorable.chars, fun x same => restorable.restored valid same⟩

/-- Every form with the plain letters of a substituted word is restored to the plain letters
of the word, if each substitution that was made can be undone. -/
theorem restore_subword (t : Tables) (fuel : Nat) (w s x : Str) (subatpostbl : Positions)
    (includedoubtful : Bool) (prev : Option (Str × Positions)) (known : t.unicode = Maccer.unicode)
    (valid : t.ValidRules) (word : Utf8.Valid w)
    (ran : t.subword fuel w includedoubtful true prev = .ok (s, subatpostbl)) (same : plain x = plain s)
    (undoable : s = w ∨ ∀ made ∈ t.made fuel w includedoubtful prev, made.Undoable) :
    ∃ r, t.restore subatpostbl x = .ok r ∧ plain r = plain w := by
  obtain ⟨ws, readable, rfl⟩ := word
  rw [← List.append_nil ws.flatten] at ran
  obtain ⟨ss, _, rfl, restored⟩ := subword_restored known valid readable ran <| by
    rw [List.append_nil]
    exact undoable.imp_right fun each made member => ⟨each made member, .inl rfl⟩
  rw [List.append_nil] at same
  exact restored x same

/-- Two entries of the table in `orthography.txt`, the second of which changes what the first
has made. -/
def iniicioTables : Tables :=
  { Tables.empty with rules := [⟨lit "j", lit "i", none⟩, ⟨lit "iic", lit "ic", none⟩] }

theorem iniicioTables_valid : iniicioTables.ValidRules := by
  have read : ∀ rule ∈ iniicioTables.rules, ((Utf8.chars rule.orig).2 = [] ∧ (Utf8.chars rule.repl).2 = []) ∧
      (∀ c ∈ (Utf8.chars rule.orig).1, Utf8.Readable c) ∧ ∀ c ∈ (Utf8.chars rule.repl).1, Utf8.Readable c := by
    decide
  intro rule member
  have texts := read rule member
  exact ⟨Utf8.valid_of_chars _ texts.1.1 texts.2.1, Utf8.valid_of_chars _ texts.1.2 texts.2.2⟩

theorem restore_subword_jam : ∃ r, iniicioTables.restore [(1, 1)] (lit "iām") = .ok r ∧
    plain r = plain (lit "jam") :=
  restore_subword iniicioTables 9 (lit "jam") (lit "iam") (lit "iām") [(1, 1)] true none rfl
    iniicioTables_valid (Utf8.valid_of_chars _ (by decide) (by decide)) (by decide) (by decide)
    (.inr (by decide))

theorem injicio_lower : lower Maccer.unicode (lit "injicio") = .ok (lit "injicio") := by decide +kernel

/-- `injicio` becomes `iniicio` and then `inicio`, from which the loop makes `iniicio`. -/
theorem restore_injicio :
    ¬ ∀ (t : Tables) (fuel : Nat) (w s x : Str) (subatpostbl : Positions) (includedoubtful : Bool)
      (prev : Option (Str × Positions)), t.unicode = Maccer.unicode → t.ValidRules → Utf8.Valid w →
      lower Maccer.unicode w = .ok w → t.subword fuel w includedoubtful true prev = .ok (s, subatpostbl) →
      plain x = plain s → ∃ r, t.restore subatpostbl x = .ok r ∧ plain r = plain w := by
  intro claim
  obtain ⟨r, ran, same⟩ := claim iniicioTables 9 (lit "injicio") (lit "inicio") (lit "inicio")
    [(3, 2), (3, 1)] true none rfl iniicioTables_valid
    (Utf8.valid_of_chars _ (by decide) (by decide)) injicio_lower (by decide) rfl
  have restored : iniicioTables.restore [(3, 2), (3, 1)] (lit "inicio") = .ok (lit "iniicio") := by decide
  rw [restored] at ran
  rw [← Except.ok.inj ran] at same
  exact absurd same (by decide)

end Tables

end Maccer
