import Maccer.Lua.Literals
import Maccer.BadLines

/-! The constants of a list, and what a line with a constant in it should stand for. -/

namespace Maccer

open Lua

def substitute (constant : UInt8) (value s : Str) : Str :=
  s.flatMap fun b => if b = constant then value else [b]

theorem substitute_cons (constant : UInt8) (value : Str) (b : UInt8) (s : Str) :
    substitute constant value (b :: s) = (if b = constant then value else [b]) ++ substitute constant value s :=
  List.flatMap_cons

theorem substitute_absent {constant : UInt8} {s : Str} (value : Str) (absent : constant ∉ s) :
    substitute constant value s = s := by
  induction s with
  | nil => rfl
  | cons b s ih =>
      rw [List.mem_cons, not_or] at absent
      rw [substitute_cons, if_neg (Ne.symm absent.1), ih absent.2]
      rfl

theorem substitute_itself (constant : UInt8) (s : Str) : substitute constant [constant] s = s := by
  induction s with
  | nil => rfl
  | cons b s ih =>
      rw [substitute_cons, ih]
      split
      case isTrue same => rw [same]; rfl
      case isFalse => rfl

theorem substitute_length_le (constant : UInt8) {value : Str} (short : value.length ≤ 1) (s : Str) :
    (substitute constant value s).length ≤ s.length := by
  induction s with
  | nil => exact le_rfl
  | cons b s ih =>
      rw [substitute_cons, List.length_append, List.length_cons]
      split
      case isTrue => omega
      case isFalse => rw [List.length_singleton]; omega

theorem length_le_substitute (constant : UInt8) {value : Str} (filled : 1 ≤ value.length) (s : Str) :
    s.length ≤ (substitute constant value s).length := by
  induction s with
  | nil => exact Nat.zero_le _
  | cons b s ih =>
      rw [substitute_cons, List.length_append, List.length_cons]
      split
      case isTrue => omega
      case isFalse => rw [List.length_singleton]; omega

theorem substitute_eq_self {constant : UInt8} {value s : Str} :
    substitute constant value s = s ↔ constant ∉ s ∨ value = [constant] := by
  constructor
  · intro same
    by_contra other
    rw [not_or, not_not] at other
    obtain ⟨present, apart⟩ := other
    induction s with
    | nil => exact List.not_mem_nil present
    | cons b s ih =>
        rw [substitute_cons] at same
        by_cases here : b = constant
        case neg =>
          rw [if_neg here, List.singleton_append, List.cons.injEq] at same
          exact ih same.2 ((List.mem_cons.mp present).resolve_left (Ne.symm here))
        case pos =>
          rw [if_pos here] at same
          have lengths := congrArg List.length same
          rw [List.length_append, List.length_cons] at lengths
          cases value with
          | nil =>
              have shorter := substitute_length_le constant (show ([] : Str).length ≤ 1 from Nat.zero_le 1) s
              simp only [List.length_nil] at lengths
              omega
          | cons d value =>
              have longer := length_le_substitute constant (show 1 ≤ (d :: value).length by simp) s
              rw [List.length_cons] at lengths
              obtain rfl : value = [] := List.length_eq_zero_iff.mp (by omega)
              rw [List.singleton_append, List.cons.injEq] at same
              exact apart (by rw [same.1, here])
  · intro h
    cases h with
    | inl absent => exact substitute_absent value absent
    | inr same => rw [same]; exact substitute_itself constant s

def Entry.substitute (constant : UInt8) (entry : Entry) (value : Str) : Entry :=
  { entry with
    orig := Maccer.substitute constant value entry.orig
    repl := Maccer.substitute constant value entry.repl }

theorem Entry.substitute_eq_self {constant : UInt8} {entry : Entry} {value : Str} :
    entry.substitute constant value = entry ↔
      (constant ∉ entry.orig ∧ constant ∉ entry.repl) ∨ value = [constant] := by
  rw [and_or_right, ← Maccer.substitute_eq_self, ← Maccer.substitute_eq_self]
  constructor
  · intro same
    exact ⟨congrArg Entry.orig same, congrArg Entry.repl same⟩
  · intro h
    rw [Entry.substitute, h.1, h.2]

def ordinary (line : Str) : Option Str :=
  match readLine line with
  | .ok (.entry line) => some line
  | _ => none

def valuesAfter (constant : UInt8) (values : List Str) (line : Str) : List Str :=
  match readLine line with
  | .ok (.constant other values') => if other = [constant] then values' else values
  | _ => values

def inForce (constant : UInt8) : List Str → List Str → List (Str × List Str)
  | _, [] => []
  | values, line :: lines =>
      ((ordinary line).map fun line => (line, values)).toList ++
        inForce constant (valuesAfter constant values line) lines

def rule (u : Unicode) (line : Str) : Option Entry := (readEntry u line).toOption.bind Prod.fst

def rules (u : Unicode) (lines : List Str) : List Entry := (lines.filterMap ordinary).filterMap (rule u)

theorem rules_cons (u : Unicode) (line : Str) (lines : List Str) :
    rules u (line :: lines) = ((ordinary line).bind (rule u)).toList ++ rules u lines := by
  rw [rules, rules, List.filterMap_filterMap, List.filterMap_filterMap, List.filterMap_cons]
  cases (ordinary line).bind (rule u) <;> rfl

/-- The rules that a line stands for: one for each value, if the constant is in it. -/
def expansions (u : Unicode) (constant : UInt8) (line : Str × List Str) : List Entry :=
  (rule u line.1).toList.flatMap fun entry =>
    if constant ∈ line.1 then line.2.map (entry.substitute constant) else [entry]

theorem foldlM_unit_iff {α : Type} (f : α → Run Unit) (xs : List α) :
    xs.foldlM (fun _ x => f x) () = .ok () ↔ ∀ x ∈ xs, f x = .ok () := by
  induction xs with
  | nil => simp
  | cons x xs ih =>
      rw [List.foldlM_cons, List.forall_mem_cons, ← ih]
      cases f x <;> simp

/-! The run without the declaration, and the one with it. -/

section

variable {hash : HashOrder} {u : Unicode}

theorem setupLine_rules {s next : Subs} {line : Str} (ran : setupLine hash u s line = .ok next) :
    next.entries.map Prod.snd = s.entries.map Prod.snd ++ ((ordinary line).bind (rule u)).toList ∧
      (next.started = true ↔ s.started = true ∨ (ordinary line).isSome) := by
  obtain ⟨kind, read, ran⟩ := bind_eq_ok.mp ran
  rw [ordinary, read]
  cases kind with
  | blank => cases ran; simp
  | constant => cases ran; simp
  | refused => cases ran; simp
  | entry line =>
      obtain ⟨_, entry, reports, read', rfl⟩ := setupEntry_eq_ok.mp ran
      rw [Option.bind_some, rule, read']
      cases entry <;> simp [Except.toOption]

theorem setupLines_rules (lines : List Str) {s next : Subs} (ran : lines.foldlM (setupLine hash u) s = .ok next) :
    next.entries.map Prod.snd = s.entries.map Prod.snd ++ rules u lines ∧
      (next.started = true ↔ s.started = true ∨ ∃ line ∈ lines, (ordinary line).isSome) := by
  induction lines generalizing s with
  | nil => cases ran; simp [rules]
  | cons line lines ih =>
      rw [List.foldlM_cons] at ran
      obtain ⟨middle, first, ran⟩ := bind_eq_ok.mp ran
      obtain ⟨entries, started⟩ := setupLine_rules first
      obtain ⟨entries', started'⟩ := ih ran
      constructor
      · rw [entries', entries, List.append_assoc]
        rw [rules_cons]
      · rw [started', started]
        simp [or_assoc]

theorem inForce_lines (constant : UInt8) (values : List Str) (lines : List Str) :
    (inForce constant values lines).map Prod.fst = lines.filterMap ordinary := by
  induction lines generalizing values with
  | nil => rfl
  | cons line lines ih =>
      rw [inForce, List.map_append, ih]
      cases found : ordinary line <;> simp [found]

theorem rules_inForce (constant : UInt8) (values : List Str) (lines : List Str) :
    rules u lines = (inForce constant values lines).flatMap fun line => (rule u line.1).toList := by
  rw [rules, ← inForce_lines constant values, List.filterMap_map, List.filterMap_eq_flatMap_toList]
  rfl

def Puts (constant : UInt8) (started : Bool) (line : Str × List Str) : Prop :=
  insertValues started line.1 ([constant], line.2) = .ok ()

/-- Putting values into a line raises for the first line, or for a value that names a capture. -/
theorem puts_iff {constant : UInt8} (plain : hasPattern [constant] = false) {started : Bool}
    {line : Str × List Str} (filled : line.2 ≠ []) :
    Puts constant started line ↔ (constant ∈ line.1 → started = true ∧
      ∀ value ∈ line.2, ∃ text, gsubAll line.1 [37, constant] value = .ok text) := by
  obtain ⟨found, ran, present⟩ := find_byte constant plain line.1
  rw [Puts, insertValues, ran, run_bind_ok, ← present]
  by_cases here : found.isSome = true
  case neg => rw [if_neg here]; exact iff_of_true rfl fun there => absurd there here
  case pos =>
    rw [if_pos here, foldlM_unit_iff]
    have each (value : Str) : (do
        let _ ← gsubAll line.1 (lit "%" ++ [constant]) value
        if started then return () else throw .raised : Run Unit) = .ok () ↔
          started = true ∧ ∃ text, gsubAll line.1 [37, constant] value = .ok text := by
      rw [show lit "%" = [37] by decide, List.singleton_append]
      cases started <;> cases gsubAll line.1 [37, constant] value <;> simp
    simp only [each]
    constructor
    · intro puts _
      exact ⟨(puts _ (List.head_mem filled)).1, fun value member => (puts value member).2⟩
    · intro puts value member
      exact ⟨(puts here).1, (puts here).2 value member⟩

theorem insertable_iff {s : Subs} {line : Str} :
    Insertable hash s line ↔
      ∀ k values, field s.constanttbl k = some values → insertValues s.started line (k, values) = .ok () := by
  rw [Insertable, foldlM_unit_iff]
  constructor
  · intro all k values present
    exact all (k, values) ((mem_pairs hash s.constanttbl k values).mpr present)
  · intro all constant member
    exact all constant.1 constant.2 ((mem_pairs hash s.constanttbl constant.1 constant.2).mp member)

structure Declared (constant : UInt8) (values : List Str) (s s' : Subs) : Prop where
  index : s'.i = s.i
  started : s'.started = s.started
  entries : s'.entries = s.entries
  constants : ∀ k, field s'.constanttbl k = if k = [constant] then some values else field s.constanttbl k

theorem Declared.insertable {constant : UInt8} {values : List Str} {s s' : Subs} {line : Str}
    (declared : Declared constant values s s') (inserted : Insertable hash s line) :
    Insertable hash s' line ↔ Puts constant s.started (line, values) := by
  rw [insertable_iff, Puts, declared.started]
  constructor
  · intro all
    exact all [constant] values (by rw [declared.constants, if_pos rfl])
  · intro puts k others present
    rw [declared.constants] at present
    split at present
    case isTrue same =>
      rw [same, ← Option.some.inj present]
      exact puts
    case isFalse => exact insertable_iff.mp inserted k others present

theorem setupLine_declared {constant : UInt8} {values : List Str} {s s' next : Subs} {line : Str}
    (declared : Declared constant values s s') (ran : setupLine hash u s line = .ok next) :
    ((∃ next', setupLine hash u s' line = .ok next') ↔
      ∀ line' ∈ ordinary line, Puts constant s.started (line', values)) ∧
    ∀ next', setupLine hash u s' line = .ok next' →
      Declared constant (valuesAfter constant values line) next next' := by
  obtain ⟨kind, read, ran⟩ := bind_eq_ok.mp ran
  rw [setupLine, read, run_bind_ok, ordinary, valuesAfter, read]
  cases kind with
  | blank =>
      cases ran
      refine ⟨iff_of_true ⟨s', rfl⟩ (by simp), ?_⟩
      intro next' ran'
      cases ran'
      exact declared
  | constant other others =>
      cases ran
      refine ⟨iff_of_true ⟨_, rfl⟩ (by simp), ?_⟩
      intro next' ran'
      cases ran'
      refine ⟨declared.index, declared.started, declared.entries, fun k => ?_⟩
      dsimp only
      by_cases own : k = other
      · subst own
        rw [field_insert, field_insert]
        split <;> rfl
      · rw [field_insert_ne _ _ _ _ own, field_insert_ne _ _ _ _ own, declared.constants]
        by_cases here : k = [constant]
        · have apart : other ≠ [constant] := fun same => own (here.trans same.symm)
          rw [if_pos here, if_pos here, if_neg apart]
        · rw [if_neg here, if_neg here]
  | refused =>
      cases ran
      refine ⟨iff_of_true ⟨_, rfl⟩ (by simp), ?_⟩
      intro next' ran'
      cases ran'
      exact ⟨declared.index, declared.started, declared.entries, declared.constants⟩
  | entry line =>
      obtain ⟨inserted, entry, reports, read', rfl⟩ := setupEntry_eq_ok.mp ran
      constructor
      · have only : (∀ line' ∈ some line, Puts constant s.started (line', values)) ↔ Insertable hash s' line := by
          rw [declared.insertable inserted]
          simp
        rw [only]
        constructor
        · intro h
          obtain ⟨next', ran'⟩ := h
          exact (setupEntry_eq_ok.mp ran').1
        · intro inserted'
          exact ⟨_, setupEntry_eq_ok.mpr ⟨inserted', entry, reports, read', rfl⟩⟩
      · intro next' ran'
        obtain ⟨_, entry', reports', read'', rfl⟩ := setupEntry_eq_ok.mp ran'
        rw [read'] at read''
        cases read''
        exact ⟨by rw [declared.index], rfl, by rw [declared.entries, declared.index], declared.constants⟩

structure Inserts (constant : UInt8) (started : Prop) (lines : List (Str × List Str)) : Prop where
  first : ∀ line, lines.head? = some line → constant ∈ line.1 → started
  values : ∀ line ∈ lines, constant ∈ line.1 →
    ∀ value ∈ line.2, ∃ text, gsubAll line.1 [37, constant] value = .ok text

theorem inserts_cons {constant : UInt8} {started : Prop} {line : Str × List Str} {lines : List (Str × List Str)} :
    Inserts constant started (line :: lines) ↔
      (constant ∈ line.1 → started ∧ ∀ value ∈ line.2, ∃ text, gsubAll line.1 [37, constant] value = .ok text) ∧
      Inserts constant True lines := by
  constructor
  · intro inserts
    refine ⟨fun here => ⟨inserts.first line rfl here, inserts.values line List.mem_cons_self here⟩, ?_⟩
    exact ⟨fun _ _ _ => trivial, fun other member => inserts.values other (List.mem_cons_of_mem _ member)⟩
  · intro h
    refine ⟨fun other same here => ?_, fun other member here => ?_⟩
    · obtain rfl : line = other := Option.some.inj same
      exact (h.1 here).1
    · cases List.mem_cons.mp member with
      | inl same =>
          subst same
          exact (h.1 here).2
      | inr later => exact h.2.values other later here

theorem readLine_values {line constant : Str} {values : List Str}
    (read : readLine line = .ok (.constant constant values)) : values ≠ [] := by
  unfold readLine at read
  dsimp only at read
  split at read
  case isTrue => cases read
  case isFalse =>
    obtain ⟨short, _, read⟩ := bind_eq_ok.mp read
    obtain ⟨groups, _, read⟩ := bind_eq_ok.mp read
    split at read
    case h_1 =>
      split at read
      case isTrue =>
        split at read
        case isTrue => cases read
        case isFalse =>
          cases read
          exact List.splitOn_ne_nil _ _
      case isFalse => cases read
    case h_2 => cases read

theorem valuesAfter_filled (constant : UInt8) {values : List Str} (filled : values ≠ []) (line : Str) :
    valuesAfter constant values line ≠ [] := by
  rw [valuesAfter]
  split
  case h_1 other values' read =>
    split
    case isTrue => exact readLine_values read
    case isFalse => exact filled
  case h_2 => exact filled

theorem setupLines_declared (lines : List Str) {constant : UInt8} (plain : hasPattern [constant] = false)
    {values : List Str} (filled : values ≠ []) {s s' next : Subs} (declared : Declared constant values s s')
    (ran : lines.foldlM (setupLine hash u) s = .ok next) :
    ((∃ next', lines.foldlM (setupLine hash u) s' = .ok next') ↔
      Inserts constant (s.started = true) (inForce constant values lines)) ∧
    ∀ next', lines.foldlM (setupLine hash u) s' = .ok next' → next'.entries = next.entries := by
  induction lines generalizing s s' values with
  | nil =>
      cases ran
      refine ⟨iff_of_true ⟨s', rfl⟩ ⟨by simp [inForce], by simp [inForce]⟩, ?_⟩
      intro next' ran'
      cases ran'
      exact declared.entries
  | cons line lines ih =>
      rw [List.foldlM_cons] at ran
      obtain ⟨middle, first, ran⟩ := bind_eq_ok.mp ran
      obtain ⟨returns, after⟩ := setupLine_declared declared first
      obtain ⟨_, started⟩ := setupLine_rules first
      have later {middle' : Subs} (first' : setupLine hash u s' line = .ok middle') :=
        ih (valuesAfter_filled constant filled line) (after middle' first') ran
      have both : (∃ next', (line :: lines).foldlM (setupLine hash u) s' = .ok next') ↔
          (∃ middle', setupLine hash u s' line = .ok middle') ∧
          Inserts constant (middle.started = true) (inForce constant (valuesAfter constant values line) lines) := by
        constructor
        · intro h
          obtain ⟨next', ran'⟩ := h
          rw [List.foldlM_cons] at ran'
          obtain ⟨middle', first', ran'⟩ := bind_eq_ok.mp ran'
          exact ⟨⟨middle', first'⟩, (later first').1.mp ⟨next', ran'⟩⟩
        · intro h
          obtain ⟨⟨middle', first'⟩, inserts⟩ := h
          obtain ⟨next', ran'⟩ := (later first').1.mpr inserts
          exact ⟨next', by rw [List.foldlM_cons, first', run_bind_ok, ran']⟩
      constructor
      · rw [both, returns, inForce]
        cases found : ordinary line with
        | none =>
            rw [found] at started
            simp only [Option.isSome_none, Bool.false_eq_true, or_false] at started
            simp [started]
        | some line' =>
            rw [found] at started
            have on : middle.started = true := started.mpr (.inr rfl)
            have puts := @puts_iff constant plain s.started (line', values) filled
            simp only [Option.map_some, Option.toList_some, List.singleton_append, inserts_cons, on,
              Option.mem_some_iff, forall_eq', puts]
      · intro next' ran'
        rw [List.foldlM_cons] at ran'
        obtain ⟨middle', first', ran'⟩ := bind_eq_ok.mp ran'
        exact (later first').2 next' ran'

theorem inForce_filled (constant : UInt8) (lines : List Str) {values : List Str} (filled : values ≠ []) :
    ∀ line ∈ inForce constant values lines, line.2 ≠ [] := by
  induction lines generalizing values with
  | nil => exact fun line member => absurd member List.not_mem_nil
  | cons line lines ih =>
      intro other member
      cases List.mem_append.mp member with
      | inl here =>
          obtain ⟨_, _, rfl⟩ := Option.map_eq_some_iff.mp (Option.mem_toList.mp here)
          exact filled
      | inr later => exact ih (valuesAfter_filled constant filled line) other later

end

/-- Lists that are put together from parts of at least the same length are equal part by part. -/
theorem flatMap_eq_iff {α β : Type} {f g : α → List β} {xs : List α}
    (longer : ∀ x ∈ xs, (g x).length ≤ (f x).length) :
    xs.flatMap f = xs.flatMap g ↔ ∀ x ∈ xs, f x = g x := by
  refine ⟨fun same => ?_, fun same => List.flatMap_congr same⟩
  induction xs with
  | nil => exact fun x member => absurd member List.not_mem_nil
  | cons x xs ih =>
      rw [List.forall_mem_cons] at longer ⊢
      rw [List.flatMap_cons, List.flatMap_cons] at same
      have rest : (xs.flatMap g).length ≤ (xs.flatMap f).length := by
        rw [List.length_flatMap, List.length_flatMap]
        exact List.sum_le_sum longer.2
      have lengths := congrArg List.length same
      rw [List.length_append, List.length_append] at lengths
      obtain ⟨first, later⟩ := List.append_inj same (by omega)
      exact ⟨first, ih longer.2 later⟩

theorem expansions_eq_iff {u : Unicode} {constant : UInt8} {line : Str × List Str} :
    expansions u constant line = (rule u line.1).toList ↔
      (constant ∈ line.1 → ∀ entry, rule u line.1 = some entry →
        ∃ value, line.2 = [value] ∧ ((constant ∉ entry.orig ∧ constant ∉ entry.repl) ∨ value = [constant])) := by
  rw [expansions]
  cases rule u line.1 with
  | none => simp
  | some entry =>
      rw [Option.toList_some, List.flatMap_singleton]
      by_cases here : constant ∈ line.1
      case neg => simp [here]
      case pos =>
        simp only [here, if_true, true_implies, Option.some.injEq, forall_eq', ← Entry.substitute_eq_self]
        constructor
        · intro same
          obtain ⟨value, single, unchanged⟩ := List.map_eq_singleton_iff.mp same
          exact ⟨value, single, unchanged⟩
        · intro h
          obtain ⟨value, single, unchanged⟩ := h
          rw [single, List.map_singleton, unchanged]

theorem expansions_length {u : Unicode} {constant : UInt8} {line : Str × List Str} (filled : line.2 ≠ []) :
    (rule u line.1).toList.length ≤ (expansions u constant line).length := by
  rw [expansions]
  cases rule u line.1 with
  | none => exact Nat.zero_le _
  | some entry =>
      rw [Option.toList_some, List.flatMap_singleton]
      split
      case isTrue =>
        rw [List.length_map]
        exact List.length_pos_iff.mpr filled
      case isFalse => exact le_rfl

/-- The lines in which the constant stands give their rules as they are, and raise nothing. -/
structure Harmless (u : Unicode) (constant : UInt8) (started : Prop) (lines : List (Str × List Str)) : Prop where
  inserts : Inserts constant started lines
  unchanged : ∀ line ∈ lines, constant ∈ line.1 → ∀ entry, rule u line.1 = some entry →
    ∃ value, line.2 = [value] ∧ ((constant ∉ entry.orig ∧ constant ∉ entry.repl) ∨ value = [constant])

theorem setupsubs_declared {hash : HashOrder} {u : Unicode} {text text' : Str} {pre post : List Str} {decl : Str}
    {constant : UInt8} {values : List Str} {subs : Subs} (lines : listLines text = .ok (pre ++ post))
    (lines' : listLines text' = .ok (pre ++ decl :: post))
    (declared : readLine decl = .ok (.constant [constant] values)) (plain : hasPattern [constant] = false)
    (ran : setupsubs hash u text = .ok subs) :
    ((∃ subs', setupsubs hash u text' = .ok subs') ↔
      Inserts constant (∃ line ∈ pre, (ordinary line).isSome) (inForce constant values post)) ∧
    ∀ subs', setupsubs hash u text' = .ok subs' → subs'.entries = subs.entries := by
  rw [setupsubs, lines, run_bind_ok, List.foldlM_append] at ran
  obtain ⟨s, before, after⟩ := bind_eq_ok.mp ran
  have step : setupLine hash u s decl =
      .ok { s with constanttbl := s.constanttbl.insert [constant] values } := by
    rw [setupLine, declared]
    rfl
  have extended : Declared constant values s { s with constanttbl := s.constanttbl.insert [constant] values } := by
    refine ⟨rfl, rfl, rfl, fun k => ?_⟩
    split
    case isTrue same => rw [same, field_insert]
    case isFalse apart => exact field_insert_ne _ _ _ _ apart
  have first : s.started = true ↔ ∃ line ∈ pre, (ordinary line).isSome := by
    rw [(setupLines_rules pre before).2]
    simp [Subs.start]
  rw [setupsubs, lines', run_bind_ok, List.foldlM_append, before, run_bind_ok, List.foldlM_cons, step, run_bind_ok,
    ← first]
  exact setupLines_declared post plain (readLine_values declared) extended after

theorem setupsubs_rules {hash : HashOrder} {u : Unicode} {text : Str} {lines : List Str} {subs : Subs}
    (split : listLines text = .ok lines) (ran : setupsubs hash u text = .ok subs) :
    subs.entries.map Prod.snd = rules u lines := by
  rw [setupsubs, split, run_bind_ok] at ran
  exact (setupLines_rules lines ran).1

/-- The expansions of a line are put into a table that the line then replaces, so that every line
gives its own rule alone. -/
theorem setupsubs_constants {hash : HashOrder} {u : Unicode} {text text' : Str} {pre post : List Str} {decl : Str}
    {constant : UInt8} {values : List Str} {subs : Subs} (lines : listLines text = .ok (pre ++ post))
    (lines' : listLines text' = .ok (pre ++ decl :: post))
    (declared : readLine decl = .ok (.constant [constant] values)) (plain : hasPattern [constant] = false)
    (ran : setupsubs hash u text = .ok subs) :
    (∃ subs', setupsubs hash u text' = .ok subs' ∧ subs'.entries.map Prod.snd =
      rules u pre ++ (inForce constant values post).flatMap (expansions u constant)) ↔
    Harmless u constant (∃ line ∈ pre, (ordinary line).isSome) (inForce constant values post) := by
  obtain ⟨returns, same⟩ := setupsubs_declared lines lines' declared plain ran
  have given : subs.entries.map Prod.snd =
      rules u pre ++ (inForce constant values post).flatMap fun line => (rule u line.1).toList := by
    rw [setupsubs_rules lines ran, ← rules_inForce, rules, rules, rules, List.filterMap_append, List.filterMap_append]
  have expanded := (flatMap_eq_iff fun line member =>
    @expansions_length u constant line
      (inForce_filled constant post (readLine_values declared) line member)).trans
      (forall₂_congr fun line _ => expansions_eq_iff)
  constructor
  · intro h
    obtain ⟨subs', ran', all⟩ := h
    rw [same subs' ran', given, List.append_cancel_left_eq] at all
    exact ⟨returns.mp ⟨subs', ran'⟩, expanded.mp all.symm⟩
  · intro harmless
    obtain ⟨subs', ran'⟩ := returns.mpr harmless.inserts
    refine ⟨subs', ran', ?_⟩
    rw [same subs' ran', given, expanded.mpr harmless.unchanged]

/-- A constant that stands in a note only. -/
theorem setupsubs_constants_note :
    ∃ subs', setupsubs .stored unicode (lit "a=b\n_=c\nd=e(_)") = .ok subs' ∧ subs'.entries.map Prod.snd =
      rules unicode [lit "a=b"] ++ (inForce 95 [lit "c"] [lit "d=e(_)"]).flatMap (expansions unicode 95) := by
  obtain ⟨subs, ran⟩ := exists_ok (x := setupsubs .stored unicode (lit "a=b\nd=e(_)")) (by decide)
  have lines : listLines (lit "a=b\nd=e(_)") = .ok ([lit "a=b"] ++ [lit "d=e(_)"]) := by decide
  have lines' : listLines (lit "a=b\n_=c\nd=e(_)") = .ok ([lit "a=b"] ++ lit "_=c" :: [lit "d=e(_)"]) := by decide
  refine (setupsubs_constants lines lines' (by decide) (by decide) ran).mpr ?_
  rw [show inForce 95 [lit "c"] [lit "d=e(_)"] = [(lit "d=e(_)", [lit "c"])] by decide]
  refine ⟨⟨fun _ _ _ => ⟨lit "a=b", List.mem_cons_self, by decide⟩, ?_⟩, ?_⟩
  · simp only [List.forall_mem_singleton]
    exact fun _ => exists_ok (by decide)
  · simp only [List.forall_mem_singleton]
    intro _ entry found
    have known : rule unicode (lit "d=e(_)") = some ⟨lit "d", lit "e", none, some (lit "_")⟩ := by decide +kernel
    obtain rfl := Option.some.inj (known.symm.trans found)
    exact ⟨lit "c", rfl, .inl (by decide)⟩

/-- `x_=y_` stays one rule, whatever the values of `_`. -/
theorem setupsubs_constants_lost :
    ¬ ∀ (hash : HashOrder) (u : Unicode) (text text' : Str) (pre post : List Str) (decl : Str) (constant : UInt8)
      (values : List Str) (subs : Subs), listLines text = .ok (pre ++ post) →
      listLines text' = .ok (pre ++ decl :: post) → readLine decl = .ok (.constant [constant] values) →
      hasPattern [constant] = false → setupsubs hash u text = .ok subs →
      ∃ subs', setupsubs hash u text' = .ok subs' ∧ subs'.entries.map Prod.snd =
        rules u pre ++ (inForce constant values post).flatMap (expansions u constant) := by
  intro claim
  obtain ⟨subs, ran⟩ := exists_ok (x := setupsubs .stored unicode (lit "a=b\nx_=y_")) (by decide)
  have lines : listLines (lit "a=b\nx_=y_") = .ok ([lit "a=b"] ++ [lit "x_=y_"]) := by decide
  have lines' : listLines (lit "a=b\n_=c,d\nx_=y_") = .ok ([lit "a=b"] ++ lit "_=c,d" :: [lit "x_=y_"]) := by decide
  have declared : readLine (lit "_=c,d") = .ok (.constant [95] [lit "c", lit "d"]) := by decide
  obtain ⟨subs', ran', all⟩ := claim .stored unicode _ _ _ _ _ _ _ subs lines lines' declared (by decide) ran
  have two := congrArg List.length (setupsubs_rules lines ran)
  rw [← (setupsubs_declared lines lines' declared (by decide) ran).2 subs' ran', all] at two
  exact absurd two (by decide)

end Maccer
