import Maccer.Replacing
import Maccer.Sources

/-! The replacements of Repair Key, whatever order they come in. -/

namespace Maccer

open Lua

/-- Headers and frequency of the old form go to the new one, and those of other forms stay as they are. -/
theorem moveCounts_run (key : Key) (orig repl : Str) (apart : orig ≠ repl) (freq : Nat)
    (headers : Table Unit) (counted : field key.freqtbl orig = some freq)
    (sourced : field key.headerstbl orig = some headers) :
    ∃ key', moveCounts key orig repl = .ok key' ∧ key'.keytbl = key.keytbl ∧
      key'.freq orig = 0 ∧ key'.freq repl = key.freq repl + freq ∧
      ∀ w, w ≠ orig → w ≠ repl → field key'.freqtbl w = field key.freqtbl w ∧
        field key'.headerstbl w = field key.headerstbl w := by
  have filled : field (assign (key.headerstbl.insert repl
      (merge ((field key.headerstbl repl).getD ∅) headers)) orig none) repl ≠ none := by
    rw [field_assign_ne _ _ _ _ (Ne.symm apart), field_insert]
    simp
  let key' : Key := { key with
    freqtbl := assign (key.freqtbl.insert repl ((field key.freqtbl repl).getD 0 + freq)) orig none
    headerstbl := assign (key.headerstbl.insert repl
      (merge ((field key.headerstbl repl).getD ∅) headers)) orig none }
  have ran : moveCounts key orig repl = .ok key' := by
    simp only [moveCounts, sourced, counted, if_neg filled]
    rfl
  refine ⟨key', ran, rfl, ?_, ?_, fun w other other' => ⟨?_, ?_⟩⟩
  · simp [Key.freq, key']
  · simp only [Key.freq, key', field_assign_ne _ _ _ _ (Ne.symm apart), field_insert, Option.getD_some]
  · simp only [key', field_assign_ne _ _ _ _ other, field_insert_ne _ _ _ _ other']
  · simp only [key', field_assign_ne _ _ _ _ other, field_insert_ne _ _ _ _ other']

/-- A stored form that can be replaced: it is held once and counted, and the texts of
its headers can be rewritten, which keeps what is needed of the texts. -/
structure Replaceable (t : Tables) (fuel : Nat) (Texts : Table Str → Prop) (key : Key)
    (orig repl : Str) : Prop where
  held : ∃ p i, Held key.keytbl orig p i
  counted : ∃ freq headers, field key.freqtbl orig = some freq ∧
    field key.headerstbl orig = some headers
  rewrites : ∀ h, Carries key orig h → ∀ textstbl, Texts textstbl →
    ∃ textstbl', replaceInSource t fuel orig repl textstbl h = .ok textstbl' ∧ Texts textstbl'

section

variable {t : Tables} {fuel : Nat} {Texts : Table Str → Prop}

theorem replaceInSource_run (orig repl : Str) (headers : List Str) (textstbl : Table Str)
    (rewrites : ∀ h ∈ headers, ∀ textstbl, Texts textstbl →
      ∃ textstbl', replaceInSource t fuel orig repl textstbl h = .ok textstbl' ∧ Texts textstbl')
    (texts : Texts textstbl) :
    ∃ textstbl', headers.foldlM (replaceInSource t fuel orig repl) textstbl = .ok textstbl' ∧
      Texts textstbl' := by
  induction headers generalizing textstbl with
  | nil => exact ⟨textstbl, rfl, texts⟩
  | cons h headers ih =>
      obtain ⟨middle, one, kept⟩ := rewrites h (by simp) textstbl texts
      obtain ⟨last, rest, kept'⟩ := ih middle (fun h' member => rewrites h' (by simp [member])) kept
      exact ⟨last, by rw [List.foldlM_cons, one]; exact rest, kept'⟩

structure Swapped (key key' : Key) (orig repl : Str) : Prop where
  forms : ∀ w, Stored key'.keytbl w ↔ (Stored key.keytbl w ∧ w ≠ orig) ∨ w = repl
  cleared : key'.freq orig = 0
  added : key'.freq repl = key.freq repl + key.freq orig
  counted : ∀ w, w ≠ orig → w ≠ repl → field key'.freqtbl w = field key.freqtbl w ∧
    field key'.headerstbl w = field key.headerstbl w
  kept : ∀ w, w ≠ orig → w ≠ repl → ∀ p i, Held key.keytbl w p i → ∃ j, Held key'.keytbl w p j

theorem replaceword_run (s : Session) (orig repl q : Str) (apart : orig ≠ repl)
    (replPlain : plain repl = .ok q) (texts : Texts s.textstbl)
    (replaceable : Replaceable t fuel Texts s.key orig repl) :
    ∃ s', replaceword t fuel s orig repl = .ok s' ∧ Texts s'.textstbl ∧ Swapped s.key s'.key orig repl := by
  obtain ⟨p, i, held⟩ := replaceable.held
  obtain ⟨freq, headers, counted, sourced⟩ := replaceable.counted
  have member := held.member
  have present : field (parallels s.key.keytbl p) orig ≠ none := by
    rw [Ne, field_parallels_none]
    exact fun absent => absent member
  obtain ⟨textstbl, rewritten, kept⟩ := @replaceInSource_run t fuel Texts orig repl
    (((field s.key.headerstbl orig).map fun hs => (pairs t.hash hs).map (·.1)).getD []) s.textstbl
    (fun h listed => replaceable.rewrites h ⟨headers, sourced, by
      rw [sourced] at listed
      exact (pairs_keys t.hash headers h).mp listed⟩) texts
  obtain ⟨key, moved, keytbl, cleared, added, others⟩ := moveCounts_run
    { s.key with keytbl := replaced s.key.keytbl orig repl p q } orig repl apart freq headers counted
    sourced
  have ran : replaceword t fuel s orig repl = .ok ⟨key, textstbl⟩ := by
    simp only [replaceword, held.same, replPlain, run_bind_ok, getpars_eq,
      if_neg (List.ne_nil_of_mem member), if_neg present, rewritten]
    rw [replaced] at moved
    rw [moved]
    rfl
  refine ⟨_, ran, kept, { forms := fun w => ?_, cleared := cleared, added := ?_, counted := others, kept := ?_ }⟩
  · rw [keytbl]
    exact stored_replaced held apart w
  · rw [added]
    simp [Key.freq, counted]
  · intro w other other' r j heldw
    rw [keytbl]
    exact replaced_held held.word member heldw other other'

theorem replaceword_absent (s : Session) (orig repl p q : Str) (origPlain : plain orig = .ok p)
    (replPlain : plain repl = .ok q) (absent : ¬ Stored s.key.keytbl orig) :
    replaceword t fuel s orig repl = .ok s := by
  have none : orig ∉ chain s.key.keytbl p := fun member => absent (stored_of_chain member)
  have missing := (field_parallels_none s.key.keytbl p orig).mpr none
  simp only [replaceword, origPlain, replPlain, run_bind_ok, getpars_eq]
  split
  · rename_i shape
    rfl
  · rename_i shape
    split at shape
    · cases shape
    · cases shape
      rw [if_pos missing]
      rfl

namespace Swapped

variable {key key' : Key} {orig repl w : Str}

theorem stored (swapped : Swapped key key' orig repl) (other : w ≠ orig) (other' : w ≠ repl) :
    Stored key'.keytbl w ↔ Stored key.keytbl w := by
  simp [swapped.forms, other, other']

theorem freq (swapped : Swapped key key' orig repl) (other : w ≠ orig) (other' : w ≠ repl) :
    key'.freq w = key.freq w := by
  rw [Key.freq, Key.freq, (swapped.counted w other other').1]

theorem replaceable (swapped : Swapped key key' orig repl) {y : Str} (other : w ≠ orig) (other' : w ≠ repl)
    (able : Replaceable t fuel Texts key w y) : Replaceable t fuel Texts key' w y := by
  obtain ⟨freq, headers⟩ := swapped.counted w other other'
  obtain ⟨p, i, held⟩ := able.held
  obtain ⟨j, held'⟩ := swapped.kept w other other' p i held
  refine ⟨⟨p, j, held'⟩, by rw [freq, headers]; exact able.counted, fun h carries => able.rewrites h ?_⟩
  obtain ⟨carriers, found, member⟩ := carries
  exact ⟨carriers, headers ▸ found, member⟩

end Swapped

def moved (key : Key) (entries : List (Str × Str)) (w : Str) : Nat :=
  ((entries.filter fun e => decide (Stored key.keytbl e.1) && decide (e.2 = w)).map
    fun e => key.freq e.1).sum

theorem moved_cons (key : Key) (a y : Str) (entries : List (Str × Str)) (w : Str) :
    moved key ((a, y) :: entries) w =
      (if Stored key.keytbl a ∧ y = w then key.freq a else 0) + moved key entries w := by
  by_cases here : Stored key.keytbl a ∧ y = w <;> simp [moved, here]

theorem moved_same {key key' : Key} {entries : List (Str × Str)}
    (same : ∀ e ∈ entries, (Stored key'.keytbl e.1 ↔ Stored key.keytbl e.1) ∧ key'.freq e.1 = key.freq e.1)
    (w : Str) : moved key' entries w = moved key entries w := by
  induction entries with
  | nil => rfl
  | cons e entries ih =>
      obtain ⟨stored, freq⟩ := same e List.mem_cons_self
      rw [moved_cons, moved_cons, ih fun e member => same e (List.mem_cons_of_mem _ member), freq]
      simp only [stored]

theorem moved_none {key : Key} {entries : List (Str × Str)} {w : Str}
    (free : ∀ e ∈ entries, Stored key.keytbl e.1 → e.2 ≠ w) : moved key entries w = 0 := by
  induction entries with
  | nil => rfl
  | cons e entries ih =>
      rw [moved_cons, ih fun e member => free e (List.mem_cons_of_mem _ member),
        if_neg fun here => free e List.mem_cons_self here.1 here.2]

structure SwappedAll (key key' : Key) (entries : List (Str × Str)) : Prop where
  forms : ∀ w, Stored key'.keytbl w ↔ (Stored key.keytbl w ∧ ∀ e ∈ entries, e.1 ≠ w) ∨
    ∃ e ∈ entries, Stored key.keytbl e.1 ∧ e.2 = w
  freqs : ∀ w, key'.freq w = if Stored key.keytbl w ∧ ∃ e ∈ entries, e.1 = w then 0
    else key.freq w + moved key entries w

namespace SwappedAll

variable {key middle key' : Key} {entries : List (Str × Str)} {a y : Str}

theorem skip (absent : ¬ Stored key.keytbl a) (rest : SwappedAll key key' entries) :
    SwappedAll key key' ((a, y) :: entries) := by
  have left (w : Str) : (Stored key.keytbl w ∧ ∀ e ∈ (a, y) :: entries, e.1 ≠ w) ↔
      Stored key.keytbl w ∧ ∀ e ∈ entries, e.1 ≠ w := by
    refine and_congr_right fun stored => ?_
    rw [List.forall_mem_cons, and_iff_right fun same : a = w => absent (same ▸ stored)]
  have gone (w : Str) : (Stored key.keytbl w ∧ ∃ e ∈ (a, y) :: entries, e.1 = w) ↔
      Stored key.keytbl w ∧ ∃ e ∈ entries, e.1 = w := by
    refine and_congr_right fun stored => ?_
    rw [List.exists_mem_cons_iff, or_iff_right fun same : a = w => absent (same ▸ stored)]
  constructor
  · intro w
    rw [rest.forms, left]
    refine or_congr_right ?_
    rw [List.exists_mem_cons_iff, or_iff_right fun here => absent here.1]
  · intro w
    simp only [rest.freqs, gone, moved_cons, absent, false_and, if_false, Nat.zero_add]

section

variable (stored : Stored key.keytbl a) (one : Swapped key middle a y) (fresh : ∀ e ∈ entries, e.1 ≠ a)
  (later : ∀ e ∈ entries, e.1 ≠ y)

include one fresh later in
theorem same (e : Str × Str) (member : e ∈ entries) :
    (Stored middle.keytbl e.1 ↔ Stored key.keytbl e.1) ∧ middle.freq e.1 = key.freq e.1 :=
  ⟨one.stored (fresh e member) (later e member), one.freq (fresh e member) (later e member)⟩

include stored one fresh later in
theorem step_forms (rest : SwappedAll middle key' entries) (w : Str) :
    Stored key'.keytbl w ↔ (Stored key.keytbl w ∧ ∀ e ∈ (a, y) :: entries, e.1 ≠ w) ∨
      ∃ e ∈ (a, y) :: entries, Stored key.keytbl e.1 ∧ e.2 = w := by
  have brought : (∃ e ∈ entries, Stored middle.keytbl e.1 ∧ e.2 = w) ↔
      ∃ e ∈ entries, Stored key.keytbl e.1 ∧ e.2 = w :=
    exists_congr fun e => and_congr_right fun member => and_congr_left' (same one fresh later e member).1
  rw [rest.forms, brought, one.forms, List.forall_mem_cons, List.exists_mem_cons_iff, ← or_assoc]
  refine or_congr_left ?_
  constructor
  · intro h
    obtain ⟨⟨old, notA⟩ | new, outside⟩ := h
    · exact .inl ⟨old, Ne.symm notA, outside⟩
    · exact .inr ⟨stored, new.symm⟩
  · intro h
    obtain ⟨old, notA, outside⟩ | ⟨_, new⟩ := h
    · exact ⟨.inl ⟨old, Ne.symm notA⟩, outside⟩
    · exact ⟨.inr new.symm, fun e member same => later e member (same.trans new.symm)⟩

include stored one fresh later in
theorem step_freqs (apart : a ≠ y) (unmade : ∀ e ∈ entries, Stored key.keytbl e.1 → e.2 ≠ a)
    (rest : SwappedAll middle key' entries) (w : Str) :
    key'.freq w = if Stored key.keytbl w ∧ ∃ e ∈ (a, y) :: entries, e.1 = w then 0
      else key.freq w + moved key ((a, y) :: entries) w := by
  rw [rest.freqs, moved_same (same one fresh later), moved_cons]
  by_cases isA : w = a
  · subst isA
    have none : ¬ ∃ e ∈ entries, e.1 = w := fun ⟨e, member, same⟩ => fresh e member same
    rw [if_neg fun here => none here.2, if_pos ⟨stored, (w, y), List.mem_cons_self, rfl⟩, one.cleared, moved_none unmade]
  · by_cases isY : w = y
    · subst isY
      have notLeft : ¬ ∃ e ∈ entries, e.1 = w := fun ⟨e, member, same⟩ => later e member same
      have notLeft' : ¬ ∃ e ∈ (a, w) :: entries, e.1 = w := by
        rw [List.exists_mem_cons_iff]
        exact fun here => here.elim apart notLeft
      rw [if_neg fun here => notLeft here.2, if_neg fun here => notLeft' here.2, if_pos ⟨stored, rfl⟩, one.added,
        Nat.add_assoc]
    · have left : (Stored middle.keytbl w ∧ ∃ e ∈ entries, e.1 = w) ↔
          Stored key.keytbl w ∧ ∃ e ∈ (a, y) :: entries, e.1 = w := by
        rw [one.stored isA isY, List.exists_mem_cons_iff, or_iff_right (Ne.symm isA)]
      simp only [left, one.freq isA isY, Ne.symm isY, and_false, if_false, Nat.zero_add]

end

end SwappedAll

theorem replace_run (entries : List (Str × Str)) (s : Session)
    (distinct : (entries.map Prod.fst).Nodup)
    (plains : ∀ e ∈ entries, ∃ p q, plain e.1 = .ok p ∧ plain e.2 = .ok q) (texts : Texts s.textstbl)
    (safe : ∀ e ∈ entries, Stored s.key.keytbl e.1 →
      Replaceable t fuel Texts s.key e.1 e.2 ∧ ∀ e' ∈ entries, e'.1 ≠ e.2) :
    ∃ s', entries.foldlM (fun s e => replaceword t fuel s e.1 e.2) s = .ok s' ∧ SwappedAll s.key s'.key entries := by
  induction entries generalizing s with
  | nil => exact ⟨s, rfl, by simp, by simp [moved]⟩
  | cons e entries ih =>
      obtain ⟨a, y⟩ := e
      obtain ⟨new, distinct⟩ := List.nodup_cons.mp distinct
      have fresh : ∀ e ∈ entries, e.1 ≠ a := fun e member same => new (List.mem_map.mpr ⟨e, member, same⟩)
      obtain ⟨⟨p, q, origPlain, replPlain⟩, plains⟩ := List.forall_mem_cons.mp plains
      have others : ∀ e ∈ entries, Stored s.key.keytbl e.1 →
          Replaceable t fuel Texts s.key e.1 e.2 ∧ e.2 ≠ a ∧ ∀ e' ∈ entries, e'.1 ≠ e.2 := by
        intro e member known
        obtain ⟨able, unmade⟩ := safe e (List.mem_cons_of_mem _ member) known
        obtain ⟨first, rest⟩ := List.forall_mem_cons.mp unmade
        exact ⟨able, Ne.symm first, rest⟩
      by_cases stored : Stored s.key.keytbl a
      case pos =>
        obtain ⟨replaceable, unmade⟩ := safe (a, y) List.mem_cons_self stored
        obtain ⟨apart, later⟩ := List.forall_mem_cons.mp unmade
        obtain ⟨middle, ran, texts', one⟩ := replaceword_run s a y q apart replPlain texts replaceable
        obtain ⟨s', rest, all⟩ := ih middle distinct plains texts' fun e member known => by
          obtain ⟨able, _, free⟩ := others e member ((SwappedAll.same one fresh later e member).1.mp known)
          exact ⟨one.replaceable (fresh e member) (later e member) able, free⟩
        refine ⟨s', by rw [List.foldlM_cons, ran]; exact rest, SwappedAll.step_forms stored one fresh later all, ?_⟩
        exact SwappedAll.step_freqs stored one fresh later apart (fun e member known => (others e member known).2.1) all
      case neg =>
        obtain ⟨s', rest, all⟩ := ih s distinct plains texts fun e member known =>
          ⟨(others e member known).1, (others e member known).2.2⟩
        have skipped := @replaceword_absent t fuel s a y p q origPlain replPlain stored
        exact ⟨s', by rw [List.foldlM_cons, skipped]; exact rest, all.skip stored⟩

end

end Maccer
