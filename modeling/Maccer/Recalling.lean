import Mathlib.Data.List.Count
import Maccer.Analyze
import Maccer.History

/-! Steps 1 and 2 of `analyze`: abbreviations and enclitics, and what the repair history has of them. -/

namespace Maccer

open Lua

/-- What the two steps have found: the words of the history, those with an enclitic that is
rarely one, and what `add` has recorded. -/
structure Findings where
  autotbl : Table Str
  ABV_OK : List Str
  ABV_AUTO : List Str
  ENC_OK : List Str
  ENC_AUTO : List Str
  ENC_DOUBT : Table Unit
  analysis : Analysis

def Findings.start (h : History) : Findings := ⟨h.autotbl, [], [], [], [], ∅, Analysis.start⟩

def plainOf (plainwkey : Str) : Run Str := do
  match ← lmatch plainwkey (lit "(%D+)") with
  | some [plainw] => return plainw
  | _ => throw .raised

def isAbbreviation (plainwkey : Str) : Run Bool := do
  let plainw ← plainOf plainwkey
  return decide (subFrom plainw plainw.length = lit ".")

def hasEnclitic (e : Str × Str) (enc : Str) : Run Bool := do
  let plainw ← plainOf e.1
  let ending ← Utf8.sub e.2 (plainw.length - enc.length + 1) (-1)
  return decide (ending = enc)

def findAbbreviation (h : History) (f : Findings) (e : Str × Str) : Run Findings := do
  if ← isAbbreviation e.1 then
    if e.2 ∈ h.oktbl then return { f with ABV_OK := f.ABV_OK ++ [e.2] }
    else if e.2 ∈ f.autotbl then
      return { f with ABV_AUTO := f.ABV_AUTO ++ [e.2], autotbl := assign f.autotbl e.2 none }
    else return { f with analysis := f.analysis.add .ABV e.2 none }
  else return f

def findEnclitic (h : History) (e : Str × Str) (f : Findings) (enclitic : Str × Bool) : Run Findings := do
  if ← hasEnclitic e enclitic.1 then
    if e.2 ∈ h.oktbl then return { f with ENC_OK := f.ENC_OK ++ [e.2] }
    else if e.2 ∈ f.autotbl then return { f with ENC_AUTO := f.ENC_AUTO ++ [e.2] }
    else if e.2 ≠ enclitic.1 then
      return { f with
        analysis := f.analysis.add .ENC e.2 none
        ENC_DOUBT := if enclitic.2 then f.ENC_DOUBT else f.ENC_DOUBT.insert e.2 () }
    else return f
  else return f

def findFixed (hash : HashOrder) (enclitictbl : Table Bool) (h : History) (keytbl : Table Str) : Run Findings := do
  let f ← (sortedpairs keytbl).foldlM (findAbbreviation h) (Findings.start h)
  (sortedpairs keytbl).foldlM (fun f e => (pairs hash enclitictbl).foldlM (findEnclitic h e) f) f

def InHistory (h : History) (w : Str) : Prop := w ∈ h.abvtbl ∨ w ∈ h.enctbl ∨ w ∈ h.autotbl ∨ w ∈ h.oktbl

def abbreviated (entries : List (Str × Str)) : List Str :=
  (entries.filter fun e => decide (isAbbreviation e.1 = .ok true)).map Prod.snd

def abbreviations (keytbl : Table Str) : List Str := abbreviated (sortedpairs keytbl)

def Ends (enclitictbl : Table Bool) (keytbl : Table Str) (w enc : Str) : Prop :=
  enc ∈ enclitictbl ∧ ∃ k, field keytbl k = some w ∧ hasEnclitic (k, w) enc = .ok true

/-- The steps put words of the history in none of the new sections, but on the list that they are from. -/
structure Remembered (enclitictbl : Table Bool) (keytbl : Table Str) (h : History) (f : Findings) : Prop where
  new : ∀ w, InHistory h w → field f.analysis.wsections w = none
  abv : ∀ w ∈ abbreviations keytbl, InHistory h w → w ∈ f.ABV_OK ∨ w ∈ f.ABV_AUTO
  enc : ∀ w enc, Ends enclitictbl keytbl w enc → w ≠ enc → InHistory h w → w ∈ f.ENC_OK ∨ w ∈ f.ENC_AUTO

structure Recalled (enclitictbl : Table Bool) (keytbl : Table Str) (h : History) : Prop where
  abv : ∀ w ∈ abbreviations keytbl, InHistory h w →
    w ∈ h.oktbl ∨ w ∈ h.autotbl ∧ (abbreviations keytbl).count w = 1
  enc : ∀ w enc, Ends enclitictbl keytbl w enc → w ≠ enc → InHistory h w →
    w ∈ h.oktbl ∨ w ∈ h.autotbl ∧ w ∉ abbreviations keytbl

/-! What `add` records. -/

theorem wsections_add (a : Analysis) (sect : Section) (v w : Str) :
    (field (a.add sect v none).wsections w).isSome ↔ (field a.wsections w).isSome ∨ w = v := by
  rw [Analysis.add, Analysis.tomulti]
  by_cases same : w = v
  · subst same
    cases known : field a.wsections w with
    | none => simp [Analysis.replToMulti]
    | some place => cases place <;> simp [Analysis.replToMulti, known]
  · cases known : field a.wsections v with
    | none => simp [Analysis.replToMulti, field_insert_ne _ _ _ _ same, same]
    | some place =>
        cases place <;>
          simp [Analysis.replToMulti, Analysis.delete, field_insert_ne _ _ _ _ same, field_assign_ne _ _ _ _ same, same]

/-! The first step. -/

structure FirstStep (h : History) (words : List Str) (f f' : Findings) : Prop where
  auto : ∀ w, w ∈ f'.autotbl ↔ w ∈ f.autotbl ∧ (w ∈ h.oktbl ∨ w ∉ words)
  placed : ∀ w, (field f'.analysis.wsections w).isSome ↔ (field f.analysis.wsections w).isSome ∨
    w ∉ h.oktbl ∧ (w ∉ f.autotbl ∧ w ∈ words ∨ 2 ≤ words.count w)
  ok : ∀ w, w ∈ f'.ABV_OK ↔ w ∈ f.ABV_OK ∨ w ∈ h.oktbl ∧ w ∈ words
  listed : ∀ w, w ∈ f'.ABV_AUTO ↔ w ∈ f.ABV_AUTO ∨ w ∉ h.oktbl ∧ w ∈ f.autotbl ∧ w ∈ words
  encOk : f'.ENC_OK = f.ENC_OK
  encAuto : f'.ENC_AUTO = f.ENC_AUTO

theorem findAbbreviation_step (h : History) {f f' : Findings} {e : Str × Str} (flag : isAbbreviation e.1 = .ok true)
    (ran : findAbbreviation h f e = .ok f') : FirstStep h [e.2] f f' := by
  rw [findAbbreviation, flag, run_bind_ok, if_pos rfl] at ran
  have once (w : Str) : ¬ 2 ≤ [e.2].count w := fun twice => absurd (twice.trans List.count_le_length) (by simp)
  -- the word is on the OK list, or it comes off the auto-replace list, or it is new
  split at ran
  case isTrue known =>
    cases ran
    refine ⟨fun w => ?_, fun w => ?_, fun w => ?_, fun w => ?_, rfl, rfl⟩
    all_goals
      simp only [once, List.mem_singleton, List.mem_append, or_false]
      grind
  case isFalse unknown =>
    split at ran
    case isTrue auto =>
      cases ran
      refine ⟨fun w => ?_, fun w => ?_, fun w => ?_, fun w => ?_, rfl, rfl⟩
      all_goals
        simp only [once, List.mem_singleton, List.mem_append, or_false, mem_assign_none]
        grind
    case isFalse fresh =>
      cases ran
      refine ⟨fun w => ?_, fun w => ?_, fun w => ?_, fun w => ?_, rfl, rfl⟩
      all_goals
        simp only [once, List.mem_singleton, or_false, wsections_add]
        grind

theorem FirstStep.trans {h : History} {v : Str} {words : List Str} {f g f' : Findings} (first : FirstStep h [v] f g)
    (later : FirstStep h words g f') : FirstStep h (v :: words) f f' := by
  have once (w : Str) : ¬ 2 ≤ [v].count w := fun twice => absurd (twice.trans List.count_le_length) (by simp)
  refine ⟨fun w => ?_, fun w => ?_, fun w => ?_, fun w => ?_, later.encOk.trans first.encOk,
    later.encAuto.trans first.encAuto⟩
  · rw [later.auto, first.auto, List.mem_singleton, List.mem_cons]
    grind
  · rw [later.placed, first.placed, first.auto, List.mem_singleton]
    have none := List.count_pos_iff (a := w) (l := words)
    by_cases same : w = v
    · subst same
      rw [List.count_cons_self]
      grind
    · rw [List.count_cons_of_ne (Ne.symm same)]
      grind
  · rw [later.ok, first.ok, List.mem_singleton, List.mem_cons]
    grind
  · rw [later.listed, first.listed, first.auto, List.mem_singleton, List.mem_cons]
    grind

theorem findAbbreviations_run (h : History) (entries : List (Str × Str)) (f f' : Findings)
    (ran : entries.foldlM (findAbbreviation h) f = .ok f') : FirstStep h (abbreviated entries) f f' := by
  induction entries generalizing f with
  | nil =>
      cases ran
      constructor <;> simp [abbreviated]
  | cons e entries ih =>
      rw [List.foldlM_cons] at ran
      obtain ⟨next, step, ran⟩ := bind_eq_ok.mp ran
      have later := ih next ran
      cases flag : isAbbreviation e.1 with
      | error fault =>
          rw [findAbbreviation, flag] at step
          cases step
      | ok flagged =>
          cases flagged with
          | false =>
              have skipped : abbreviated (e :: entries) = abbreviated entries := by simp [abbreviated, flag]
              rw [findAbbreviation, flag] at step
              cases step
              rwa [skipped]
          | true =>
              have words : abbreviated (e :: entries) = e.2 :: abbreviated entries := by simp [abbreviated, flag]
              rw [words]
              exact (findAbbreviation_step h flag step).trans later

/-! The second step. -/

def ends (e : Str × Str) (enclitics : List (Str × Bool)) : List (Str × Str) :=
  (enclitics.filter fun enclitic => decide (hasEnclitic e enclitic.1 = .ok true)).map fun enclitic => (e.2, enclitic.1)

structure SecondStep (h : History) (hits : List (Str × Str)) (f f' : Findings) : Prop where
  auto : f'.autotbl = f.autotbl
  placed : ∀ w, (field f'.analysis.wsections w).isSome ↔ (field f.analysis.wsections w).isSome ∨
    w ∉ h.oktbl ∧ w ∉ f.autotbl ∧ ∃ enc, (w, enc) ∈ hits ∧ w ≠ enc
  ok : ∀ w, w ∈ f'.ENC_OK ↔ w ∈ f.ENC_OK ∨ w ∈ h.oktbl ∧ ∃ enc, (w, enc) ∈ hits
  listed : ∀ w, w ∈ f'.ENC_AUTO ↔ w ∈ f.ENC_AUTO ∨ w ∉ h.oktbl ∧ w ∈ f.autotbl ∧ ∃ enc, (w, enc) ∈ hits
  abvOk : f'.ABV_OK = f.ABV_OK
  abvAuto : f'.ABV_AUTO = f.ABV_AUTO

theorem SecondStep.refl (h : History) (f : Findings) : SecondStep h [] f f := by
  constructor <;> simp

theorem SecondStep.trans {h : History} {hits hits' : List (Str × Str)} {f g f' : Findings} (first : SecondStep h hits f g)
    (later : SecondStep h hits' g f') : SecondStep h (hits ++ hits') f f' := by
  refine ⟨later.auto.trans first.auto, fun w => ?_, fun w => ?_, fun w => ?_, later.abvOk.trans first.abvOk,
    later.abvAuto.trans first.abvAuto⟩
  · rw [later.placed, first.placed, first.auto]
    simp only [List.mem_append]
    grind
  · rw [later.ok, first.ok]
    simp only [List.mem_append]
    grind
  · rw [later.listed, first.listed, first.auto]
    simp only [List.mem_append]
    grind

theorem findEnclitic_step (h : History) {f f' : Findings} {e : Str × Str} {enclitic : Str × Bool}
    (flag : hasEnclitic e enclitic.1 = .ok true) (ran : findEnclitic h e f enclitic = .ok f') :
    SecondStep h [(e.2, enclitic.1)] f f' := by
  rw [findEnclitic, flag, run_bind_ok, if_pos rfl] at ran
  have here (w enc : Str) : (w, enc) ∈ [(e.2, enclitic.1)] ↔ w = e.2 ∧ enc = enclitic.1 := by
    rw [List.mem_singleton, Prod.mk.injEq]
  split at ran
  case isTrue known =>
    cases ran
    refine ⟨rfl, fun w => ?_, fun w => ?_, fun w => ?_, rfl, rfl⟩
    all_goals
      simp only [here, List.mem_append, List.mem_singleton]
      grind
  case isFalse unknown =>
    split at ran
    case isTrue auto =>
      cases ran
      refine ⟨rfl, fun w => ?_, fun w => ?_, fun w => ?_, rfl, rfl⟩
      all_goals
        simp only [here, List.mem_append, List.mem_singleton]
        grind
    case isFalse fresh =>
      split at ran
      case isTrue apart =>
        cases ran
        refine ⟨rfl, fun w => ?_, fun w => ?_, fun w => ?_, rfl, rfl⟩
        all_goals
          simp only [here, wsections_add]
          grind
      case isFalse same =>
        cases ran
        refine ⟨rfl, fun w => ?_, fun w => ?_, fun w => ?_, rfl, rfl⟩
        all_goals
          simp only [here]
          grind

theorem findEnclitics_run (h : History) (e : Str × Str) (enclitics : List (Str × Bool)) (f f' : Findings)
    (ran : enclitics.foldlM (findEnclitic h e) f = .ok f') : SecondStep h (ends e enclitics) f f' := by
  induction enclitics generalizing f with
  | nil =>
      cases ran
      exact .refl h _
  | cons enclitic enclitics ih =>
      rw [List.foldlM_cons] at ran
      obtain ⟨next, step, ran⟩ := bind_eq_ok.mp ran
      have later := ih next ran
      cases flag : hasEnclitic e enclitic.1 with
      | error fault =>
          rw [findEnclitic, flag] at step
          cases step
      | ok flagged =>
          cases flagged with
          | false =>
              have skipped : ends e (enclitic :: enclitics) = ends e enclitics := by simp [ends, flag]
              rw [findEnclitic, flag] at step
              cases step
              rwa [skipped]
          | true =>
              have hit : ends e (enclitic :: enclitics) = [(e.2, enclitic.1)] ++ ends e enclitics := by simp [ends, flag]
              rw [hit]
              exact (findEnclitic_step h flag step).trans later

theorem findAllEnclitics_run (h : History) (enclitics : List (Str × Bool)) (entries : List (Str × Str)) (f f' : Findings)
    (ran : entries.foldlM (fun f e => enclitics.foldlM (findEnclitic h e) f) f = .ok f') :
    SecondStep h (entries.flatMap fun e => ends e enclitics) f f' := by
  induction entries generalizing f with
  | nil =>
      cases ran
      exact .refl h _
  | cons e entries ih =>
      rw [List.foldlM_cons] at ran
      obtain ⟨next, step, ran⟩ := bind_eq_ok.mp ran
      exact (findEnclitics_run h e enclitics f next step).trans (ih next ran)

theorem mem_ends (hash : HashOrder) (enclitictbl : Table Bool) (keytbl : Table Str) (w enc : Str) :
    (w, enc) ∈ ((sortedpairs keytbl).flatMap fun e => ends e (pairs hash enclitictbl)) ↔ Ends enclitictbl keytbl w enc := by
  have key (k v : Str) : (k, v) ∈ sortedpairs keytbl ↔ field keytbl k = some v := mem_pairs _ keytbl k v
  simp only [List.mem_flatMap, ends, List.mem_map, List.mem_filter, decide_eq_true_eq, Prod.mk.injEq]
  constructor
  · rintro ⟨⟨k, v⟩, member, ⟨c, likely⟩, ⟨listed, flag⟩, rfl, rfl⟩
    exact ⟨mem_of_field ((mem_pairs hash enclitictbl c likely).mp listed), k, (key k v).mp member, flag⟩
  · rintro ⟨member, k, found, flag⟩
    obtain ⟨likely, listed⟩ := exists_field member
    exact ⟨(k, w), (key k w).mpr found, (enc, likely), ⟨(mem_pairs hash enclitictbl enc likely).mpr listed, flag⟩, rfl, rfl⟩

/-! Both. -/

/-- The steps remember all words of the history just when those that they find are on the lists that they look at. -/
theorem remembered_iff (hash : HashOrder) (enclitictbl : Table Bool) (h : History) (keytbl : Table Str) (f : Findings)
    (ran : findFixed hash enclitictbl h keytbl = .ok f) :
    Remembered enclitictbl keytbl h f ↔ Recalled enclitictbl keytbl h := by
  rw [findFixed] at ran
  obtain ⟨g, first, second⟩ := bind_eq_ok.mp ran
  have one : FirstStep h (abbreviations keytbl) _ g := findAbbreviations_run h _ _ g first
  have two := findAllEnclitics_run h _ _ g f second
  have left (w : Str) : w ∈ g.autotbl ↔ w ∈ h.autotbl ∧ (w ∈ h.oktbl ∨ w ∉ abbreviations keytbl) := one.auto w
  have unplaced (w : Str) : field f.analysis.wsections w = none ↔
      ¬ (w ∉ h.oktbl ∧ (w ∉ h.autotbl ∧ w ∈ abbreviations keytbl ∨ 2 ≤ (abbreviations keytbl).count w) ∨
        w ∉ h.oktbl ∧ w ∉ g.autotbl ∧ ∃ enc, Ends enclitictbl keytbl w enc ∧ w ≠ enc) := by
    have start : field (Findings.start h).analysis.wsections w = none := rfl
    rw [← Option.not_isSome_iff_eq_none, two.placed, one.placed, start]
    simp only [mem_ends, Option.isSome_none, Bool.false_eq_true, false_or]
    rfl
  have once (w : Str) := List.count_pos_iff (a := w) (l := abbreviations keytbl)
  constructor
  · intro remembered
    refine ⟨fun w member listed => ?_, fun w enc ending apart listed => ?_⟩
    · have none := (unplaced w).mp (remembered.new w listed)
      have some := (once w).mpr member
      grind
    · have none := (unplaced w).mp (remembered.new w listed)
      grind
  · intro recalled
    refine ⟨fun w listed => (unplaced w).mpr ?_, fun w member listed => ?_, fun w enc ending apart listed => ?_⟩
    · rintro (⟨unknown, new⟩ | ⟨unknown, off, enc, ending, apart⟩)
      · have member : w ∈ abbreviations keytbl := (once w).mp (by grind)
        have there := recalled.abv w member listed
        grind
      · have there := recalled.enc w enc ending apart listed
        grind
    · rw [two.abvOk, two.abvAuto, one.ok, one.listed]
      have there := recalled.abv w member listed
      have auto : w ∈ (Findings.start h).autotbl ↔ w ∈ h.autotbl := Iff.rfl
      grind
    · rw [two.ok, two.listed]
      have there := recalled.enc w enc ending apart listed
      have hit : ∃ enc, (w, enc) ∈ ((sortedpairs keytbl).flatMap fun e => ends e (pairs hash enclitictbl)) :=
        ⟨enc, (mem_ends hash enclitictbl keytbl w enc).mpr ending⟩
      grind

def kalKeytbl : Table Str := learnForm ∅ (lit "kal.") (lit "kal.")

def queTable : Table Bool := AList.insert (lit "que") true ∅

theorem kalKeytbl_field {k w : Str} (found : field kalKeytbl k = some w) : k = lit "kal." ∧ w = lit "kal." := by
  have only : ∀ e ∈ kalKeytbl.entries, e.1 = lit "kal." ∧ e.2 = lit "kal." := by decide
  exact only ⟨k, w⟩ (AList.mem_lookup_iff.mp found)

theorem remembered_kal : ∃ f, findFixed .stored queTable { History.empty with oktbl := AList.insert (lit "kal.") () ∅ }
      kalKeytbl = .ok f ∧
    Remembered queTable kalKeytbl { History.empty with oktbl := AList.insert (lit "kal.") () ∅ } f := by
  have returns : (findFixed .stored queTable { History.empty with oktbl := AList.insert (lit "kal.") () ∅ }
      kalKeytbl).toBool = true := by decide
  obtain ⟨f, ran⟩ := exists_ok returns
  refine ⟨f, ran, (remembered_iff _ _ _ _ f ran).mpr ⟨fun w member _ => .inl ?_, fun w enc ending _ _ => .inl ?_⟩⟩
  · have only : ∀ w ∈ abbreviations kalKeytbl, w = lit "kal." := by decide
    rw [only w member]
    decide
  · obtain ⟨_, k, found, _⟩ := ending
    rw [(kalKeytbl_field found).2]
    decide

/-- An abbreviation that only `repair-abbrev.txt` has is put in the new section again. -/
theorem remembered_abbrev : ¬ ∀ (hash : HashOrder) (enclitictbl : Table Bool) (files : RepairFiles) (h : History)
    (keytbl : Table Str) (f : Findings), loadrepairhistory files = .ok h → WellFormed keytbl →
    findFixed hash enclitictbl h keytbl = .ok f → Remembered enclitictbl keytbl h f := by
  intro claim
  have wf : WellFormed kalKeytbl := wellFormed_empty.learnForm (by decide) (by decide)
  have run : (do
      let h ← loadrepairhistory ⟨lit "kal.", [], [], []⟩
      let f ← findFixed .stored queTable h kalKeytbl
      return (decide (lit "kal." ∈ h.abvtbl), (field f.analysis.wsections (lit "kal.")).isSome)) = .ok (true, true) := by
    decide
  obtain ⟨h, loaded, run⟩ := bind_eq_ok.mp run
  obtain ⟨f, ran, run⟩ := bind_eq_ok.mp run
  obtain ⟨listed, placed⟩ := Prod.mk.inj (Except.ok.inj run)
  have remembered := claim .stored queTable _ h kalKeytbl f loaded wf ran
  rw [remembered.new _ (.inl (of_decide_eq_true listed))] at placed
  cases placed

end Maccer
