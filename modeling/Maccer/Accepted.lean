import Maccer.KeyRoundTrip
import Maccer.Replacing

/-! What `macra.loadkey` makes of a key file, whoever wrote it. -/

namespace Maccer

open Lua

def keylines (file : Str) : Run (List Str) := do
  let keystrall ← decomment (readutf8 file)
  let sources ← lmatch keystrall (lit "(.+)" ++ DIVIDER)
  let words ← lmatch keystrall (DIVIDER ++ lit "(.+)")
  let keystr := (((sources.bind List.head?).bind fun _ => words).bind List.head?).getD keystrall
  return if keystr = [] then [] else (cleanup keystr true false).splitOn 10

def keyword (keyline : Str) : Run Str := do
  match ← lmatch keyline (lit "[^\t]+") with
  | some [macronw] => return macronw
  | _ => throw .raised

def keywords (file : Str) : Run (List Str) := do
  let lines ← keylines file
  lines.mapM keyword

/-! Digits of a form. -/

set_option maxRecDepth 8000 in
theorem macron_letters : ∀ e ∈ unicode.macroninvtbl.entries, ∀ b ∈ e.1, isDigit b = false := by
  decide

theorem digitFree_plain {w p : Str} (same : plain w = .ok p) : DigitFree p ↔ DigitFree w := by
  refine ⟨fun word => ?_, plain_digitFree same⟩
  simp only [plain, Utf8.replace] at same
  split at same
  case isFalse => cases same
  case isTrue whole =>
      have joined : (Utf8.chars w).1.flatten = w := by
        simpa [whole] using Utf8.chars_join w
      cases same
      intro b member
      rw [← joined] at member
      obtain ⟨c, present, inside⟩ := List.mem_flatten.mp member
      cases entry : field unicode.macroninvtbl c with
      | some letter => exact macron_letters ⟨c, letter⟩ (AList.mem_lookup_iff.mp entry) b inside
      | none =>
          apply word b
          rw [List.mem_flatMap]
          exact ⟨c, present, by rwa [entry]⟩

/-! Loading. -/

theorem loadWord_inserts {headersbynumtbl : List Str} {numstbl : Table Nat} {key key' : Key} {keyline : Str}
    (ran : loadWord headersbynumtbl numstbl key keyline = .ok key') :
    ∃ w p, keyword keyline = .ok w ∧ plain w = .ok p ∧
      key'.keytbl = key.keytbl.insert (slot p (chain key.keytbl p).length) w := by
  obtain ⟨captures, found, ran⟩ := bind_eq_ok.mp ran
  split at ran
  case h_2 => cases ran
  case h_1 w =>
      obtain ⟨columns, _, ran⟩ := bind_eq_ok.mp ran
      obtain ⟨p, same, ran⟩ := bind_eq_ok.mp ran
      cases ran
      refine ⟨w, p, ?_, same, ?_⟩
      · rw [keyword, found]
        rfl
      · rw [getnextkey_eq]

def tableForms (keytbl : Table Str) : List Str := keytbl.entries.map Sigma.snd

theorem mem_tableForms {keytbl : Table Str} {w : Str} : w ∈ tableForms keytbl ↔ Stored keytbl w := by
  rw [tableForms, List.mem_map]
  constructor
  · rintro ⟨⟨k, v⟩, member, rfl⟩
    exact ⟨k, AList.mem_lookup_iff.mpr member⟩
  · rintro ⟨k, found⟩
    exact ⟨⟨k, w⟩, AList.mem_lookup_iff.mp found, rfl⟩

theorem tableForms_insert {keytbl : Table Str} {k : Str} (free : field keytbl k = none) (w : Str) :
    tableForms (keytbl.insert k w) = w :: tableForms keytbl := by
  have absent : k ∉ keytbl := (field_eq_none _ _).mp free
  rw [tableForms, AList.entries_insert_of_notMem absent]
  rfl

theorem loadWords_tableForms {headersbynumtbl : List Str} {numstbl : Table Nat} {lines : List Str} {key key' : Key}
    (ran : lines.foldlM (loadWord headersbynumtbl numstbl) key = .ok key') :
    ∃ ws, lines.mapM keyword = .ok ws ∧ tableForms key'.keytbl = ws.reverse ++ tableForms key.keytbl := by
  induction lines generalizing key with
  | nil =>
      cases ran
      exact ⟨[], rfl, rfl⟩
  | cons line lines ih =>
      rw [List.foldlM_cons, bind_eq_ok] at ran
      obtain ⟨middle, first, rest⟩ := ran
      obtain ⟨w, p, here, _, inserted⟩ := loadWord_inserts first
      obtain ⟨ws, later, entered⟩ := ih rest
      refine ⟨w :: ws, ?_, ?_⟩
      · rw [List.mapM_cons, here, later]
        rfl
      · rw [entered, inserted, tableForms_insert (field_after_chain _ p), List.reverse_cons, List.append_assoc,
          List.singleton_append]

theorem loadWords_wellFormed {headersbynumtbl : List Str} {numstbl : Table Nat} {lines ws : List Str} {key key' : Key}
    (ran : lines.foldlM (loadWord headersbynumtbl numstbl) key = .ok key') (listed : lines.mapM keyword = .ok ws)
    (wf : WellFormed key.keytbl) (distinct : ws.Nodup) (words : ∀ w ∈ ws, DigitFree w)
    (fresh : ∀ w ∈ ws, ¬ Stored key.keytbl w) : WellFormed key'.keytbl := by
  induction lines generalizing key ws with
  | nil =>
      cases ran
      exact wf
  | cons line lines ih =>
      rw [List.foldlM_cons, bind_eq_ok] at ran
      obtain ⟨middle, first, rest⟩ := ran
      obtain ⟨w, p, here, same, inserted⟩ := loadWord_inserts first
      rw [List.mapM_cons, here, run_bind_ok, bind_eq_ok] at listed
      obtain ⟨later, listed, equal⟩ := listed
      cases equal
      obtain ⟨absent, distinct⟩ := List.nodup_cons.mp distinct
      have new : w ∉ chain key.keytbl p := fun member => fresh w (by simp) (stored_of_chain member)
      have learned : middle.keytbl = learnForm key.keytbl w p := by rw [inserted, learnForm, if_neg new]
      have word := words w (by simp)
      apply ih rest listed (learned ▸ wf.learnForm same word) distinct fun v member => words v (by simp [member])
      intro v member stored
      rw [learned, wf.stored_learnForm same (plain_digitFree same word)] at stored
      cases stored with
      | inl old => exact fresh v (by simp [member]) old
      | inr equal => exact absent (equal ▸ member)

theorem WellFormed.tableForms_nodup {keytbl : Table Str} (wf : WellFormed keytbl) : (tableForms keytbl).Nodup := by
  apply List.Nodup.map_on _ keytbl.nodupKeys.nodup
  intro e member e' member' same
  have keys := wf.distinct e.1 e'.1 e.2 (AList.mem_lookup_iff.mpr member) (same ▸ AList.mem_lookup_iff.mpr member')
  exact Sigma.ext keys (heq_of_eq same)

/-- The words of every file that is loaded are the forms of the key, and the key is well formed just when no word is
listed twice or has a digit. -/
theorem loadkey_wellFormed (file : Str) (key : Key) (loaded : loadkey file = .ok key) :
    ∃ ws, keywords file = .ok ws ∧ (∀ w, Stored key.keytbl w ↔ w ∈ ws) ∧
      (WellFormed key.keytbl ↔ ws.Nodup ∧ ∀ w ∈ ws, DigitFree w) := by
  have words : ∃ lines headersbynumtbl numstbl last, keylines file = .ok lines ∧
      lines.foldlM (loadWord headersbynumtbl numstbl) Key.empty = .ok last ∧ key.keytbl = last.keytbl := by
    obtain ⟨keystrall, read, loaded⟩ := bind_eq_ok.mp loaded
    obtain ⟨sources, divided, loaded⟩ := bind_eq_ok.mp loaded
    obtain ⟨rest, behind, loaded⟩ := bind_eq_ok.mp loaded
    dsimp only at loaded
    rw [keylines, read, run_bind_ok, divided, run_bind_ok, behind, run_bind_ok]
    dsimp only
    split at loaded
    case isTrue empty =>
        cases loaded
        exact ⟨[], [], ∅, Key.empty, by rw [if_pos empty]; rfl, rfl, rfl⟩
    case isFalse filled =>
        rw [if_neg filled]
        split at loaded
        all_goals
          obtain ⟨⟨listed, numstbl⟩, _, loaded⟩ := bind_eq_ok.mp loaded
          obtain ⟨last, ran, loaded⟩ := bind_eq_ok.mp loaded
          cases loaded
          exact ⟨_, listed, numstbl, last, rfl, ran, rfl⟩
  obtain ⟨lines, headersbynumtbl, numstbl, last, read, ran, same⟩ := words
  obtain ⟨ws, listed, entered⟩ := loadWords_tableForms ran
  have none : tableForms Key.empty.keytbl = [] := rfl
  rw [none, List.append_nil] at entered
  have members (w : Str) : Stored key.keytbl w ↔ w ∈ ws := by
    rw [← mem_tableForms, same, entered, List.mem_reverse]
  refine ⟨ws, by rw [keywords, read, run_bind_ok, listed], members, fun wf => ⟨?_, fun w member => ?_⟩, fun proper => ?_⟩
  · have distinct := wf.tableForms_nodup
    rwa [same, entered, List.nodup_reverse] at distinct
  · obtain ⟨p, demacronised, word⟩ := wf.plain_of_stored ((members w).mpr member)
    exact (digitFree_plain demacronised).mp word
  · rw [same]
    exact loadWords_wellFormed ran listed wellFormed_empty proper.1 proper.2 fun w _ => not_stored_empty w

def twiceFile : Str := lit "hōc\nest\nhōc\n"

theorem loadkey_wellFormed_twice :
    ∃ key, loadkey twiceFile = .ok key ∧ Stored key.keytbl (lit "est") ∧ ¬ WellFormed key.keytbl := by
  have returns : (loadkey twiceFile).toBool = true := by decide
  have listed : keywords twiceFile = .ok [lit "hōc", lit "est", lit "hōc"] := by decide
  obtain ⟨key, loaded⟩ := exists_ok returns
  obtain ⟨ws, words, forms, wellFormed⟩ := loadkey_wellFormed twiceFile key loaded
  rw [listed, Except.ok.injEq] at words
  subst words
  exact ⟨key, loaded, (forms _).mpr (by decide), fun wf => absurd (wellFormed.mp wf).1 (by decide)⟩

end Maccer
