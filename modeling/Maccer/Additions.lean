import Maccer.KeyRoundTrip

/-! Words added to `key.txt` by hand. -/

namespace Maccer

open Lua

structure Addable (w : Str) : Prop where
  filled : w ≠ []
  letters : ∀ b ∈ w, isLetter b = true
  plain : ∃ p, plain w = .ok p

theorem Addable.clean {w : Str} (addable : Addable w) : CleanLine w := by
  have absent (b : UInt8) (other : isLetter b = false) : b ∉ w := fun member => by
    rw [addable.letters b member] at other
    cases other
  have tab := absent 9 (by decide)
  refine ⟨addable.filled, ⟨absent 10 (by decide), without_of_not_mem tab, fun first => tab (List.mem_of_head? first),
    fun last => tab (List.mem_of_getLast? last), absent 32 (by decide)⟩, without_of_not_mem (absent 47 (by decide)),
    without_of_not_mem (absent 47 (by decide)), fun inside => ?_⟩
  exact absent 95 (by decide) (inside.subset (by decide))

/-- A word alone on its line takes the next slot, whether it is in the key already or not. -/
theorem loadWord_bare (headersbynumtbl : List Str) (numstbl : Table Nat) (loaded : Key) {w p : Str}
    (addable : Addable w) (same : plain w = .ok p) :
    loadWord headersbynumtbl numstbl loaded w = .ok { loaded with
      keytbl := loaded.keytbl.insert (slot p (chain loaded.keytbl p).length) w
      freqtbl := loaded.freqtbl.insert w 0
      headerstbl := loaded.headerstbl.insert w ∅ } := by
  have noTab : 9 ∉ w := fun member => absurd (addable.letters 9 member) (by decide)
  have bare : w.contains 9 = false := by simpa using noTab
  have word := lmatch_word w [] addable.filled noTab (.inl rfl)
  rw [List.append_nil] at word
  simp only [loadWord, word, loadColumns, bare, same, run_bind_ok, run_pure, getnextkey_eq]
  rfl

theorem loadWord_nil (headersbynumtbl : List Str) (numstbl : Table Nat) (loaded : Key) :
    loadWord headersbynumtbl numstbl loaded [] = .error .raised := by
  have empty : lmatch [] (lit "[^\t]+") = .ok none := by decide
  rw [loadWord, empty]
  rfl

def lengthened (row : Str → List Str) (added : List Str) (p : Str) : List Str :=
  row p ++ added.filter fun w => decide (plain w = .ok p)

theorem lengthened_cons (row : Str → List Str) {w p : Str} (same : plain w = .ok p) (added : List Str) :
    lengthened (Function.update row p (row p ++ [w])) added = lengthened row (w :: added) := by
  funext q
  rw [lengthened, lengthened, List.filter_cons]
  by_cases here : q = p
  · subst here
    rw [Function.update_self, if_pos (decide_eq_true same), List.append_assoc]
    rfl
  · have apart : plain w ≠ .ok q := fun other => here (Except.ok.inj (other.symm.trans same))
    rw [Function.update_of_ne here, if_neg (by simpa using apart)]

theorem loadAdded_run (headersbynumtbl : List Str) (numstbl : Table Nat) (added : List Str)
    (addable : ∀ w ∈ added, Addable w) (loaded : Key) {row : Str → List Str} (rows : Rows loaded.keytbl row) :
    ∃ loaded', added.foldlM (loadWord headersbynumtbl numstbl) loaded = .ok loaded' ∧
      Rows loaded'.keytbl (lengthened row added) ∧
      (∀ w ∈ added, loaded'.freq w = 0 ∧ ∀ h, h ∉ loaded'.headers w) ∧
      ∀ w ∉ added, loaded'.freq w = loaded.freq w ∧ loaded'.headers w = loaded.headers w := by
  induction added generalizing loaded row with
  | nil =>
      have same : lengthened row [] = row := by
        funext p
        simp [lengthened]
      exact ⟨loaded, rfl, by rwa [same], by simp, fun _ _ => ⟨rfl, rfl⟩⟩
  | cons w added ih =>
      have here := addable w (by simp)
      obtain ⟨p, same⟩ := here.plain
      have word := plain_digitFree same (digitFree_of_letters here.letters)
      have ran := loadWord_bare headersbynumtbl numstbl loaded here same
      rw [rows.chain p word] at ran
      obtain ⟨loaded', ran', rows', uncounted, others⟩ := ih (fun v member => addable v (by simp [member]))
        { loaded with
          keytbl := loaded.keytbl.insert (slot p (row p).length) w
          freqtbl := loaded.freqtbl.insert w 0
          headerstbl := loaded.headerstbl.insert w ∅ } (rows.append p w word)
      refine ⟨loaded', ?_, lengthened_cons row same added ▸ rows', fun v member => ?_, fun v outside => ?_⟩
      · rw [List.foldlM_cons, ran]
        exact ran'
      · by_cases later : v ∈ added
        · exact uncounted v later
        · obtain rfl : v = w := (List.mem_cons.mp member).resolve_right later
          obtain ⟨freq, headers⟩ := others v later
          rw [freq, headers]
          simp [Key.freq, Key.headers]
      · simp only [List.mem_cons, not_or] at outside
        obtain ⟨freq, headers⟩ := others v outside.2
        rw [freq, headers]
        simp [Key.freq, Key.headers, field_insert_ne _ _ _ _ outside.1]

/-! Which forms are stored once. -/

def StoredOnce (keytbl : Table Str) (w : Str) : Prop :=
  ∃ k, field keytbl k = some w ∧ ∀ other, field keytbl other = some w → other = k

section

variable {t : Table Str} {row : Str → List Str}

theorem nodup_of_once (rows : Rows t row) {p : Str} (word : DigitFree p)
    (once : ∀ w ∈ row p, StoredOnce t w) : (row p).Nodup := by
  rw [List.nodup_iff_getElem?_ne_getElem?]
  intro i j less bound same
  have first : field t (slot p i) = some (row p)[j] := by
    rw [rows.held p i word, same, List.getElem?_eq_getElem bound]
  have second : field t (slot p j) = some (row p)[j] := by
    rw [rows.held p j word, List.getElem?_eq_getElem bound]
  obtain ⟨k, _, only⟩ := once _ (List.getElem_mem bound)
  have equal := slot_number_injective p ((only _ first).trans (only _ second).symm)
  omega

theorem once_of_nodup (rows : Rows t row) (plains : ∀ p, ∀ w ∈ row p, plain w = .ok p) {w p : Str}
    (word : DigitFree p) (nodup : (row p).Nodup) (member : w ∈ row p) : StoredOnce t w := by
  obtain ⟨n, place⟩ := List.mem_iff_getElem?.mp member
  refine ⟨slot p n, by rw [rows.held p n word, place], fun k found => ?_⟩
  obtain ⟨q, m, other, rfl⟩ := rows.numbered k (mem_of_field found)
  rw [rows.held q m other] at found
  have here : q = p := Except.ok.inj ((plains q w (List.mem_of_getElem? found)).symm.trans (plains p w member))
  subst here
  have bound := (List.getElem?_eq_some_iff.mp place).1
  rw [(List.getElem?_inj bound nodup).mp (place.trans found.symm)]

end

theorem lengthened_nodup_iff (d : Dictionary) {added : List Str} (addable : ∀ w ∈ added, Addable w) :
    (∀ p, (lengthened d.forms added p).Nodup) ↔ added.Nodup ∧ ∀ w ∈ added, ∀ p, w ∉ d.forms p := by
  constructor
  · intro nodup
    constructor
    · rw [List.nodup_iff_count_le_one]
      intro w
      by_cases member : w ∈ added
      · obtain ⟨p, same⟩ := (addable w member).plain
        have once := List.nodup_iff_count_le_one.mp (List.nodup_append.mp (nodup p)).2.1 w
        rwa [List.count_filter (by simpa using same)] at once
      · rw [List.count_eq_zero_of_not_mem member]
        exact Nat.zero_le 1
    · intro w member p held
      have same := d.demacronises p w held
      exact (List.nodup_append.mp (nodup p)).2.2 w held w (List.mem_filter.mpr ⟨member, by simpa using same⟩) rfl
  · rintro ⟨distinct, apart⟩ p
    refine List.nodup_append.mpr ⟨d.distinct p, distinct.filter _, ?_⟩
    rintro w held w' member rfl
    exact apart w (List.mem_of_mem_filter member) p held

structure Undamaged (key loaded : Key) (added : List Str) : Prop where
  once : ∀ w, Stored key.keytbl w ∨ w ∈ added → StoredOnce loaded.keytbl w
  kept : ∀ w, Stored key.keytbl w → key.freq w ≤ loaded.freq w ∧ ∀ h ∈ key.headers w, h ∈ loaded.headers w

theorem undamaged_iff {hash : HashOrder} {key : Key} (writable : Writable key) {file : Str} {count : Nat}
    (saved : savekey hash key = .ok (file, count)) {added : List Str} (addable : ∀ w ∈ added, Addable w) :
    (∃ loaded, loadkey (file ++ unlines added) = .ok loaded ∧ Undamaged key loaded added) ↔
      ((∃ w, Stored key.keytbl w) ∨ added ≠ []) ∧ added.Nodup ∧ ∀ w ∈ added, ¬ Stored key.keytbl w := by
  obtain ⟨ws, lines, distinct, members, written, saved'⟩ := savekey_lines hash writable
  rw [saved] at saved'
  cases saved'
  have joined : savedFile key.headersbynumtbl lines ++ unlines added =
      savedFile key.headersbynumtbl (lines ++ added) := by
    simp only [savedFile, unlines_append, List.append_assoc]
  have clean : ∀ line ∈ lines ++ added, CleanLine line := by
    intro line member
    rcases List.mem_append.mp member with word | new
    · exact lines_clean writable written (fun w member => (members w).mp member) line word
    · exact (addable line new).clean
  obtain ⟨numstbl, numbered, load⟩ := loadkey_savedFile writable clean
  have some : lines ++ added ≠ [] ↔ (∃ w, Stored key.keytbl w) ∨ added ≠ [] := by
    have empty : lines = [] ↔ ¬ ∃ w, Stored key.keytbl w := by
      rw [← List.length_eq_zero_iff, ← written.length_eq, List.length_eq_zero_iff, List.eq_nil_iff_forall_not_mem]
      simp only [members, not_exists]
    rw [ne_eq, List.append_eq_nil_iff, empty, not_and_or, not_not]
  rw [joined, load, ← some]
  by_cases filled : lines ++ added = []
  · have raises : ¬ ∃ loaded, (do
        let loaded ← (if lines ++ added = [] then [[]] else lines ++ added).foldlM
          (loadWord key.headersbynumtbl numstbl) Key.empty
        return { loaded with headersbynumtbl := key.headersbynumtbl }) = .ok loaded ∧ Undamaged key loaded added := by
      rintro ⟨loaded, ran, _⟩
      rw [if_pos filled, List.foldlM_cons, loadWord_nil] at ran
      cases ran
    exact iff_of_false raises fun h => h.1 filled
  · obtain ⟨base, ran, wf, forms, counted, _⟩ := loadWords_run writable numstbl numbered ws lines written
      (fun w member => (members w).mp member) distinct Key.empty wellFormed_empty fun w _ => not_stored_empty w
    have stored (w : Str) : Stored base.keytbl w ↔ Stored key.keytbl w := by
      rw [forms, members]
      exact or_iff_right (not_stored_empty w)
    obtain ⟨loaded, ran', rows, uncounted, others⟩ := loadAdded_run key.headersbynumtbl numstbl added addable base
      wf.represents
    have plains (p w : Str) (member : w ∈ lengthened wf.dictionary.forms added p) : plain w = .ok p := by
      rcases List.mem_append.mp member with old | new
      · exact wf.dictionary.demacronises p w old
      · exact of_decide_eq_true (List.mem_filter.mp new).2
    have known (w p : Str) (same : plain w = .ok p) : Stored key.keytbl w ∨ w ∈ added ↔
        w ∈ lengthened wf.dictionary.forms added p := by
      rw [lengthened, List.mem_append, List.mem_filter, ← stored, wf.represents.stored_plain same]
      simp [same]
    have word (w p : Str) (same : plain w = .ok p) (known : Stored key.keytbl w ∨ w ∈ added) : DigitFree p := by
      apply plain_digitFree same
      apply digitFree_of_letters
      exact known.elim (fun old => (writable.letters w old).2) fun new => (addable w new).letters
    have proper (w : Str) (known : Stored key.keytbl w ∨ w ∈ added) : ∃ p, plain w = .ok p := by
      rcases known with old | new
      · obtain ⟨p, same, _⟩ := writable.wellFormed.plain_of_stored old
        exact ⟨p, same⟩
      · exact (addable w new).plain
    have apart : (∀ w ∈ added, ∀ p, w ∉ wf.dictionary.forms p) ↔ ∀ w ∈ added, ¬ Stored key.keytbl w := by
      refine forall₂_congr fun w _ => ?_
      rw [← stored, wf.represents.stored_iff, not_exists]
    have result : (do
        let loaded ← (if lines ++ added = [] then [[]] else lines ++ added).foldlM
          (loadWord key.headersbynumtbl numstbl) Key.empty
        return { loaded with headersbynumtbl := key.headersbynumtbl }) =
        .ok { loaded with headersbynumtbl := key.headersbynumtbl } := by
      rw [if_neg filled, List.foldlM_append, ran, run_bind_ok, ran']
      rfl
    rw [result, ← apart, ← lengthened_nodup_iff wf.dictionary addable]
    constructor
    · rintro ⟨_, same, once, _⟩
      cases same
      refine ⟨filled, fun p => ?_⟩
      cases empty : lengthened wf.dictionary.forms added p with
      | nil => exact List.nodup_nil
      | cons w rest =>
          rw [← empty]
          have member : w ∈ lengthened wf.dictionary.forms added p := by simp [empty]
          have plainWord := word w p (plains p w member) ((known w p (plains p w member)).mpr member)
          exact nodup_of_once rows plainWord fun v inside => once v ((known v p (plains p v inside)).mpr inside)
    · rintro ⟨_, nodup⟩
      refine ⟨_, rfl, fun w present => ?_, fun w old => ?_⟩
      · obtain ⟨p, same⟩ := proper w present
        exact once_of_nodup rows plains (word w p same present) (nodup p) ((known w p same).mp present)
      · have outside : w ∉ added := fun member =>
          apart.mp ((lengthened_nodup_iff wf.dictionary addable).mp nodup).2 w member old
        obtain ⟨freq, headers⟩ := others w outside
        obtain ⟨freq', headers'⟩ := counted w ((members w).mpr old)
        refine ⟨?_, fun h member => ?_⟩
        · exact (freq.trans freq').ge
        · have held : h ∈ loaded.headers w := headers ▸ (headers' h).mpr member
          exact held

/-- The file of a saved key with words added at its end, one on a line, loads without damage just
when the words are different ones that the key does not have, and there is a form at all. -/
theorem loadkey_added_iff (hash : HashOrder) (key : Key) (writable : Writable key) (added : List Str)
    (addable : ∀ w ∈ added, Addable w) :
    ∃ file count, savekey hash key = .ok (file, count) ∧
      ((∃ loaded, loadkey (file ++ unlines added) = .ok loaded ∧ Undamaged key loaded added) ↔
        ((∃ w, Stored key.keytbl w) ∨ added ≠ []) ∧ added.Nodup ∧ ∀ w ∈ added, ¬ Stored key.keytbl w) := by
  obtain ⟨ws, lines, _, _, _, saved⟩ := savekey_lines hash writable
  exact ⟨_, _, saved, undamaged_iff writable saved addable⟩

theorem addable_amo : ∀ w ∈ [lit "amō"], Addable w := by
  intro w member
  rw [List.mem_singleton.mp member]
  exact ⟨by decide, by decide +kernel, ⟨lit "amo", by decide +kernel⟩⟩

theorem loadkey_added_amo : ∃ file count loaded, savekey .stored hocKey = .ok (file, count) ∧
    loadkey (file ++ unlines [lit "amō"]) = .ok loaded ∧ Undamaged hocKey loaded [lit "amō"] := by
  obtain ⟨file, count, saved, undamaged⟩ :=
    loadkey_added_iff .stored hocKey hocKey_savable.writable [lit "amō"] addable_amo
  have new : ∀ w ∈ [lit "amō"], ¬ Stored hocKey.keytbl w := by decide
  obtain ⟨loaded, ran, kept⟩ := undamaged.mpr ⟨.inr (List.cons_ne_nil _ _), List.nodup_singleton _, new⟩
  exact ⟨file, count, loaded, saved, ran, kept⟩

/-- A form that the key has, added once more, is stored twice and loses its frequency. -/
theorem loadkey_added_hoc : ¬ ∀ (hash : HashOrder) (key : Key), Writable key → (∃ w, Stored key.keytbl w) →
    ∀ added : List Str, (∀ w ∈ added, Addable w) → ∃ file count loaded, savekey hash key = .ok (file, count) ∧
      loadkey (file ++ unlines added) = .ok loaded ∧ Undamaged key loaded added := by
  intro claim
  have stored : Stored hocKey.keytbl (lit "hōc") := ⟨lit "hoc", by decide⟩
  have addable : ∀ w ∈ [lit "hōc"], Addable w := by
    intro w member
    rw [List.mem_singleton.mp member]
    exact ⟨by decide, by decide +kernel, ⟨lit "hoc", by decide +kernel⟩⟩
  obtain ⟨file, count, loaded, saved, ran, kept⟩ :=
    claim .stored hocKey hocKey_savable.writable ⟨_, stored⟩ [lit "hōc"] addable
  have apart := ((undamaged_iff hocKey_savable.writable saved addable).mp ⟨loaded, ran, kept⟩).2.2
  exact apart _ (List.mem_singleton_self _) stored

end Maccer
