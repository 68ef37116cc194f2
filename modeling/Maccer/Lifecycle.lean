import Maccer.Moving
import Maccer.KeyRoundTrip
import Maccer.Transfers

/-! The life of a word key: sources are learned, words replaced, and the key is saved and loaded in between. -/

namespace Maccer

open Lua

/-! What the tables hold beside the stored forms. -/

def Blank (key : Key) : Prop := ∀ w, ¬ Stored key.keytbl w → key.freq w = 0 ∧ ∀ h, h ∉ key.headers w

theorem ledger_frequency {key : Key} {w : Str} (stored : Stored key.keytbl w) : key.ledger.frequency w = key.freq w :=
  if_pos stored

theorem mem_ledger_headers {key : Key} {w h : Str} (stored : Stored key.keytbl w) :
    h ∈ key.ledger.headers w ↔ h ∈ key.headers w := by
  simp only [Key.ledger, Set.mem_ofPred_eq, stored, true_and, Key.headers]
  cases field key.headerstbl w with
  | none => simp
  | some headers => simp

theorem Blank.frequency {key : Key} (blank : Blank key) (w : Str) : key.ledger.frequency w = key.freq w := by
  by_cases stored : Stored key.keytbl w
  · exact ledger_frequency stored
  · exact (if_neg stored).trans (blank w stored).1.symm

theorem Blank.mem_headers {key : Key} (blank : Blank key) (w h : Str) :
    h ∈ key.ledger.headers w ↔ h ∈ key.headers w := by
  by_cases stored : Stored key.keytbl w
  · exact mem_ledger_headers stored
  · exact iff_of_false (fun member => stored member.1) ((blank w stored).2 h)

/-- A key as the scripts keep it: every stored form is a word and counted, nothing is known about other forms, those
met have headers, and the headers are registered and can be saved. -/
structure Sound (key : Key) : Prop where
  ready : Ready key
  letters : ∀ w, Stored key.keytbl w → w ≠ [] ∧ ∀ b ∈ w, isLetter b = true
  blank : Blank key
  registered : key.headersbynumtbl ≠ []
  distinct : key.headersbynumtbl.Nodup
  clean : ∀ h ∈ key.headersbynumtbl, CleanHeader h
  sourced : key.ledger.Sourced {h | h ∈ key.headersbynumtbl}

theorem Sound.writable {key : Key} (sound : Sound key) : Writable key where
  wellFormed := sound.ready.wellFormed
  letters := sound.letters
  registered := sound.registered
  distinct := sound.distinct
  clean := sound.clean
  counted w stored positive := by
    rw [← ledger_frequency stored] at positive
    obtain ⟨h, member⟩ := (sound.sourced.met w).mp positive
    exact ⟨⟨h, (mem_ledger_headers stored).mp member⟩, fun h' member' =>
      sound.sourced.within w ((mem_ledger_headers stored).mpr member')⟩
  uncounted w stored zero h member := by
    have positive := (sound.sourced.met w).mpr ⟨h, (mem_ledger_headers stored).mpr member⟩
    rw [ledger_frequency stored, zero] at positive
    exact lt_irrefl 0 positive

/-! Learning. -/

theorem exmacronizeWords_ledger {hash : HashOrder} {header : Str} {tokens : List Str} {key key' : Key}
    {learned learned' : Learned} (ready : Ready key) (words : ∀ w ∈ tokens, DigitFree w)
    (ran : tokens.foldlM (exmacronizeWord hash header) (key, learned) = .ok (key', learned')) :
    Ready key' ∧ key'.ledger = key.ledger.recordAll (entries header tokens) ∧
      key'.headersbynumtbl = key.headersbynumtbl ∧
      ∀ v, v ∉ tokens → field key'.freqtbl v = field key.freqtbl v ∧
        field key'.headerstbl v = field key.headerstbl v := by
  induction tokens generalizing key learned with
  | nil =>
      cases ran
      exact ⟨ready, rfl, rfl, fun v _ => ⟨rfl, rfl⟩⟩
  | cons w tokens ih =>
      rw [List.foldlM_cons] at ran
      obtain ⟨⟨middle, learned₁⟩, first, rest⟩ := bind_eq_ok.mp ran
      obtain ⟨p, same, _, headers, _⟩ := exmacronizeWord_cases hash header w _ _ _ _ first
      obtain ⟨middle', learned₂, first', ready', entered, kept⟩ :=
        exmacronizeWord_step hash header w key learned ready (words w (by simp)) ⟨p, same⟩
      rw [first] at first'
      cases first'
      obtain ⟨last, recorded, headers', others⟩ := ih ready' (fun v member => words v (by simp [member])) rest
      refine ⟨last, ?_, headers'.trans headers, fun v absent => ?_⟩
      · rw [recorded, entered]
        rfl
      · simp only [List.mem_cons, not_or] at absent
        have here := kept v absent.1
        have later := others v absent.2
        exact ⟨later.1.trans here.1, later.2.trans here.2⟩

theorem Blank.of_learned {key key' : Key} {met : List (Str × Str)} (blank : Blank key)
    (entered : key'.ledger = key.ledger.recordAll met)
    (others : ∀ v, v ∉ met.map Prod.snd → field key'.freqtbl v = field key.freqtbl v ∧
      field key'.headerstbl v = field key.headerstbl v) : Blank key' := by
  intro w unknown
  have forms : ¬ (w ∈ key.ledger.forms ∨ w ∈ met.map Prod.snd) := by
    rw [← Ledger.mem_forms_recordAll, ← entered]
    exact unknown
  have same := others w fun member => forms (.inr member)
  rw [Key.freq, Key.headers, same.1, same.2]
  exact blank w fun stored => forms (.inl stored)

section

variable (t : Tables) (fuel : Nat) (repairOrth : Bool) (existingheaders : List Str)

def sourceEntries (sources : List (Str × Str)) : List (Str × Str) :=
  sources.flatMap fun source => entries source.1 (formattedWords t fuel repairOrth source.2)

theorem formattedWords_letters (text : Str) :
    ∀ w ∈ formattedWords t fuel repairOrth text, w ≠ [] ∧ ∀ b ∈ w, isLetter b = true := by
  intro w member
  rw [formattedWords] at member
  split at member
  · exact ⟨words_ne_nil member, words_letters member⟩
  · cases member

theorem sourceEntries_letters (sources : List (Str × Str)) :
    ∀ w ∈ (sourceEntries t fuel repairOrth sources).map Prod.snd, w ≠ [] ∧ ∀ b ∈ w, isLetter b = true := by
  intro w member
  obtain ⟨entry, inside, rfl⟩ := List.mem_map.mp member
  obtain ⟨source, _, among⟩ := List.mem_flatMap.mp inside
  obtain ⟨v, token, rfl⟩ := List.mem_map.mp among
  exact formattedWords_letters t fuel repairOrth source.2 v token

theorem sourceLoop_ledger (sources : List (Str × Str)) {key key' : Key} (ready : Ready key)
    (ran : sourceLoop t fuel repairOrth existingheaders sources key = .ok key') :
    Ready key' ∧ key'.ledger = key.ledger.recordAll (sourceEntries t fuel repairOrth sources) ∧
      (∀ v, v ∉ (sourceEntries t fuel repairOrth sources).map Prod.snd →
        field key'.freqtbl v = field key.freqtbl v ∧ field key'.headerstbl v = field key.headerstbl v) ∧
      ∃ more, key'.headersbynumtbl = key.headersbynumtbl ++ more ∧ more.Sublist (sources.map Prod.fst) ∧
        ∀ h ∈ more, h ∉ existingheaders := by
  induction sources generalizing key with
  | nil =>
      cases ran
      exact ⟨ready, rfl, fun v _ => ⟨rfl, rfl⟩, [], by simp, .slnil, by simp⟩
  | cons source sources ih =>
      obtain ⟨header, text⟩ := source
      rw [sourceLoop, bind_eq_ok] at ran
      obtain ⟨formatted, format, ran⟩ := ran
      rw [bind_eq_ok] at ran
      obtain ⟨⟨middle, learned⟩, learns, rest⟩ := ran
      have tokens : formattedWords t fuel repairOrth text = words formatted.text := by rw [formattedWords, format]
      obtain ⟨ready', entered, headers, others⟩ := exmacronizeWords_ledger ready
        (fun w member => digitFree_of_letters (words_letters member)) learns
      dsimp only at rest
      have registered : ∃ front, (if learned.newcount > 0 ∧ header ∉ existingheaders then
          { middle with headersbynumtbl := middle.headersbynumtbl ++ [header] } else middle) =
          { middle with headersbynumtbl := key.headersbynumtbl ++ front } ∧ front.Sublist [header] ∧
          ∀ h ∈ front, h ∉ existingheaders := by
        split
        case isTrue new =>
          exact ⟨[header], by rw [headers], .refl _, fun h member => List.mem_singleton.mp member ▸ new.2⟩
        case isFalse => exact ⟨[], by rw [List.append_nil, ← headers], List.nil_sublist _, by simp⟩
      obtain ⟨front, same, among, outside⟩ := registered
      rw [same] at rest
      obtain ⟨last, recorded, others', more, grown, among', outside'⟩ :=
        @ih { middle with headersbynumtbl := key.headersbynumtbl ++ front } ⟨ready'.wellFormed, ready'.counted⟩ rest
      have split : sourceEntries t fuel repairOrth ((header, text) :: sources) =
          entries header (words formatted.text) ++ sourceEntries t fuel repairOrth sources := by
        rw [sourceEntries, List.flatMap_cons, tokens]
        rfl
      refine ⟨last, ?_, fun v absent => ?_, front ++ more, ?_, ?_, fun h member => ?_⟩
      · have entered' : Key.ledger { middle with headersbynumtbl := key.headersbynumtbl ++ front } = middle.ledger := rfl
        rw [recorded, entered', entered, split, Ledger.recordAll_append]
      · rw [split, List.map_append, List.mem_append, not_or] at absent
        have later := others' v absent.2
        have here := others v fun member => absent.1 (by simpa [entries] using member)
        exact ⟨later.1.trans here.1, later.2.trans here.2⟩
      · rw [grown, List.append_assoc]
      · exact among.append among'
      · exact (List.mem_append.mp member).elim (outside h) (outside' h)

end

theorem Sound.learnSources {t : Tables} {fuel : Nat} {repairOrth : Bool} {newsourcestbl : Table Str} {key key' : Key}
    (sound : Sound key) (clean : ∀ h ∈ newsourcestbl, CleanHeader h)
    (contributing : Contributing t fuel repairOrth key.headersbynumtbl (sortedpairs newsourcestbl) key.keytbl)
    (ran : learnSources t fuel repairOrth newsourcestbl key = .ok key') :
    Sound key' ∧ key'.ledger = key.ledger.recordAll (sourceEntries t fuel repairOrth (sortedpairs newsourcestbl)) := by
  obtain ⟨ready, entered, others, more, grown, among, outside⟩ :=
    sourceLoop_ledger t fuel repairOrth key.headersbynumtbl (sortedpairs newsourcestbl) sound.ready ran
  have listed : Registered key := by
    intro w stored
    obtain ⟨_, headers, _, found⟩ := sound.ready.counted w stored
    have same : key.headers w = headers := by rw [Key.headers, found, Option.getD_some]
    refine ⟨headers, found, fun h member => sound.sourced.within w ?_⟩
    exact (mem_ledger_headers stored).mpr (same ▸ member)
  have registers := sourceLoop_registers t fuel repairOrth _ _ _ _ ran (fun _ listed => listed) listed contributing
  have forms (w : Str) : Stored key'.keytbl w ↔ Stored key.keytbl w ∨
      w ∈ (sourceEntries t fuel repairOrth (sortedpairs newsourcestbl)).map Prod.snd := by
    have members := key.ledger.mem_forms_recordAll (sourceEntries t fuel repairOrth (sortedpairs newsourcestbl)) w
    rwa [← entered] at members
  have headers : ∀ entry ∈ sourceEntries t fuel repairOrth (sortedpairs newsourcestbl),
      entry.1 ∈ key'.headersbynumtbl := by
    intro entry member
    have stored := (forms entry.2).mpr (.inr (List.mem_map_of_mem member))
    obtain ⟨headers, found, within⟩ := registers entry.2 stored
    have carried : entry.1 ∈ key'.ledger.headers entry.2 := by
      rw [entered]
      exact (Ledger.mem_headers_recordAll _ _ _ _).mpr (.inr member)
    have held := (mem_ledger_headers stored).mp carried
    rw [Key.headers, found, Option.getD_some] at held
    exact within entry.1 held
  refine ⟨⟨ready, fun w stored => ?_, sound.blank.of_learned entered others, ?_, ?_, fun h member => ?_, ?_⟩, entered⟩
  · cases (forms w).mp stored with
    | inl old => exact sound.letters w old
    | inr new => exact sourceEntries_letters t fuel repairOrth _ w new
  · rw [grown]
    exact List.append_ne_nil_of_left_ne_nil sound.registered _
  · rw [grown, List.nodup_append]
    refine ⟨sound.distinct, among.nodup (pairs_nodup _ _), fun h old h' new same => ?_⟩
    exact outside h' new (same ▸ old)
  · rw [grown] at member
    cases List.mem_append.mp member with
    | inl old => exact sound.clean h old
    | inr new => exact clean h ((pairs_keys _ _ _).mp (among.subset new))
  · rw [entered]
    apply Ledger.Sourced.recordAll _ _ headers
    apply sound.sourced.mono
    intro h old
    rw [Set.mem_ofPred_eq, grown]
    exact List.mem_append_left _ old

/-! Replacing. -/

theorem replacewordInKey_stored {key key' : Key} (ready : Ready key) (blank : Blank key) {orig repl : Str}
    (apart : orig ≠ repl) (stored : Stored key.keytbl orig) (ran : replacewordInKey key orig repl = .ok key') :
    key'.ledger = key.ledger.transfer orig repl ∧ Counted key' ∧ Blank key' ∧
      (∀ w, Stored key'.keytbl w ↔ Stored key.keytbl w ∧ w ≠ orig ∨ w = repl) ∧
      key'.headersbynumtbl = key.headersbynumtbl := by
  obtain ⟨p, i, held⟩ := ready.wellFormed.holds stored
  obtain ⟨freq, headers, counted, sourced⟩ := ready.counted orig stored
  have member := held.member
  have present : field (parallels key.keytbl p) orig ≠ none := by
    rw [Ne, field_parallels_none]
    exact fun absent => absent member
  cases replPlain : plain repl with
  | error fault =>
      rw [replacewordInKey, held.same, run_bind_ok, replPlain] at ran
      cases ran
  | ok q =>
      have moves := moveCounts_moves { key with keytbl := replaced key.keytbl orig repl p q } orig repl apart freq
        headers counted sourced
      simp only [replacewordInKey, held.same, replPlain, run_bind_ok, getpars_eq, if_neg (List.ne_nil_of_mem member),
        if_neg present] at ran
      have changed := Except.ok.inj (ran.symm.trans moves)
      have forms (w : Str) : Stored key'.keytbl w ↔ Stored key.keytbl w ∧ w ≠ orig ∨ w = repl := by
        rw [changed]
        exact stored_replaced held apart w
      have gone : field key'.freqtbl orig = none ∧ field key'.headerstbl orig = none := by
        rw [changed]
        exact ⟨field_assign _ _ _, field_assign _ _ _⟩
      have here : field key'.freqtbl repl = some (key.freq repl + freq) ∧
          field key'.headerstbl repl = some (merge (key.headers repl) headers) := by
        rw [changed]
        exact ⟨(field_assign_ne _ _ _ _ apart.symm).trans (field_insert _ _ _),
          (field_assign_ne _ _ _ _ apart.symm).trans (field_insert _ _ _)⟩
      have others (w : Str) (left : w ≠ orig) (right : w ≠ repl) :
          field key'.freqtbl w = field key.freqtbl w ∧ field key'.headerstbl w = field key.headerstbl w := by
        rw [changed]
        exact ⟨(field_assign_ne _ _ _ _ left).trans (field_insert_ne _ _ _ _ right),
          (field_assign_ne _ _ _ _ left).trans (field_insert_ne _ _ _ _ right)⟩
      have blank' : Blank key' := by
        intro w unknown
        rw [forms, not_or] at unknown
        by_cases left : w = orig
        · rw [left, Key.freq, Key.headers, gone.1, gone.2]
          exact ⟨rfl, fun h => List.not_mem_nil⟩
        · rw [Key.freq, Key.headers, (others w left unknown.2).1, (others w left unknown.2).2]
          exact blank w fun known => unknown.1 ⟨known, left⟩
      have counted' : Counted key' := by
        intro w known
        cases (forms w).mp known with
        | inr same => exact ⟨_, _, same ▸ here.1, same ▸ here.2⟩
        | inl old =>
            by_cases right : w = repl
            · exact ⟨_, _, right ▸ here.1, right ▸ here.2⟩
            · rw [(others w old.2 right).1, (others w old.2 right).2]
              exact ready.counted w old.1
      refine ⟨?_, counted', blank', forms, by rw [changed]⟩
      have value : key.freq orig = freq ∧ key.headers orig = headers := by
        rw [Key.freq, Key.headers, counted, sourced]
        exact ⟨rfl, rfl⟩
      ext w h
      · exact (forms w).trans or_comm
      · rw [blank'.frequency]
        by_cases left : w = orig
        · rw [left, (key.ledger.transfer_orig orig repl).1, Key.freq, gone.1]
          rfl
        · by_cases right : w = repl
          · rw [right, (key.ledger.transfer_repl apart).1, blank.frequency, blank.frequency, Key.freq, here.1, value.1]
            rfl
          · rw [(key.ledger.transfer_other left right).1, blank.frequency, Key.freq, (others w left right).1]
            rfl
      · rw [blank'.mem_headers]
        by_cases left : w = orig
        · rw [left, (key.ledger.transfer_orig orig repl).2, Key.headers, gone.2]
          exact iff_of_false List.not_mem_nil (Set.notMem_empty h)
        · by_cases right : w = repl
          · rw [right, (key.ledger.transfer_repl apart).2, Set.mem_union, blank.mem_headers, blank.mem_headers,
              Key.headers,
              here.2, value.2]
            exact mem_merge _ _ h
          · rw [(key.ledger.transfer_other left right).2, blank.mem_headers, Key.headers, (others w left right).2]
            rfl

theorem ledger_congr {key key' : Key} (blank : Blank key) (blank' : Blank key')
    (forms : ∀ w, Stored key'.keytbl w ↔ Stored key.keytbl w)
    (same : ∀ w, Stored key.keytbl w → key'.freq w = key.freq w ∧ ∀ h, h ∈ key'.headers w ↔ h ∈ key.headers w) :
    key'.ledger = key.ledger := by
  ext w h
  · exact forms w
  · rw [blank.frequency, blank'.frequency]
    by_cases stored : Stored key.keytbl w
    · exact (same w stored).1
    · rw [(blank w stored).1, (blank' w fun known => stored ((forms w).mp known)).1]
  · rw [blank.mem_headers, blank'.mem_headers]
    by_cases stored : Stored key.keytbl w
    · exact (same w stored).2 h
    · exact iff_of_false ((blank' w fun known => stored ((forms w).mp known)).2 h) ((blank w stored).2 h)

/-- A key stays sound when a word is replaced, unless the new form shares the plain word and is not stored. -/
theorem Sound.replaceword {t : Tables} {fuel : Nat} {s s' : Session} (sound : Sound s.key) {orig repl : Str}
    (apart : orig ≠ repl) (word : repl ≠ [] ∧ ∀ b ∈ repl, isLetter b = true) (kept : Apart s.key.keytbl orig repl)
    (ran : replaceword t fuel s orig repl = .ok s') :
    Sound s'.key ∧ s'.key.ledger = if Stored s.key.keytbl orig then s.key.ledger.transfer orig repl else s.key.ledger := by
  have inKey := replaceword_key t fuel s s' orig repl ran
  by_cases stored : Stored s.key.keytbl orig
  · obtain ⟨ledger, counted, blank, forms, headers⟩ := replacewordInKey_stored sound.ready sound.blank apart stored inKey
    have origWord := digitFree_of_letters (sound.letters orig stored).2
    have wellFormed := replaceword_wellFormed t fuel s s' orig repl sound.ready.wellFormed origWord
      (digitFree_of_letters word.2) kept ran
    rw [if_pos stored]
    refine ⟨⟨⟨wellFormed, counted⟩, fun w known => ?_, blank, ?_, ?_, ?_, ?_⟩, ledger⟩
    · cases (forms w).mp known with
      | inl old => exact sound.letters w old.1
      | inr same => exact same ▸ word
    · exact headers ▸ sound.registered
    · exact headers ▸ sound.distinct
    · exact headers ▸ sound.clean
    · rw [headers, ledger]
      exact sound.sourced.transfer apart
  · have same : s'.key = s.key := by
      obtain ⟨p, origPlain, rest⟩ := bind_eq_ok.mp inKey
      obtain ⟨q, replPlain, rest⟩ := bind_eq_ok.mp rest
      have absent : orig ∉ chain s.key.keytbl p := fun member => stored (stored_of_chain member)
      have missing := (field_parallels_none s.key.keytbl p orig).mpr absent
      rw [getpars_eq] at rest
      by_cases empty : chain s.key.keytbl p = []
      · rw [if_pos empty] at rest
        exact (Except.ok.inj rest).symm
      · rw [if_neg empty] at rest
        dsimp only at rest
        rw [if_pos missing] at rest
        exact (Except.ok.inj rest).symm
    rw [if_neg stored, same]
    exact ⟨sound, rfl⟩

/-! Saving and loading. -/

theorem loadWords_counted {key : Key} (writable : Writable key) (numstbl : Table Nat)
    (numbered : ∀ i < key.headersbynumtbl.length, field numstbl (letterkey (i + 1)) = some (i + 1))
    {ws lines : List Str} (written : List.Forall₂ (Line key) ws lines) (stored : ∀ w ∈ ws, Stored key.keytbl w)
    (distinct : ws.Nodup) {loaded loaded' : Key} (ready : Ready loaded) (fresh : ∀ w ∈ ws, ¬ Stored loaded.keytbl w)
    (ran : lines.foldlM (loadWord key.headersbynumtbl numstbl) loaded = .ok loaded') : Counted loaded' := by
  induction written generalizing loaded with
  | nil =>
      cases ran
      exact ready.counted
  | @cons w line ws lines here written ih =>
      obtain ⟨absent, distinct⟩ := List.nodup_cons.mp distinct
      have known := stored w (by simp)
      obtain ⟨p, same, word⟩ := writable.wellFormed.plain_of_stored known
      obtain ⟨filled, letters⟩ := writable.letters w known
      have new : w ∉ chain loaded.keytbl p := fun member => fresh w (by simp) (stored_of_chain member)
      obtain ⟨headers, first, _⟩ := loadWord_run loaded numstbl letters filled same numbered
        (fun positive => (writable.counted w known positive).2) (writable.uncounted w known) new here
      have learned := ready.wellFormed.stored_learnForm same word
      rw [List.foldlM_cons, first, run_bind_ok] at ran
      apply ih (fun v member => stored v (by simp [member])) distinct _ _ ran
      · refine ⟨ready.wellFormed.learnForm same (digitFree_of_letters letters), fun v old => ?_⟩
        by_cases here : v = w
        · rw [here]
          exact ⟨_, _, field_insert _ _ _, field_insert _ _ _⟩
        · rw [field_insert_ne _ _ _ _ here, field_insert_ne _ _ _ _ here]
          exact ready.counted v (((learned v).mp old).resolve_right here)
      · intro v member now
        cases (learned v).mp now with
        | inl old => exact fresh v (by simp [member]) old
        | inr same => exact absent (same ▸ member)

theorem Sound.saved {key : Key} (sound : Sound key) (some : ∃ w, Stored key.keytbl w) (hash : HashOrder) :
    ∃ file count loaded, savekey hash key = .ok (file, count) ∧ loadkey file = .ok loaded ∧ Sound loaded ∧
      loaded.ledger = key.ledger ∧ loaded.headersbynumtbl = key.headersbynumtbl := by
  have writable := sound.writable
  obtain ⟨ws, lines, distinct, members, written, saved⟩ := savekey_lines hash writable
  have stored : ∀ w ∈ ws, Stored key.keytbl w := fun w member => (members w).mp member
  obtain ⟨numstbl, numbered, load⟩ := loadkey_savedFile writable (lines_clean writable written stored)
  have filled : lines ≠ [] := by
    obtain ⟨w, known⟩ := some
    have positive := List.length_pos_of_mem ((members w).mpr known)
    exact List.ne_nil_of_length_pos (written.length_eq ▸ positive)
  have fresh : ∀ w ∈ ws, ¬ Stored Key.empty.keytbl w := fun w _ => not_stored_empty w
  obtain ⟨key', ran, wf, forms, counts, others⟩ :=
    loadWords_run writable numstbl numbered ws lines written stored distinct
    Key.empty wellFormed_empty fresh
  have counted := loadWords_counted writable numstbl numbered written stored distinct
    ⟨wellFormed_empty, fun w known => absurd known (not_stored_empty w)⟩ fresh ran
  have forms' (w : Str) : Stored key'.keytbl w ↔ Stored key.keytbl w := by
    rw [forms, members]
    exact or_iff_right (not_stored_empty w)
  have blank : Blank { key' with headersbynumtbl := key.headersbynumtbl } := by
    intro w unknown
    have outside : w ∉ ws := fun member => unknown ((forms' w).mpr (stored w member))
    have none := others w outside
    exact ⟨none.1, fun h member => List.not_mem_nil (none.2 ▸ member : h ∈ Key.empty.headers w)⟩
  have ledger : Key.ledger { key' with headersbynumtbl := key.headersbynumtbl } = key.ledger :=
    ledger_congr sound.blank blank forms' fun w known => counts w ((members w).mpr known)
  refine ⟨_, _, { key' with headersbynumtbl := key.headersbynumtbl }, saved, ?_, ⟨⟨wf, counted⟩, fun w known =>
    sound.letters w ((forms' w).mp known), blank, sound.registered, sound.distinct, sound.clean, ?_⟩, ledger, rfl⟩
  · rw [load, if_neg filled, ran]
    rfl
  · rw [ledger]
    exact sound.sourced

theorem loadkey_none {hash : HashOrder} {key key' : Key} (sound : Sound key) {file : Str} {count : Nat}
    (saved : savekey hash key = .ok (file, count)) (loaded : loadkey file = .ok key') : ∃ w, Stored key.keytbl w := by
  by_contra none
  have writable := sound.writable
  obtain ⟨ws, lines, distinct, members, written, saved'⟩ := savekey_lines hash writable
  obtain ⟨numstbl, numbered, load⟩ := loadkey_savedFile writable
    (lines_clean writable written fun w member => (members w).mp member)
  have same : file = savedFile key.headersbynumtbl lines := congrArg Prod.fst (Except.ok.inj (saved.symm.trans saved'))
  have empty : lines = [] := by
    cases written with
    | nil => rfl
    | cons _ _ => exact absurd ⟨_, (members _).mp List.mem_cons_self⟩ none
  rw [same, load, if_pos empty] at loaded
  obtain ⟨_, ran, _⟩ := bind_eq_ok.mp loaded
  cases ran

theorem Sound.reload {hash : HashOrder} {key key' : Key} (sound : Sound key) {file : Str} {count : Nat}
    (saved : savekey hash key = .ok (file, count)) (loaded : loadkey file = .ok key') :
    Sound key' ∧ key'.ledger = key.ledger := by
  obtain ⟨file', count', key₁, saved', loaded', sound', ledger, _⟩ := sound.saved (loadkey_none sound saved loaded) hash
  rw [saved'] at saved
  cases saved
  rw [loaded'] at loaded
  cases loaded
  exact ⟨sound', ledger⟩

/-! Runs. -/

/-- What a user of the scripts does with the key, and how many words are learned from sources: new sources are
learned that each contribute a form; a word is replaced by another word, of another plain word if it is new; the key is
saved by one script and loaded by the next, with frequencies that are printed exactly. -/
inductive KeyStep (t : Tables) : Session → Nat → Session → Prop
  | learn {s : Session} {fuel : Nat} {repairOrth : Bool} {newsourcestbl : Table Str} {key : Key}
      (clean : ∀ h ∈ newsourcestbl, CleanHeader h)
      (contributing : Contributing t fuel repairOrth s.key.headersbynumtbl (sortedpairs newsourcestbl) s.key.keytbl)
      (ran : learnSources t fuel repairOrth newsourcestbl s.key = .ok key) :
      KeyStep t s (sourceEntries t fuel repairOrth (sortedpairs newsourcestbl)).length { s with key }
  | replace {s s' : Session} {fuel : Nat} {orig repl : Str} (apart : orig ≠ repl)
      (word : repl ≠ [] ∧ ∀ b ∈ repl, isLetter b = true) (kept : Apart s.key.keytbl orig repl)
      (ran : replaceword t fuel s orig repl = .ok s') : KeyStep t s 0 s'
  | reload {s : Session} {file : Str} {count : Nat} {key : Key} {textstbl : Table Str} (printed : Printed s.key)
      (saved : savekey t.hash s.key = .ok (file, count)) (loaded : loadkey file = .ok key) :
      KeyStep t s 0 { key, textstbl }

inductive KeyRun (t : Tables) : Session → Nat → Session → Prop
  | none {s : Session} : KeyRun t s 0 s
  | more {s middle s' : Session} {first rest : Nat} (step : KeyStep t s first middle)
      (later : KeyRun t middle rest s') : KeyRun t s (first + rest) s'

theorem KeyStep.keeps {t : Tables} {s s' : Session} {met : Nat} (step : KeyStep t s met s') (sound : Sound s.key)
    {total : Nat} (totals : s.key.ledger.Totals total) : Sound s'.key ∧ s'.key.ledger.Totals (total + met) := by
  have empty : ∀ w, w ∉ s.key.ledger.forms → s.key.ledger.frequency w = 0 :=
    fun w absent => (sound.sourced.blank w absent).1
  cases step with
  | learn clean contributing ran =>
      obtain ⟨sound', entered⟩ := sound.learnSources clean contributing ran
      refine ⟨sound', ?_⟩
      rw [entered]
      exact totals.recordAll empty _
  | replace apart word kept ran =>
      obtain ⟨sound', moved⟩ := sound.replaceword apart word kept ran
      refine ⟨sound', ?_⟩
      rw [moved]
      split
      · exact totals.transfer empty apart
      · exact totals
  | reload _ saved loaded =>
      obtain ⟨sound', same⟩ := sound.reload saved loaded
      exact ⟨sound', same ▸ totals⟩

theorem KeyRun.keeps {t : Tables} {s s' : Session} {met : Nat} (run : KeyRun t s met s') (sound : Sound s.key)
    {total : Nat} (totals : s.key.ledger.Totals total) : Sound s'.key ∧ s'.key.ledger.Totals (total + met) := by
  induction run generalizing total with
  | none => exact ⟨sound, totals⟩
  | more step _ ih =>
      obtain ⟨sound', totals'⟩ := step.keeps sound totals
      rw [← Nat.add_assoc]
      exact ih sound' totals'

def Key.total (key : Key) : Nat := ((sortedpairs key.keytbl).map fun e => key.freq e.2).sum

theorem totals_total {key : Key} (wf : WellFormed key.keytbl) : key.ledger.Totals key.total := by
  obtain ⟨distinct, members⟩ := sortedpairs_words wf
  refine ⟨((sortedpairs key.keytbl).map Prod.snd).toFinset, fun w => by rw [List.mem_toFinset, members]; rfl, ?_⟩
  rw [List.sum_toFinset _ distinct, List.map_map, Key.total]
  apply congrArg List.sum
  apply List.map_congr_left
  intro e member
  exact ledger_frequency ((members e.2).mp (List.mem_map_of_mem member))

/-- Whatever is learned and replaced, the key can be saved, and what is loaded is what was saved, as long as the
frequencies are printed exactly. -/
theorem keyRun_saved (t : Tables) (s s' : Session) (met : Nat) (sound : Sound s.key) (run : KeyRun t s met s')
    (printed : (∃ w, Stored s'.key.keytbl w) ∧ Printed s'.key) (hash : HashOrder) :
    ∃ file count loaded, savekey hash s'.key = .ok (file, count) ∧ loadkey file = .ok loaded ∧
      (∀ w, Stored loaded.keytbl w ↔ Stored s'.key.keytbl w) ∧
      (∀ w, loaded.freq w = s'.key.freq w ∧ ∀ h, h ∈ loaded.headers w ↔ h ∈ s'.key.headers w) ∧
      loaded.headersbynumtbl = s'.key.headersbynumtbl := by
  have sound' := (run.keeps sound (totals_total sound.ready.wellFormed)).1
  obtain ⟨file, count, loaded, saved, load, again, ledger, headers⟩ := sound'.saved printed.1 hash
  refine ⟨file, count, loaded, saved, load, fun w => ?_, fun w => ⟨?_, fun h => ?_⟩, headers⟩
  · have forms : w ∈ loaded.ledger.forms ↔ w ∈ s'.key.ledger.forms := by rw [ledger]
    exact forms
  · rw [← again.blank.frequency, ledger, sound'.blank.frequency]
  · rw [← again.blank.mem_headers, ledger, sound'.blank.mem_headers]

/-- No meeting is lost or counted twice. -/
theorem keyRun_total (t : Tables) (s s' : Session) (met : Nat) (sound : Sound s.key) (run : KeyRun t s met s') :
    s'.key.total = s.key.total + met := by
  obtain ⟨sound', totals⟩ := run.keeps sound (totals_total sound.ready.wellFormed)
  exact (totals_total sound'.ready.wellFormed).unique totals

/-! A session in which `Hōc est` is learned, `est` is replaced with `sunt`, and the key is saved and loaded. -/

def hocSession : Session where
  key := hocKey
  textstbl := AList.insert (lit "Tacitus") (lit "Hōc est") ∅

/-- A key that can be saved is sound when its forms are counted and nothing is known about others. -/
theorem Savable.sound {key : Key} (savable : Savable key) (counted : Counted key) (blank : Blank key) : Sound key := by
  refine ⟨⟨savable.wellFormed, counted⟩, savable.letters, blank, savable.registered, savable.distinct, savable.clean,
    ⟨fun w unknown => ⟨if_neg unknown, ?_⟩, fun w => ?_, fun w h member => ?_⟩⟩
  · exact Set.eq_empty_of_forall_notMem fun h member => unknown member.1
  · rw [blank.frequency]
    constructor
    · intro positive
      have known : Stored key.keytbl w := by
        by_contra unknown
        exact absurd (blank w unknown).1 (Nat.ne_of_gt positive)
      obtain ⟨⟨h, member⟩, _⟩ := savable.counted w known positive
      exact ⟨h, (mem_ledger_headers known).mpr member⟩
    · rintro ⟨h, member⟩
      by_contra zero
      exact savable.uncounted w member.1 (by omega) h ((mem_ledger_headers member.1).mp member)
  · have known : Stored key.keytbl w := member.1
    have carried := (mem_ledger_headers known).mp member
    have positive : 0 < key.freq w := by
      by_contra zero
      exact savable.uncounted w known (by omega) h carried
    exact (savable.counted w known positive).2 h carried

theorem hocKey_sound : Sound hocKey := by
  apply hocKey_savable.sound hocKey_counted
  intro w unknown
  have apart : w ≠ lit "hōc" := fun same => unknown (same ▸ ⟨lit "hoc", by decide⟩)
  have freq : field hocKey.freqtbl w = none := field_insert_ne _ _ _ _ apart
  have headers : field hocKey.headerstbl w = none := field_insert_ne _ _ _ _ apart
  rw [Key.freq, Key.headers, freq, headers]
  exact ⟨rfl, fun h => List.not_mem_nil⟩

set_option maxRecDepth 8000 in
theorem hocSession_learned :
    (do
      let key ← learnSources .empty 20 false (AList.insert (lit "Tacitus") (lit "Hōc est") ∅) hocKey
      let s ← replaceword .empty 20 { hocSession with key } (lit "est") (lit "sunt")
      return (decide (Apart key.keytbl (lit "est") (lit "sunt")), decide (Stored s.key.keytbl (lit "sunt")),
        decide (∀ e ∈ s.key.freqtbl.entries, e.2 < 10 ^ 14))) = .ok (true, true, true) ∧
    lit "est" ∈ formattedWords .empty 20 false (lit "Hōc est") ∧
    (sourceEntries .empty 20 false [(lit "Tacitus", lit "Hōc est")]).length = 2 := by
  decide

theorem hocSession_sources :
    sortedpairs (AList.insert (lit "Tacitus") (lit "Hōc est") ∅) = [(lit "Tacitus", lit "Hōc est")] := by
  decide

theorem hocSession_clean : ∀ h ∈ (AList.insert (lit "Tacitus") (lit "Hōc est") ∅ : Table Str), CleanHeader h := by
  intro h member
  have keys : h ∈ (AList.insert (lit "Tacitus") (lit "Hōc est") ∅ : Table Str).keys := member
  have only : h = lit "Tacitus" := List.mem_singleton.mp keys
  subst only
  exact ⟨by decide, by decide, by decide, by decide, by decide, by decide, by decide, by decide⟩

theorem hocSession_contributing :
    Contributing .empty 20 false hocKey.headersbynumtbl [(lit "Tacitus", lit "Hōc est")] hocKey.keytbl := by
  refine ⟨fun _ _ => ⟨lit "est", hocSession_learned.2.1, ?_⟩, trivial⟩
  rw [known_iff (p := lit "est") (by decide)]
  decide

theorem hocSession_run :
    ∃ s', KeyRun .empty hocSession 2 s' ∧ Stored s'.key.keytbl (lit "sunt") ∧ Printed s'.key := by
  obtain ⟨run, _, two⟩ := hocSession_learned
  obtain ⟨key, learned, run⟩ := bind_eq_ok.mp run
  obtain ⟨s, replaced, run⟩ := bind_eq_ok.mp run
  simp only [run_pure, Except.ok.injEq, Prod.mk.injEq, decide_eq_true_eq] at run
  have first : KeyStep .empty hocSession 2 { hocSession with key } := by
    rw [← two, ← hocSession_sources]
    exact .learn hocSession_clean (hocSession_sources ▸ hocSession_contributing) learned
  have second : KeyStep .empty { hocSession with key } 0 s :=
    .replace (by decide) ⟨by decide, List.all_eq_true.mp (by decide)⟩ run.1 replaced
  have printed : Printed s.key := printed_of_entries run.2.2
  have sound := (KeyRun.keeps (.more first (.more second .none)) hocKey_sound
    (totals_total hocKey_sound.ready.wellFormed)).1
  obtain ⟨file, count, loaded, saved, load, _, ledger, _⟩ := sound.saved ⟨_, run.2.1⟩ .stored
  have third : KeyStep .empty s 0 { key := loaded, textstbl := s.textstbl } := .reload printed saved load
  have forms (w : Str) : Stored loaded.keytbl w ↔ Stored s.key.keytbl w := by
    have same : w ∈ loaded.ledger.forms ↔ w ∈ s.key.ledger.forms := by rw [ledger]
    exact same
  refine ⟨_, .more first (.more second (.more third .none)), (forms _).mpr run.2.1, fun w stored => ?_⟩
  rw [← ledger_frequency stored, ledger, ledger_frequency ((forms w).mp stored)]
  exact printed w ((forms w).mp stored)

theorem keyRun_saved_hoc :
    ∃ s' file count loaded, KeyRun .empty hocSession 2 s' ∧ savekey .stored s'.key = .ok (file, count) ∧
      loadkey file = .ok loaded ∧ Stored loaded.keytbl (lit "sunt") := by
  obtain ⟨s', run, known, printed⟩ := hocSession_run
  obtain ⟨file, count, loaded, saved, load, forms, _⟩ :=
    keyRun_saved .empty hocSession s' 2 hocKey_sound run ⟨⟨_, known⟩, printed⟩ .stored
  exact ⟨s', file, count, loaded, run, saved, load, (forms _).mpr known⟩

theorem keyRun_total_hoc : ∃ s', KeyRun .empty hocSession 2 s' ∧ s'.key.total = 3 := by
  obtain ⟨s', run, _⟩ := hocSession_run
  have start : hocKey.total = 1 := by decide
  have total := keyRun_total .empty hocSession s' 2 hocKey_sound run
  exact ⟨s', run, total.trans (by rw [show hocSession.key = hocKey from rfl, start])⟩

end Maccer
