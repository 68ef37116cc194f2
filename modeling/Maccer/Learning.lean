import Maccer.Exmac
import Maccer.Ledger

/-! What Exmacronize has learned: forms, frequencies and headers. -/

namespace Maccer

open Lua

/-- Every stored form has a frequency and a header set, so that counting it
does not fail. -/
def Counted (key : Key) : Prop :=
  ∀ w, Stored key.keytbl w → ∃ freq headers,
    field key.freqtbl w = some freq ∧ field key.headerstbl w = some headers

structure Ready (key : Key) : Prop where
  wellFormed : WellFormed key.keytbl
  counted : Counted key

open Classical in
/-- The ledger that a key keeps. What the tables hold for a form that is not
stored does not count, since a new form starts afresh. -/
noncomputable def Key.ledger (key : Key) : Ledger Str Str where
  forms := {w | Stored key.keytbl w}
  frequency w := if Stored key.keytbl w then (field key.freqtbl w).getD 0 else 0
  headers w := {h | Stored key.keytbl w ∧ ∃ headers, field key.headerstbl w = some headers ∧ h ∈ headers}

theorem exmacronizeWord_known (hash : HashOrder) (header w p : Str) (key : Key) (learned : Learned)
    (freq : Nat) (headers : Table Unit) (same : plain w = .ok p)
    (known : w ∈ chain key.keytbl p) (counted : field key.freqtbl w = some freq)
    (sourced : field key.headerstbl w = some headers) :
    exmacronizeWord hash header (key, learned) w =
      .ok ({ key with
        freqtbl := key.freqtbl.insert w (freq + 1)
        headerstbl := key.headerstbl.insert w (headers.insert header ()) }, learned) := by
  have filled : chain key.keytbl p ≠ [] := List.ne_nil_of_mem known
  have parallel : field (parallels key.keytbl p) w ≠ none := by
    rw [Ne, field_parallels_none]
    exact fun absent => absent known
  simp [exmacronizeWord, same, getpars_eq, filled, parallel, counted, sourced]

theorem exmacronizeWord_new (hash : HashOrder) (header w p : Str) (key : Key) (learned : Learned)
    (same : plain w = .ok p) (unknown : w ∉ chain key.keytbl p) :
    ∃ learned', learned'.newcount = learned.newcount + 1 ∧
      exmacronizeWord hash header (key, learned) w =
        .ok ({ key with
          keytbl := key.keytbl.insert (slot p (chain key.keytbl p).length) w
          freqtbl := key.freqtbl.insert w 1
          headerstbl := key.headerstbl.insert w (AList.insert header () ∅) }, learned') := by
  by_cases empty : chain key.keytbl p = []
  · simp only [exmacronizeWord, same, getpars_eq, if_pos empty, run_pure, run_bind_ok]
    exact ⟨_, rfl, by rw [empty]; rfl⟩
  · have parallel : field (parallels key.keytbl p) w = none :=
      (field_parallels_none _ _ _).mpr unknown
    simp only [exmacronizeWord, same, getpars_eq, if_neg empty, parallel, if_true, run_pure,
      run_bind_ok]
    exact ⟨_, rfl, rfl⟩

/-- All that a word can do to the tables: a form that its plain word has is counted there, another one is learned. -/
theorem exmacronizeWord_cases (hash : HashOrder) (header w : Str) (key key' : Key)
    (learned learned' : Learned)
    (ran : exmacronizeWord hash header (key, learned) w = .ok (key', learned')) :
    ∃ p, plain w = .ok p ∧ key'.keytbl = learnForm key.keytbl w p ∧
      key'.headersbynumtbl = key.headersbynumtbl ∧
      ((w ∈ chain key.keytbl p ∧ learned' = learned ∧
          ∃ headers, field key.headerstbl w = some headers ∧
            key'.headerstbl = key.headerstbl.insert w (headers.insert header ())) ∨
        (w ∉ chain key.keytbl p ∧ learned'.newcount = learned.newcount + 1 ∧
          key'.headerstbl = key.headerstbl.insert w (AList.insert header () ∅))) := by
  cases same : plain w with
  | error fault => simp [exmacronizeWord, same] at ran
  | ok p =>
      refine ⟨p, rfl, ?_⟩
      by_cases known : w ∈ chain key.keytbl p
      · have filled := List.ne_nil_of_mem known
        cases counted : field key.freqtbl w with
        | none => simp [exmacronizeWord, same, getpars_eq, filled, known, field_parallels_none,
            counted] at ran
        | some freq =>
            cases sourced : field key.headerstbl w with
            | none => simp [exmacronizeWord, same, getpars_eq, filled, known, field_parallels_none,
                counted, sourced] at ran
            | some headers =>
                rw [exmacronizeWord_known hash header w p key learned freq headers same known
                  counted sourced] at ran
                cases ran
                exact ⟨by simp [learnForm, known], rfl, .inl ⟨known, rfl, headers, rfl, rfl⟩⟩
      · obtain ⟨_, more, stepped⟩ := exmacronizeWord_new hash header w p key learned same known
        rw [stepped] at ran
        cases ran
        exact ⟨by simp [learnForm, known], rfl, .inr ⟨known, more, rfl⟩⟩

theorem ledger_record (key key' : Key) (header w : Str) (headers : Table Unit)
    (stored : ∀ v, Stored key'.keytbl v ↔ v = w ∨ Stored key.keytbl v)
    (counted : field key'.freqtbl w = some (key.ledger.frequency w + 1))
    (sourced : field key'.headerstbl w = some headers)
    (registered : ∀ h, h ∈ headers ↔ h = header ∨ h ∈ key.ledger.headers w)
    (others : ∀ v, v ≠ w → field key'.freqtbl v = field key.freqtbl v ∧
      field key'.headerstbl v = field key.headerstbl v) :
    key'.ledger = key.ledger.record (header, w) := by
  ext v h
  · simp [Key.ledger, Ledger.record, stored]
  · by_cases here : v = w
    · subst here
      have now : Stored key'.keytbl v := (stored v).mpr (.inl rfl)
      have kept : key'.ledger.frequency v = key.ledger.frequency v + 1 := by
        simp [Key.ledger, now, counted]
      simp [Ledger.record, kept]
    · have kept : Stored key'.keytbl v ↔ Stored key.keytbl v := by simp [stored, here]
      by_cases old : Stored key.keytbl v
      · simp [Key.ledger, Ledger.record, kept.mpr old, old, here, others v here]
      · simp [Key.ledger, Ledger.record, mt kept.mp old, old, here]
  · by_cases here : v = w
    · subst here
      have now : Stored key'.keytbl v := (stored v).mpr (.inl rfl)
      have kept : h ∈ key'.ledger.headers v ↔ h ∈ headers := by
        simp [Key.ledger, now, sourced]
      rw [kept, registered]
      simp [Ledger.record]
    · simp [Key.ledger, Ledger.record, stored, here, others v here]

theorem Ready.of_step {key key' : Key} (ready : Ready key) (w : Str)
    (wellFormed : WellFormed key'.keytbl)
    (stored : ∀ v, Stored key'.keytbl v ↔ v = w ∨ Stored key.keytbl v)
    (here : ∃ freq headers, field key'.freqtbl w = some freq ∧ field key'.headerstbl w = some headers)
    (others : ∀ v, v ≠ w → field key'.freqtbl v = field key.freqtbl v ∧
      field key'.headerstbl v = field key.headerstbl v) : Ready key' := by
  refine ⟨wellFormed, fun v known => ?_⟩
  by_cases same : v = w
  · rwa [same]
  · rw [(others v same).1, (others v same).2]
    exact ready.counted v (((stored v).mp known).resolve_left same)

theorem exmacronizeWord_step (hash : HashOrder) (header w : Str) (key : Key) (learned : Learned)
    (ready : Ready key) (word : DigitFree w) (readable : ∃ p, plain w = .ok p) :
    ∃ key' learned', exmacronizeWord hash header (key, learned) w = .ok (key', learned') ∧
      Ready key' ∧ key'.ledger = key.ledger.record (header, w) ∧
      ∀ v, v ≠ w → field key'.freqtbl v = field key.freqtbl v ∧
        field key'.headerstbl v = field key.headerstbl v := by
  obtain ⟨p, same⟩ := readable
  have plainWord := plain_digitFree same word
  have rep := ready.wellFormed.represents
  have storedHere : Stored key.keytbl w ↔ w ∈ chain key.keytbl p := by
    rw [rep.stored_plain same, rep.chain p plainWord]
  by_cases known : w ∈ chain key.keytbl p
  · obtain ⟨freq, headers, counted, sourced⟩ := ready.counted w (storedHere.mpr known)
    have stepped := exmacronizeWord_known hash header w p key learned freq headers same known
      counted sourced
    refine ⟨_, _, stepped, ?_⟩
    have stored : ∀ v, Stored key.keytbl v ↔ v = w ∨ Stored key.keytbl v := by
      intro v
      constructor
      · exact Or.inr
      · rintro (rfl | old)
        · exact storedHere.mpr known
        · exact old
    have others : ∀ v, v ≠ w →
        field (key.freqtbl.insert w (freq + 1)) v = field key.freqtbl v ∧
        field (key.headerstbl.insert w (headers.insert header ())) v = field key.headerstbl v :=
      fun v apart => ⟨field_insert_ne _ _ _ _ apart, field_insert_ne _ _ _ _ apart⟩
    refine ⟨ready.of_step w ready.wellFormed stored
      ⟨_, _, field_insert _ _ _, field_insert _ _ _⟩ others, ?_, others⟩
    refine ledger_record key _ header w (headers.insert header ()) stored ?_
      (field_insert _ _ _) ?_ others
    · simp [Key.ledger, storedHere.mpr known, counted]
    · simp [Key.ledger, storedHere.mpr known, sourced]
  · obtain ⟨learned', _, stepped⟩ := exmacronizeWord_new hash header w p key learned same known
    refine ⟨_, _, stepped, ?_⟩
    have unknown : ¬ Stored key.keytbl w := fun old => known (storedHere.mp old)
    have grown := rep.learnForm same plainWord
    rw [Maccer.learnForm, if_neg known] at grown
    have stored : ∀ v, Stored (key.keytbl.insert (slot p (chain key.keytbl p).length) w) v ↔
        v = w ∨ Stored key.keytbl v := by
      intro v
      rw [grown.stored_iff, rep.stored_iff]
      simp only [Dictionary.mem_learn]
      constructor
      · rintro ⟨q, old | new⟩
        · exact .inr ⟨q, old⟩
        · exact .inl new.2
      · rintro (rfl | ⟨q, old⟩)
        · exact ⟨p, .inr ⟨rfl, rfl⟩⟩
        · exact ⟨q, .inl old⟩
    have others : ∀ v, v ≠ w → field (key.freqtbl.insert w 1) v = field key.freqtbl v ∧
        field (key.headerstbl.insert w (AList.insert header () ∅)) v = field key.headerstbl v :=
      fun v apart => ⟨field_insert_ne _ _ _ _ apart, field_insert_ne _ _ _ _ apart⟩
    refine ⟨ready.of_step w grown.wellFormed stored
      ⟨_, _, field_insert _ _ _, field_insert _ _ _⟩ others, ?_, others⟩
    refine ledger_record key _ header w (AList.insert header () ∅) stored ?_
      (field_insert _ _ _) ?_ others
    · simp [Key.ledger, unknown]
    · intro h
      rw [AList.mem_insert]
      simp [Key.ledger, unknown]

def entries (header : Str) (tokens : List Str) : List (Str × Str) := tokens.map fun w => (header, w)

theorem exmacronizeWord_run (hash : HashOrder) (header : Str) (tokens : List Str) (key : Key)
    (learned : Learned) (ready : Ready key)
    (letters : ∀ w ∈ tokens, DigitFree w ∧ ∃ p, plain w = .ok p) :
    ∃ key' learned',
      tokens.foldlM (exmacronizeWord hash header) (key, learned) = .ok (key', learned') ∧
      Ready key' ∧ key'.ledger = key.ledger.recordAll (entries header tokens) ∧
      ∀ v, v ∉ tokens → field key'.freqtbl v = field key.freqtbl v ∧
        field key'.headerstbl v = field key.headerstbl v := by
  induction tokens generalizing key learned with
  | nil => exact ⟨key, learned, rfl, ready, rfl, fun v _ => ⟨rfl, rfl⟩⟩
  | cons w tokens ih =>
      have first := letters w (by simp)
      obtain ⟨middle, learned₁, stepped, readyMiddle, entered, kept⟩ :=
        exmacronizeWord_step hash header w key learned ready first.1 first.2
      obtain ⟨key', learned', ran, readyLast, recorded, others⟩ :=
        ih middle learned₁ readyMiddle fun v member => letters v (by simp [member])
      refine ⟨key', learned', ?_, readyLast, ?_, ?_⟩
      · rw [List.foldlM_cons, stepped]
        exact ran
      · rw [recorded, entered]
        rfl
      · intro v absent
        simp only [List.mem_cons, not_or] at absent
        have rest := others v absent.2
        have here := kept v absent.1
        exact ⟨rest.1.trans here.1, rest.2.trans here.2⟩

theorem exmacronize_run (hash : HashOrder) (key : Key) (text header : Str) (ready : Ready key)
    (valid : Utf8.Valid text) :
    ∃ key' learned, exmacronize hash key text header = .ok (key', learned) ∧ Ready key' ∧
      key'.ledger = key.ledger.recordAll (entries header (words text)) ∧
      ∀ v, v ∉ words text → field key'.freqtbl v = field key.freqtbl v ∧
        field key'.headerstbl v = field key.headerstbl v :=
  exmacronizeWord_run hash header (words text) key _ ready fun _ member =>
    ⟨digitFree_of_letters (words_letters member), plain_valid (words_valid valid member)⟩

/-- Running `exmacronize` over texts with their headers, one after the other. -/
def exmacronizeAll (hash : HashOrder) (sources : List (Str × Str)) (key : Key) : Run Key :=
  sources.foldlM (fun key source => (·.1) <$> exmacronize hash key source.1 source.2) key

def allEntries (sources : List (Str × Str)) : List (Str × Str) :=
  sources.flatMap fun source => entries source.2 (words source.1)

theorem exmacronizeAll_run (hash : HashOrder) (sources : List (Str × Str)) (key : Key)
    (ready : Ready key) (valid : ∀ source ∈ sources, Utf8.Valid source.1) :
    ∃ key', exmacronizeAll hash sources key = .ok key' ∧ Ready key' ∧
      key'.ledger = key.ledger.recordAll (allEntries sources) ∧
      ∀ v, (∀ source ∈ sources, v ∉ words source.1) →
        field key'.freqtbl v = field key.freqtbl v ∧
        field key'.headerstbl v = field key.headerstbl v := by
  induction sources generalizing key with
  | nil => exact ⟨key, rfl, ready, rfl, fun v _ => ⟨rfl, rfl⟩⟩
  | cons source sources ih =>
      obtain ⟨middle, learned, ran, readyMiddle, recorded, kept⟩ :=
        exmacronize_run hash key source.1 source.2 ready (valid source (by simp))
      obtain ⟨key', later, readyLast, entered, others⟩ :=
        ih middle readyMiddle fun s member => valid s (by simp [member])
      refine ⟨key', ?_, readyLast, ?_, ?_⟩
      · rw [exmacronizeAll, List.foldlM_cons, ran]
        exact later
      · rw [entered, recorded, ← Ledger.recordAll_append]
        rfl
      · intro v absent
        have rest := others v fun s member => absent s (by simp [member])
        have here := kept v (absent source (by simp))
        exact ⟨rest.1.trans here.1, rest.2.trans here.2⟩

theorem mem_allEntries (sources : List (Str × Str)) (h w : Str) :
    (h, w) ∈ allEntries sources ↔ ∃ source ∈ sources, source.2 = h ∧ w ∈ words source.1 := by
  simp only [allEntries, entries, List.mem_flatMap, List.mem_map, Prod.mk.injEq]
  constructor
  · rintro ⟨source, member, v, present, rfl, rfl⟩
    exact ⟨source, member, rfl, present⟩
  · rintro ⟨source, member, rfl, present⟩
    exact ⟨source, member, w, present, rfl, rfl⟩

theorem mem_allEntries_forms (sources : List (Str × Str)) (w : Str) :
    w ∈ (allEntries sources).map Prod.snd ↔ ∃ source ∈ sources, w ∈ words source.1 := by
  rw [List.mem_map]
  constructor
  · rintro ⟨⟨h, v⟩, entered, rfl⟩
    obtain ⟨source, member, _, present⟩ := (mem_allEntries sources h v).mp entered
    exact ⟨source, member, present⟩
  · rintro ⟨source, member, present⟩
    exact ⟨(source.2, w), (mem_allEntries _ _ _).mpr ⟨source, member, rfl, present⟩, rfl⟩

theorem count_allEntries (sources : List (Str × Str)) (w : Str) :
    ((allEntries sources).map Prod.snd).count w =
      (sources.map fun source => (words source.1).count w).sum := by
  rw [allEntries, List.map_flatMap, List.count_flatMap]
  simp [entries, Function.comp_def]

/-- Exmacronizing counts every word of the texts, whatever their order. -/
theorem exmacronize_counts (hash : HashOrder) (key : Key) (wellFormed : WellFormed key.keytbl)
    (counted : Counted key) (sources order : List (Str × Str)) (any : order.Perm sources)
    (valid : ∀ source ∈ sources, Utf8.Valid source.1) :
    ∃ key', exmacronizeAll hash order key = .ok key' ∧ WellFormed key'.keytbl ∧
      (∀ w, Stored key'.keytbl w ↔
        Stored key.keytbl w ∨ ∃ source ∈ sources, w ∈ words source.1) ∧
      (∀ w, Stored key'.keytbl w → ∃ headers,
        field key'.freqtbl w = some (key.ledger.frequency w +
          (sources.map fun source => (words source.1).count w).sum) ∧
        field key'.headerstbl w = some headers ∧
        ∀ h, h ∈ headers ↔ h ∈ key.ledger.headers w ∨
          ∃ source ∈ sources, source.2 = h ∧ w ∈ words source.1) ∧
      ∀ w, (∀ source ∈ sources, w ∉ words source.1) →
        field key'.freqtbl w = field key.freqtbl w ∧
        field key'.headerstbl w = field key.headerstbl w := by
  obtain ⟨key', ran, ready, recorded, others⟩ := exmacronizeAll_run hash order key
    ⟨wellFormed, counted⟩ fun source member => valid source (any.mem_iff.mp member)
  have shuffled : (allEntries order).Perm (allEntries sources) := any.flatMap_right _
  rw [Ledger.recordAll_perm _ shuffled] at recorded
  have stored : ∀ w, Stored key'.keytbl w ↔
      Stored key.keytbl w ∨ ∃ source ∈ sources, w ∈ words source.1 := by
    intro w
    have forms := Ledger.mem_forms_recordAll key.ledger (allEntries sources) w
    rw [← recorded] at forms
    rwa [mem_allEntries_forms] at forms
  refine ⟨key', ran, ready.wellFormed, stored, ?_, ?_⟩
  · intro w known
    obtain ⟨freq, headers, counted', sourced⟩ := ready.counted w known
    have frequency : key'.ledger.frequency w = freq := by simp [Key.ledger, known, counted']
    have total := Ledger.frequency_recordAll key.ledger (allEntries sources) w
    rw [← recorded, frequency, count_allEntries] at total
    refine ⟨headers, by rw [counted', total], sourced, ?_⟩
    intro h
    have registered : h ∈ key'.ledger.headers w ↔ h ∈ headers := by
      simp [Key.ledger, known, sourced]
    rw [← registered, recorded, Ledger.mem_headers_recordAll, mem_allEntries]
  · intro w absent
    exact others w fun source member => absent source (any.mem_iff.mp member)

def hocKey : Key where
  keytbl := learnForm ∅ (lit "hōc") (lit "hoc")
  freqtbl := AList.insert (lit "hōc") 1 ∅
  headerstbl := AList.insert (lit "hōc") (AList.insert (lit "Gallia") () ∅) ∅
  headersbynumtbl := [lit "Gallia"]

theorem hocKey_wellFormed : WellFormed hocKey.keytbl :=
  wellFormed_empty.learnForm (by decide) (by decide)

theorem hocKey_stored (w : Str) (stored : Stored hocKey.keytbl w) : w = lit "hōc" := by
  obtain ⟨k, found⟩ := stored
  have only : ∀ e ∈ hocKey.keytbl.entries, e.2 = lit "hōc" := by decide
  exact only ⟨k, w⟩ (AList.mem_lookup_iff.mp found)

theorem hocKey_counted : Counted hocKey := by
  intro w stored
  obtain rfl := hocKey_stored w stored
  exact ⟨1, _, field_insert _ _ _, field_insert _ _ _⟩

theorem exmacronize_counts_hoc :
    ∃ key', exmacronizeAll .stored [(lit "hoc est", lit "B"), (lit "hōc hoc", lit "A")] hocKey =
        .ok key' ∧ Stored key'.keytbl (lit "est") ∧ field key'.freqtbl (lit "hōc") = some 2 := by
  have valid : ∀ source ∈ [(lit "hōc hoc", lit "A"), (lit "hoc est", lit "B")],
      Utf8.Valid source.1 := by
    simp only [List.mem_cons, List.not_mem_nil, or_false, forall_eq_or_imp, forall_eq]
    exact ⟨Utf8.valid_of_chars _ (by decide) (by decide),
      Utf8.valid_of_chars _ (by decide) (by decide)⟩
  obtain ⟨key', ran, _, stored, counted, _⟩ := exmacronize_counts .stored hocKey hocKey_wellFormed
    hocKey_counted _ _ (List.Perm.swap _ _ []) valid
  have known : Stored hocKey.keytbl (lit "hōc") := ⟨lit "hoc", by decide⟩
  refine ⟨key', ran, ?_, ?_⟩
  · exact (stored _).mpr (.inr ⟨_, List.mem_cons_of_mem _ (List.mem_cons_self ..), by decide⟩)
  · obtain ⟨headers, frequency, _⟩ := counted _ ((stored _).mpr (.inl known))
    have before : hocKey.ledger.frequency (lit "hōc") = 1 := by
      simp [Key.ledger, known]
      decide
    rw [frequency, before]
    decide

end Maccer
