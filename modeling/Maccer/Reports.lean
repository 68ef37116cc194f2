import Maccer.Export
import Maccer.Guessing
import Maccer.KeyRoundTrip

/-! What Exmacronize reports of the new forms of a text. -/

namespace Maccer

open Lua

/-! The report that `exmacronize` is meant to give. -/

structure Met (keytbl : Table Str) (before : List Str) (w : Str) : Prop where
  first : w ∉ before
  unknown : ¬ Stored keytbl w
  parallel : ∃ v, plain v = plain w ∧ (Stored keytbl v ∨ v ∈ before)

def AmbiguousNew (keytbl : Table Str) (tokens : List Str) (w : Str) : Prop :=
  ∃ before after, tokens = before ++ w :: after ∧ Met keytbl before w

def Lists (keytbl : Table Str) (before : List Str) (w s : Str) : Prop :=
  ∃ forms : List Str, forms.Nodup ∧ (∀ v, v ∈ forms ↔ plain v = plain w ∧ (Stored keytbl v ∨ v ∈ before)) ∧
    s = (lit ", ").intercalate forms

structure FullReport (keytbl : Table Str) (tokens : List Str) (learned : Learned) : Prop where
  newcount : learned.newtbl.keys.length = learned.newcount
  new : ∀ w, (∃ k, field learned.newtbl k = some w) ↔ w ∈ tokens ∧ ¬ Stored keytbl w
  once : ∀ k k' w, field learned.newtbl k = some w → field learned.newtbl k' = some w → k = k'
  ambigcount : (learned.ambigtbl.getD ∅).keys.length = learned.ambigcount
  ambiguous : ∀ w, w ∈ learned.ambigtbl.getD ∅ ↔ AmbiguousNew keytbl tokens w
  listed : ∀ before w after, tokens = before ++ w :: after → Met keytbl before w →
    ∃ s, field (learned.ambigtbl.getD ∅) w = some s ∧ Lists keytbl before w s

theorem ambiguousNew_concat (keytbl : Table Str) (tokens : List Str) (w v : Str) :
    AmbiguousNew keytbl (tokens ++ [w]) v ↔ AmbiguousNew keytbl tokens v ∨ v = w ∧ Met keytbl tokens w := by
  constructor
  · intro ⟨before, after, shape, met⟩
    cases List.eq_nil_or_concat after with
    | inl none =>
        rw [none] at shape
        obtain ⟨rfl, same⟩ := List.append_inj' shape rfl
        have same : v = w := (List.cons.inj same).1.symm
        exact .inr ⟨same, same ▸ met⟩
    | inr more =>
        obtain ⟨front, x, rfl⟩ := more
        rw [List.concat_eq_append, ← List.cons_append, ← List.append_assoc] at shape
        exact .inl ⟨before, front, (List.append_inj' shape rfl).1, met⟩
  · rintro (⟨before, after, rfl, met⟩ | ⟨rfl, met⟩)
    · exact ⟨before, after ++ [w], by simp, met⟩
    · exact ⟨tokens, [], rfl, met⟩

theorem met_once {tokens before before' after after' : List Str} {w : Str} (shape : tokens = before ++ w :: after)
    (shape' : tokens = before' ++ w :: after') (first : w ∉ before) (first' : w ∉ before') : before = before' := by
  have cut (front back : List Str) (absent : w ∉ front) : (front ++ w :: back).takeWhile (· ≠ w) = front := by
    rw [List.takeWhile_append_of_pos, List.takeWhile_cons_of_neg (by simp), List.append_nil]
    exact fun v member => by simpa using fun same : v = w => absent (same ▸ member)
  rw [← cut before after first, ← shape, shape', cut before' after' first']

theorem parstr_forms (hash : HashOrder) {keytbl : Table Str} (wf : WellFormed keytbl) (p : Str) :
    ∃ forms : List Str, forms.Perm (chain keytbl p) ∧
      parstr hash (parallels keytbl p) = (lit ", ").intercalate forms := by
  refine ⟨_, Tables.pairs_parallels hash (wf.chain_nodup p), ?_⟩
  rw [parstr, ← subFrom_commas, List.flatMap_map]

/-! The loop. -/

theorem exmacronizeWord_first (hash : HashOrder) (header w p : Str) (key : Key) (learned : Learned)
    (same : plain w = .ok p) (empty : chain key.keytbl p = []) :
    exmacronizeWord hash header (key, learned) w =
      .ok ({ key with
        keytbl := key.keytbl.insert p w
        freqtbl := key.freqtbl.insert w 1
        headerstbl := key.headerstbl.insert w (AList.insert header () ∅) },
        { learned with newtbl := learned.newtbl.insert p w, newcount := learned.newcount + 1 }) := by
  simp only [exmacronizeWord, same, getpars_eq, if_pos empty, run_pure, run_bind_ok]

theorem exmacronizeWord_ambiguous (hash : HashOrder) (header w p : Str) (key : Key) (learned : Learned)
    (same : plain w = .ok p) (filled : chain key.keytbl p ≠ []) (unknown : w ∉ chain key.keytbl p) :
    exmacronizeWord hash header (key, learned) w =
      .ok ({ key with
        keytbl := key.keytbl.insert (slot p (chain key.keytbl p).length) w
        freqtbl := key.freqtbl.insert w 1
        headerstbl := key.headerstbl.insert w (AList.insert header () ∅) },
        { newtbl := learned.newtbl.insert (slot p (chain key.keytbl p).length) w
          newcount := learned.newcount + 1
          ambigtbl := some (AList.insert w (parstr hash (parallels key.keytbl p)) ∅)
          ambigcount := learned.ambigcount + 1 }) := by
  have parallel : field (parallels key.keytbl p) w = none := (field_parallels_none _ _ _).mpr unknown
  simp only [exmacronizeWord, same, getpars_eq, if_neg filled, parallel, if_true, run_pure, run_bind_ok]

structure News (start : Table Str) (before : List Str) (key : Key) (learned : Learned) : Prop where
  newcount : learned.newtbl.keys.length = learned.newcount
  kept : ∀ k v, field learned.newtbl k = some v → field key.keytbl k = some v
  new : ∀ v, (∃ k, field learned.newtbl k = some v) ↔ v ∈ before ∧ ¬ Stored start v

def Last (start : Table Str) (before : List Str) (ambigtbl : Option (Table Str)) (ambigs : List Str) : Prop :=
  ambigtbl = none ∧ ambigs = [] ∨ ∃ front w s earlier later, ambigs = front ++ [w] ∧
    ambigtbl = some (AList.insert w s ∅) ∧ before = earlier ++ w :: later ∧ Met start earlier w ∧ Lists start earlier w s

structure Reporting (start : Table Str) (before : List Str) (key : Key) (learned : Learned) (ambigs : List Str) :
    Prop where
  ready : Ready key
  stored : ∀ v, Stored key.keytbl v ↔ Stored start v ∨ v ∈ before
  news : News start before key learned
  distinct : ambigs.Nodup
  ambigcount : ambigs.length = learned.ambigcount
  ambiguous : ∀ v, v ∈ ambigs ↔ AmbiguousNew start before v
  last : Last start before learned.ambigtbl ambigs

theorem News.known {start : Table Str} {before : List Str} {key key' : Key} {learned : Learned}
    (news : News start before key learned) {w : Str} (old : Stored start w ∨ w ∈ before)
    (same : key'.keytbl = key.keytbl) : News start (before ++ [w]) key' learned := by
  refine ⟨news.newcount, fun k v found => same ▸ news.kept k v found, fun v => (news.new v).trans ?_⟩
  rw [List.mem_append, List.mem_singleton]
  constructor
  · exact fun ⟨met, unknown⟩ => ⟨.inl met, unknown⟩
  · rintro ⟨met | rfl, unknown⟩
    · exact ⟨met, unknown⟩
    · exact ⟨old.resolve_left unknown, unknown⟩

theorem News.insert {start : Table Str} {before : List Str} {key key' : Key} {learned learned' : Learned}
    (news : News start before key learned) {k w : Str} (free : field key.keytbl k = none)
    (grown : key'.keytbl = key.keytbl.insert k w) (more : learned'.newtbl = learned.newtbl.insert k w)
    (count : learned'.newcount = learned.newcount + 1) (unknown : ¬ Stored start w) :
    News start (before ++ [w]) key' learned' := by
  have absent : field learned.newtbl k = none := by
    cases found : field learned.newtbl k with
    | none => rfl
    | some v => rw [news.kept k v found] at free; cases free
  refine ⟨?_, fun k' v found => ?_, fun v => ?_⟩
  · have outside : k ∉ learned.newtbl.keys := (field_eq_none _ _).mp absent
    have size : (learned.newtbl.insert k w).keys.length = learned.newtbl.keys.length + 1 := by
      rw [AList.keys_insert, List.length_cons]
      exact congrArg (·.length + 1) (@List.erase_of_not_mem _ instBEqOfDecidableEq _ _ _ outside)
    rw [more, count, size, news.newcount]
  · rw [more] at found
    rw [grown]
    by_cases here : k' = k
    · rw [here, field_insert] at found ⊢
      exact found
    · rw [field_insert_ne _ _ _ _ here] at found ⊢
      exact news.kept k' v found
  · rw [more, List.mem_append, List.mem_singleton]
    constructor
    · intro ⟨k', found⟩
      by_cases here : k' = k
      · rw [here, field_insert, Option.some.injEq] at found
        exact ⟨.inr found.symm, found ▸ unknown⟩
      · rw [field_insert_ne _ _ _ _ here] at found
        have ⟨met, new⟩ := (news.new v).mp ⟨k', found⟩
        exact ⟨.inl met, new⟩
    · rintro ⟨met | rfl, new⟩
      · obtain ⟨k', found⟩ := (news.new v).mpr ⟨met, new⟩
        have apart : k' ≠ k := fun here => by rw [here, absent] at found; cases found
        exact ⟨k', by rw [field_insert_ne _ _ _ _ apart, found]⟩
      · exact ⟨k, field_insert _ _ _⟩

theorem AmbiguousNew.mem {keytbl : Table Str} {tokens : List Str} {w : Str} (ambiguous : AmbiguousNew keytbl tokens w) :
    w ∈ tokens := by
  obtain ⟨before, after, rfl, _⟩ := ambiguous
  simp

theorem Last.concat {start : Table Str} {before : List Str} {ambigtbl : Option (Table Str)} {ambigs : List Str}
    (last : Last start before ambigtbl ambigs) (w : Str) : Last start (before ++ [w]) ambigtbl ambigs := by
  rcases last with none | ⟨front, v, s, earlier, later, shape, entry, rfl, met, lists⟩
  · exact .inl none
  · exact .inr ⟨front, v, s, earlier, later ++ [w], shape, entry, by simp, met, lists⟩

theorem reporting_step (hash : HashOrder) (header : Str) {start : Table Str} {before : List Str} {key : Key}
    {learned : Learned} {ambigs : List Str} (reporting : Reporting start before key learned ambigs) {w : Str}
    (word : DigitFree w) (readable : ∃ p, plain w = .ok p) :
    ∃ key' learned' ambigs', exmacronizeWord hash header (key, learned) w = .ok (key', learned') ∧
      Reporting start (before ++ [w]) key' learned' ambigs' := by
  obtain ⟨key', learned', ran, ready, entered, _⟩ :=
    exmacronizeWord_step hash header w key learned reporting.ready word readable
  obtain ⟨p, same⟩ := readable
  have plainWord := plain_digitFree same word
  have wf := reporting.ready.wellFormed
  have row (v : Str) : v ∈ chain key.keytbl p ↔ plain v = plain w ∧ (Stored start v ∨ v ∈ before) := by
    rw [wf.mem_chain plainWord, same, reporting.stored, and_comm]
  have stored : ∀ v, Stored key'.keytbl v ↔ Stored start v ∨ v ∈ before ++ [w] := by
    intro v
    have forms : Stored key'.keytbl v ↔ v ∈ (key.ledger.record (header, w)).forms := by rw [← entered]; rfl
    rw [forms, Ledger.record, List.mem_append, List.mem_singleton, ← or_assoc, ← reporting.stored v, or_comm]
    rfl
  by_cases known : w ∈ chain key.keytbl p
  · have old := ((row w).mp known).2
    obtain ⟨freq, headers, counted, sourced⟩ := reporting.ready.counted w ((reporting.stored w).mpr old)
    have stepped := exmacronizeWord_known hash header w p key learned freq headers same known counted sourced
    rw [stepped] at ran
    cases ran
    have settled : ¬ Met start before w := fun met => old.elim met.unknown met.first
    exact ⟨_, _, ambigs, stepped, ready, stored, reporting.news.known old rfl, reporting.distinct, reporting.ambigcount,
      fun v => by simp [ambiguousNew_concat, reporting.ambiguous v, settled], reporting.last.concat w⟩
  · have fresh : ¬ (Stored start w ∨ w ∈ before) := fun old => known ((row w).mpr ⟨rfl, old⟩)
    have unknown : ¬ Stored start w := fun old => fresh (.inl old)
    have first : w ∉ before := fun old => fresh (.inr old)
    have free : field key.keytbl (slot p (chain key.keytbl p).length) = none := by
      rw [wf.represents.held p _ plainWord, ← wf.represents.chain p plainWord]
      exact List.getElem?_eq_none le_rfl
    by_cases empty : chain key.keytbl p = []
    · have stepped := exmacronizeWord_first hash header w p key learned same empty
      rw [stepped] at ran
      cases ran
      rw [empty] at free
      have alone : ¬ Met start before w := by
        intro met
        obtain ⟨v, parallel, old⟩ := met.parallel
        have member := (row v).mpr ⟨parallel, old⟩
        rw [empty] at member
        cases member
      exact ⟨_, _, ambigs, stepped, ready, stored, reporting.news.insert free rfl rfl rfl unknown, reporting.distinct,
        reporting.ambigcount, fun v => by simp [ambiguousNew_concat, reporting.ambiguous v, alone],
          reporting.last.concat w⟩
    · have stepped := exmacronizeWord_ambiguous hash header w p key learned same empty known
      rw [stepped] at ran
      cases ran
      obtain ⟨v, member⟩ := List.exists_mem_of_ne_nil _ empty
      have met : Met start before w := ⟨first, unknown, v, (row v).mp member⟩
      obtain ⟨forms, perm, written⟩ := parstr_forms hash wf p
      have lists : Lists start before w (parstr hash (parallels key.keytbl p)) :=
        ⟨forms, perm.nodup_iff.mpr (wf.chain_nodup p), fun v => perm.mem_iff.trans (row v), written⟩
      refine ⟨_, _, ambigs ++ [w], stepped, ready, stored, reporting.news.insert free rfl rfl rfl unknown, ?_,
        ?_, ?_, ?_⟩
      · rw [List.nodup_append]
        refine ⟨reporting.distinct, List.nodup_singleton w, fun a old b new same => ?_⟩
        rw [same, List.mem_singleton.mp new] at old
        exact first ((reporting.ambiguous w).mp old).mem
      · rw [List.length_append, reporting.ambigcount]
        rfl
      · exact fun v => by simp [ambiguousNew_concat, reporting.ambiguous v, met]
      · exact .inr ⟨ambigs, w, _, before, [], rfl, rfl, rfl, met, lists⟩

theorem reporting_run (hash : HashOrder) (header : Str) {start : Table Str} (tokens : List Str) {before : List Str}
    {key : Key} {learned : Learned} {ambigs : List Str} (reporting : Reporting start before key learned ambigs)
    (letters : ∀ w ∈ tokens, DigitFree w ∧ ∃ p, plain w = .ok p) :
    ∃ key' learned' ambigs', tokens.foldlM (exmacronizeWord hash header) (key, learned) = .ok (key', learned') ∧
      Reporting start (before ++ tokens) key' learned' ambigs' := by
  induction tokens generalizing before key learned ambigs with
  | nil => exact ⟨key, learned, ambigs, rfl, by rwa [List.append_nil]⟩
  | cons w tokens ih =>
      have first := letters w (by simp)
      obtain ⟨key₁, learned₁, ambigs₁, stepped, middle⟩ := reporting_step hash header reporting first.1 first.2
      obtain ⟨key', learned', ambigs', ran, final⟩ := ih middle fun v member => letters v (by simp [member])
      rw [List.append_assoc, List.singleton_append] at final
      exact ⟨key', learned', ambigs', by rw [List.foldlM_cons, stepped]; exact ran, final⟩

theorem reporting_start {key : Key} (ready : Ready key) : Reporting key.keytbl [] key ⟨∅, 0, none, 0⟩ [] where
  ready
  stored v := by simp
  news := ⟨rfl, fun k v found => (List.not_mem_nil (mem_of_field found)).elim,
    fun v => iff_of_false (fun ⟨k, found⟩ => List.not_mem_nil (mem_of_field found)) (by simp)⟩
  distinct := List.nodup_nil
  ambigcount := rfl
  ambiguous v := by simp [AmbiguousNew]
  last := .inl ⟨rfl, rfl⟩

theorem reporting_report {start : Table Str} {tokens : List Str} {key : Key} {learned : Learned} {ambigs : List Str}
    (reporting : Reporting start tokens key learned ambigs) :
    FullReport start tokens learned ↔ ∀ v w, AmbiguousNew start tokens v → AmbiguousNew start tokens w → v = w := by
  constructor
  · intro report
    have size := report.ambigcount
    rw [← reporting.ambigcount] at size
    intro v w first second
    rw [← reporting.ambiguous] at first second
    rcases reporting.last with ⟨_, empty⟩ | ⟨front, u, s, _, _, shape, entry, _⟩
    · rw [empty] at first
      cases first
    · rw [entry, shape, List.length_append] at size
      have alone : front = [] := List.eq_nil_of_length_eq_zero (Nat.succ.inj size).symm
      rw [shape, alone, List.nil_append, List.mem_singleton] at first second
      rw [first, second]
  · intro equal
    have once : ∀ k k' w, field learned.newtbl k = some w → field learned.newtbl k' = some w → k = k' :=
      fun k k' w found found' => reporting.ready.wellFormed.distinct k k' w (reporting.news.kept k w found)
        (reporting.news.kept k' w found')
    rcases reporting.last with ⟨none, empty⟩ | ⟨front, u, s, earlier, later, shape, entry, split, met, lists⟩
    · have never (v : Str) : ¬ AmbiguousNew start tokens v := by simp [← reporting.ambiguous, empty]
      refine ⟨reporting.news.newcount, reporting.news.new, once, ?_, fun v => ?_, fun before v after here met => ?_⟩
      · rw [none, ← reporting.ambigcount, empty]
        rfl
      · rw [none]
        exact iff_of_false List.not_mem_nil (never v)
      · exact absurd ⟨before, after, here, met⟩ (never v)
    · have ambiguous : AmbiguousNew start tokens u := ⟨earlier, later, split, met⟩
      have alone : front = [] := by
        cases front with
        | nil => rfl
        | cons v front =>
            have other : AmbiguousNew start tokens v := (reporting.ambiguous v).mp (by simp [shape])
            have distinct := reporting.distinct
            rw [shape, equal v u other ambiguous] at distinct
            simp at distinct
      refine ⟨reporting.news.newcount, reporting.news.new, once, ?_, fun v => ?_, fun before v after here met' => ?_⟩
      · rw [entry, ← reporting.ambigcount, shape, alone]
        rfl
      · rw [entry, Option.getD_some, AList.mem_insert, ← reporting.ambiguous, shape, alone]
        simp
      · have same : v = u := equal v u ⟨before, after, here, met'⟩ ambiguous
        subst same
        rw [entry, Option.getD_some, met_once here split met'.first met.first]
        exact ⟨s, field_insert _ _ _, lists⟩

/-- The report of a text is complete exactly when no two of its new forms are ambiguous. -/
theorem exmacronize_report (hash : HashOrder) (key : Key) (text header : Str) (ready : Ready key)
    (valid : Utf8.Valid text) :
    ∃ key' learned, exmacronize hash key text header = .ok (key', learned) ∧
      (FullReport key.keytbl (words text) learned ↔
        ∀ v w, AmbiguousNew key.keytbl (words text) v → AmbiguousNew key.keytbl (words text) w → v = w) := by
  obtain ⟨key', learned, ambigs, ran, reporting⟩ := reporting_run hash header (words text) (reporting_start ready)
    fun _ member => ⟨digitFree_of_letters (words_letters member), plain_valid (words_valid valid member)⟩
  rw [List.nil_append] at reporting
  exact ⟨key', learned, ran, reporting_report reporting⟩

/-- Of two ambiguous words in one text only the last is reported. -/
theorem exmacronize_two : ¬ ∀ (hash : HashOrder) (key : Key) (text header : Str), Ready key → Utf8.Valid text →
    ∃ key' learned, exmacronize hash key text header = .ok (key', learned) ∧ FullReport key.keytbl (words text) learned := by
  intro claim
  have ready : Ready Key.empty := ⟨wellFormed_empty, fun w ⟨k, found⟩ => (List.not_mem_nil (mem_of_field found)).elim⟩
  obtain ⟨key', learned, ran, report⟩ := claim .stored Key.empty (lit "hoc hōc mala mālā") (lit "Cicero") ready
    (Utf8.valid_of_chars _ (by decide) (by decide))
  have tables : (exmacronize .stored Key.empty (lit "hoc hōc mala mālā") (lit "Cicero")).map
      (fun result => ((result.2.ambigtbl.getD ∅).keys.length, result.2.ambigcount)) = .ok (1, 2) := by
    decide
  rw [ran] at tables
  have size := report.ambigcount
  have one : (learned.ambigtbl.getD ∅).keys.length = 1 := congrArg Prod.fst (Except.ok.inj tables)
  have two : learned.ambigcount = 2 := congrArg Prod.snd (Except.ok.inj tables)
  rw [one, two] at size
  cases size

/-- One ambiguous word is reported. -/
theorem exmacronize_report_hoc : ∃ key' learned,
    exmacronize .stored hocKey (lit "hoc hōc") (lit "Cicero") = .ok (key', learned) ∧
      (FullReport hocKey.keytbl (words (lit "hoc hōc")) learned ↔
        ∀ v w, AmbiguousNew hocKey.keytbl (words (lit "hoc hōc")) v → AmbiguousNew hocKey.keytbl (words (lit "hoc hōc")) w →
          v = w) :=
  exmacronize_report .stored hocKey _ _ ⟨hocKey_wellFormed, hocKey_counted⟩
    (Utf8.valid_of_chars _ (by decide) (by decide))

end Maccer
