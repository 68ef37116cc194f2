import Maccer.Fixkey
import Maccer.Learning

/-! The key stays well-formed under the operations of the scripts. -/

namespace Maccer

open Lua

theorem addReplacement_eq (keytbl : Table Str) (repl q : Str) :
    addReplacement keytbl repl q = learnForm keytbl repl q := by
  unfold addReplacement
  rw [getpars_eq]
  by_cases empty : chain keytbl q = []
  · have free : field keytbl q = none := by simpa [empty] using field_after_chain keytbl q
    simp [free, empty, learnForm]
  · have positive : (chain keytbl q).length ≠ 0 := by simpa using empty
    have filled : field keytbl q ≠ none := by
      have first := field_in_chain keytbl q 0 (by omega)
      rw [slot_zero] at first
      simp [first, empty]
    by_cases present : repl ∈ chain keytbl q
    · have parallel : field (parallels keytbl q) repl ≠ none := by
        simpa [field_parallels_none] using present
      simp [filled, empty, parallel, learnForm, present]
    · have parallel := (field_parallels_none keytbl q repl).mpr present
      simp [filled, empty, parallel, learnForm, present, slot_pos q _ positive]

theorem exmacronizeWord_keytbl (hash : HashOrder) (header w : Str) (state next : Key × Learned)
    (ran : exmacronizeWord hash header state w = .ok next) :
    ∃ p, plain w = .ok p ∧ next.1.keytbl = learnForm state.1.keytbl w p := by
  obtain ⟨p, same, keytbl, _⟩ := exmacronizeWord_cases hash header w _ _ _ _ ran
  exact ⟨p, same, keytbl⟩

theorem exmacronizeWord_wellFormed (hash : HashOrder) (header : Str) (tokens : List Str)
    (state next : Key × Learned) (wf : WellFormed state.1.keytbl)
    (letters : ∀ w ∈ tokens, DigitFree w)
    (ran : tokens.foldlM (exmacronizeWord hash header) state = .ok next) :
    WellFormed next.1.keytbl := by
  induction tokens generalizing state with
  | nil =>
      cases ran
      exact wf
  | cons w tokens ih =>
      rw [List.foldlM_cons] at ran
      obtain ⟨middle, stepped, rest⟩ := bind_eq_ok.mp ran
      obtain ⟨p, same, grown⟩ := exmacronizeWord_keytbl hash header w state middle stepped
      refine ih middle ?_ (fun v member => letters v (by simp [member])) rest
      rw [grown]
      exact wf.learnForm same (letters w (by simp))

/-- What `replaceword` needs to keep the key well-formed: the old form is not
stored, or the new one is added under another plain word, or it is stored. -/
def Apart (keytbl : Table Str) (orig repl : Str) : Prop :=
  ¬ Stored keytbl orig ∨ plain orig ≠ plain repl ∨ Stored keytbl repl

instance (keytbl : Table Str) (orig repl : Str) : Decidable (Apart keytbl orig repl) := by
  unfold Apart
  infer_instance

/-- The parallels are counted before the new form is added, and the removal uses that count. -/
theorem replacement_refines {keytbl : Table Str} {d : Dictionary} (rep : Represents keytbl d)
    {orig repl p q : Str} (replPlain : plain repl = .ok q)
    (origWord : DigitFree p) (replWord : DigitFree q) (apart : p ≠ q ∨ repl ∈ chain keytbl q) :
    Represents (keyremoveAt (addReplacement keytbl repl q) orig p (parallels keytbl p)
      (chain keytbl p).length) ((d.learn repl q replPlain replWord).forget orig p) := by
  have grown := rep.learnForm replPlain replWord
  have kept : chain (learnForm keytbl repl q) p = chain keytbl p := by
    rcases apart with other | present
    · rw [grown.chain p origWord, rep.chain p origWord]
      simp [Dictionary.learn, other]
    · rw [learnForm, if_pos present]
  have removed := keyremoveAt_refines grown (w := orig) origWord
  rwa [parallels, kept, ← parallels, ← addReplacement_eq] at removed

theorem moveCounts_keytbl {key key' : Key} {orig repl : Str}
    (ran : moveCounts key orig repl = .ok key') : key'.keytbl = key.keytbl := by
  unfold moveCounts at ran
  split at ran
  · cases ran
  · simp only at ran
    split at ran
    · cases ran
    · split at ran
      · cases ran
      · cases ran
        rfl

/-- `replaceword` leaves the key alone, or adds one form and removes the other. -/
theorem replaceword_keytbl (t : Tables) (fuel : Nat) (s s' : Session) (orig repl : Str)
    (ran : replaceword t fuel s orig repl = .ok s') :
    ∃ p q, plain orig = .ok p ∧ plain repl = .ok q ∧
      s'.key.keytbl = if orig ∈ chain s.key.keytbl p then
        keyremoveAt (addReplacement s.key.keytbl repl q) orig p (parallels s.key.keytbl p)
          (chain s.key.keytbl p).length
      else s.key.keytbl := by
  unfold replaceword at ran
  obtain ⟨p, origPlain, ran⟩ := bind_eq_ok.mp ran
  obtain ⟨q, replPlain, ran⟩ := bind_eq_ok.mp ran
  refine ⟨p, q, origPlain, replPlain, ?_⟩
  rw [getpars_eq] at ran
  by_cases empty : chain s.key.keytbl p = []
  · rw [if_pos empty] at ran
    cases ran
    simp [empty]
  · rw [if_neg empty] at ran
    simp only [field_parallels_none] at ran
    split at ran
    case isTrue absent =>
        cases ran
        rw [if_neg absent]
    case isFalse present =>
        obtain ⟨textstbl, _, ran⟩ := bind_eq_ok.mp ran
        obtain ⟨key, moved, ran⟩ := bind_eq_ok.mp ran
        cases ran
        rw [if_pos (not_not.mp present)]
        exact moveCounts_keytbl moved

theorem replaceword_wellFormed (t : Tables) (fuel : Nat) (s s' : Session) (orig repl : Str)
    (wf : WellFormed s.key.keytbl) (origWord : DigitFree orig) (replWord : DigitFree repl)
    (apart : Apart s.key.keytbl orig repl) (ran : replaceword t fuel s orig repl = .ok s') :
    WellFormed s'.key.keytbl := by
  obtain ⟨p, q, origPlain, replPlain, changed⟩ := replaceword_keytbl t fuel s s' orig repl ran
  have origDigits := plain_digitFree origPlain origWord
  have replDigits := plain_digitFree replPlain replWord
  have rep := wf.represents
  have storedOrig := rep.stored_plain origPlain
  have storedRepl := rep.stored_plain replPlain
  rw [← rep.chain p origDigits] at storedOrig
  rw [← rep.chain q replDigits] at storedRepl
  rw [changed]
  split
  case isTrue present =>
      refine (replacement_refines rep replPlain origDigits replDigits ?_).wellFormed
      rcases apart with gone | other | stored
      · exact absurd (storedOrig.mpr present) gone
      · exact .inl fun same => other (by rw [origPlain, replPlain, same])
      · exact .inr (storedRepl.mp stored)
  case isFalse => exact wf

theorem replaceword_breaks (t : Tables) (fuel : Nat) (s s' : Session) (orig repl : Str)
    (wf : WellFormed s.key.keytbl) (origWord : DigitFree orig)
    (mixed : ¬ Apart s.key.keytbl orig repl) (ran : replaceword t fuel s orig repl = .ok s') :
    ¬ WellFormed s'.key.keytbl := by
  intro after
  simp only [Apart, not_or, not_not] at mixed
  obtain ⟨stored, same, unknown⟩ := mixed
  obtain ⟨p, q, origPlain, replPlain, changed⟩ := replaceword_keytbl t fuel s s' orig repl ran
  have words : p = q := by simpa [origPlain, replPlain] using same
  subst words
  have word := plain_digitFree origPlain origWord
  have rep := wf.represents
  rw [rep.stored_plain origPlain, ← rep.chain p word] at stored
  rw [rep.stored_plain replPlain, ← rep.chain p word] at unknown
  obtain ⟨i, here, found⟩ := field_parallels s.key.keytbl p orig stored
  have inside := (List.getElem?_eq_some_iff.mp here).1
  have slots (m : Nat) := keyremoveAt_field (addReplacement s.key.keytbl repl p) _ orig p i _ m
    word found inside
  rw [if_pos stored] at changed
  rw [← changed] at slots
  obtain ⟨last, count⟩ : ∃ last, (chain s.key.keytbl p).length = last + 1 :=
    ⟨(chain s.key.keytbl p).length - 1, by omega⟩
  have gap : field s'.key.keytbl (slot p last) = none := by
    rw [slots, if_pos (by omega)]
  have beyond : field s'.key.keytbl (slot p (last + 1)) = some repl := by
    rw [slots, if_neg (by omega), if_neg (by omega), addReplacement_eq, learnForm, if_neg unknown,
      count, field_insert]
  exact (field_eq_none _ _).mp gap (after.unbroken p last word (mem_of_field beyond))

/-! Runs of the operations. -/

inductive Op where
  | exmacronize (text header : Str)
  | addword (w : Str)
  | keyremove (w : Str)
  | replaceword (orig repl : Str)

def Op.run (t : Tables) (fuel : Nat) (s : Session) : Op → Run Session
  | .exmacronize text header =>
      (fun result => { s with key := result.1 }) <$> Maccer.exmacronize t.hash s.key text header
  | .addword w =>
      (fun result => { s with key.keytbl := result.1 }) <$> Maccer.addword s.key.keytbl w
  | .keyremove w => (fun keytbl => { s with key.keytbl := keytbl }) <$> Maccer.keyremove s.key.keytbl w
  | .replaceword orig repl => Maccer.replaceword t fuel s orig repl

/-- The operation is used on digit-free words, and as its callers use it. The
words that `exmacronize` takes from a text hold no digits. -/
def Op.Proper (s : Session) : Op → Prop
  | .exmacronize _ _ => True
  | .addword w => DigitFree w
  | .keyremove w => Stored s.key.keytbl w
  | .replaceword orig repl => orig ≠ repl ∧ DigitFree orig ∧ DigitFree repl

def Op.Apart (s : Session) : Op → Prop
  | .replaceword orig repl => Maccer.Apart s.key.keytbl orig repl
  | _ => True

theorem Op.step_wellFormed (t : Tables) (fuel : Nat) (op : Op) (s s' : Session)
    (wf : WellFormed s.key.keytbl) (proper : op.Proper s) (apart : op.Apart s)
    (ran : op.run t fuel s = .ok s') : WellFormed s'.key.keytbl := by
  cases op with
  | exmacronize text header =>
      obtain ⟨⟨key, learned⟩, counted, rfl⟩ := map_eq_ok.mp ran
      exact exmacronizeWord_wellFormed t.hash header (words text) _ _ wf
        (fun w member => digitFree_of_letters (words_letters member)) counted
  | addword w =>
      obtain ⟨result, added, rfl⟩ := map_eq_ok.mp ran
      cases same : plain w with
      | error fault => simp [Maccer.addword, same] at added
      | ok p =>
          rw [addword_eq _ same] at added
          cases added
          exact wf.learnForm same proper
  | keyremove w =>
      obtain ⟨keytbl, removed, rfl⟩ := map_eq_ok.mp ran
      obtain ⟨p, stored⟩ := (wf.represents.stored_iff w).mp proper
      have word := wf.dictionary.word p w stored
      rw [← wf.represents.chain p word] at stored
      rw [keyremove_eq _ (wf.plain_of_chain word stored) (List.ne_nil_of_mem stored)] at removed
      cases removed
      exact (keyremoveAt_refines wf.represents word).wellFormed
  | replaceword orig repl =>
      exact replaceword_wellFormed t fuel s s' orig repl wf proper.2.1 proper.2.2 apart ran

def Reached (t : Tables) (allowed : Session → Op → Prop) : Session → Session → Prop :=
  Relation.ReflTransGen fun s s' => ∃ fuel op, allowed s op ∧ op.run t fuel s = .ok s'

theorem WellFormed.reachable {keytbl : Table Str} (wf : WellFormed keytbl) {w : Str}
    (stored : Stored keytbl w) :
    ∃ p partbl parcount nextkey, plain w = .ok p ∧
      getpars keytbl p false = some (partbl, parcount, nextkey) ∧ field partbl w ≠ none := by
  obtain ⟨p, member⟩ := (wf.represents.stored_iff w).mp stored
  have word := wf.dictionary.word p w member
  rw [← wf.represents.chain p word] at member
  refine ⟨p, parallels keytbl p, (chain keytbl p).length, slot p (chain keytbl p).length,
    wf.plain_of_chain word member, ?_, ?_⟩
  · rw [getpars_eq, if_neg (List.ne_nil_of_mem member)]
  · rw [Ne, field_parallels_none]
    exact fun absent => absent member

/-- In a run whose replacements keep the two forms apart the key stays well-formed,
and every stored form can be looked up. -/
theorem wellFormed_of_reached (t : Tables) (start s : Session) (wf : WellFormed start.key.keytbl)
    (reached : Reached t (fun s op => op.Proper s ∧ op.Apart s) start s) :
    WellFormed s.key.keytbl ∧ ∀ w, Stored s.key.keytbl w →
      ∃ p partbl parcount nextkey, plain w = .ok p ∧
        getpars s.key.keytbl p false = some (partbl, parcount, nextkey) ∧ field partbl w ≠ none := by
  have invariant : WellFormed s.key.keytbl := by
    induction reached with
    | refl => exact wf
    | tail _ step ih =>
        obtain ⟨fuel, op, ⟨proper, apart⟩, ran⟩ := step
        exact op.step_wellFormed t fuel _ _ ih proper apart ran
  exact ⟨invariant, fun w stored => invariant.reachable stored⟩

def tectumSession : Session where
  key :=
    { keytbl := learnForm ∅ (lit "tectum") (lit "tectum")
      freqtbl := AList.insert (lit "tectum") 0 ∅
      headerstbl := AList.insert (lit "tectum") ∅ ∅
      headersbynumtbl := [] }
  textstbl := ∅

theorem tectum_words : plain (lit "tectum") = .ok (lit "tectum") ∧ DigitFree (lit "tectum") ∧ DigitFree (lit "tecta") ∧
    DigitFree (lit "tēctum") := by
  decide

theorem tectumSession_wellFormed : WellFormed tectumSession.key.keytbl :=
  wellFormed_empty.learnForm tectum_words.1 tectum_words.2.1

theorem wellFormed_of_reached_tecta :
    ∃ s : Session, Stored s.key.keytbl (lit "tecta") ∧ WellFormed s.key.keytbl := by
  have returns : (fun s : Session => field s.key.keytbl (lit "tecta")) <$>
      replaceword .empty 9 tectumSession (lit "tectum") (lit "tecta") = .ok (some (lit "tecta")) := by
    decide
  obtain ⟨s, ran, stored⟩ := map_eq_ok.mp returns
  have proper : Op.Proper tectumSession (.replaceword (lit "tectum") (lit "tecta")) :=
    ⟨by decide, tectum_words.2.1, tectum_words.2.2.1⟩
  have apart : Apart tectumSession.key.keytbl (lit "tectum") (lit "tecta") := by decide
  have kept := wellFormed_of_reached .empty tectumSession s tectumSession_wellFormed
    (.single ⟨9, _, ⟨proper, apart⟩, ran⟩)
  exact ⟨s, ⟨_, stored⟩, kept.1⟩

/-- Replacing `tectum` with `tēctum` leaves the new form under `tectum1` alone. -/
theorem wellFormed_tectum_replaced :
    ¬ ∀ (t : Tables) (start s : Session), WellFormed start.key.keytbl →
      Reached t (fun s op => op.Proper s) start s → WellFormed s.key.keytbl := by
  intro claim
  have returns : (replaceword .empty 9 tectumSession (lit "tectum") (lit "tēctum")).toBool = true := by
    decide
  obtain ⟨s, ran⟩ := exists_ok returns
  have proper : Op.Proper tectumSession (.replaceword (lit "tectum") (lit "tēctum")) :=
    ⟨by decide, tectum_words.2.1, tectum_words.2.2.2⟩
  have mixed : ¬ Apart tectumSession.key.keytbl (lit "tectum") (lit "tēctum") := by decide
  exact replaceword_breaks .empty 9 tectumSession s _ _ tectumSession_wellFormed proper.2.1 mixed ran
    (claim .empty tectumSession s tectumSession_wellFormed (.single ⟨9, _, proper, ran⟩))

end Maccer
