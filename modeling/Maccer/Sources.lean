import Maccer.Headers
import Maccer.Learning

/-! Which sources are registered when the key is saved. -/

namespace Maccer

open Lua

def Known (keytbl : Table Str) (w : Str) : Prop := ∃ p, plain w = .ok p ∧ w ∈ chain keytbl p

def learnWord (keytbl : Table Str) (w : Str) : Table Str :=
  match plain w with
  | .ok p => learnForm keytbl w p
  | .error _ => keytbl

def learnWords (keytbl : Table Str) (tokens : List Str) : Table Str := tokens.foldl learnWord keytbl

theorem known_iff {keytbl : Table Str} {w p : Str} (same : plain w = .ok p) :
    Known keytbl w ↔ w ∈ chain keytbl p := by
  constructor
  · rintro ⟨q, other, member⟩
    rwa [Except.ok.inj (same.symm.trans other)]
  · exact fun member => ⟨p, same, member⟩

theorem Known.learnWord {keytbl : Table Str} {v : Str} (known : Known keytbl v) (w : Str) :
    Known (learnWord keytbl w) v := by
  obtain ⟨q, same, member⟩ := known
  unfold Maccer.learnWord learnForm
  split
  · split
    · exact ⟨q, same, member⟩
    · exact ⟨q, same, mem_chain_insert (field_after_chain keytbl _) member⟩
  · exact ⟨q, same, member⟩

theorem known_learnWord (keytbl : Table Str) {w p : Str} (same : plain w = .ok p) :
    Known (learnWord keytbl w) w := by
  unfold learnWord learnForm
  simp only [same]
  split
  case isTrue member => exact ⟨p, same, member⟩
  case isFalse => exact ⟨p, same, mem_chain_self keytbl p w⟩

theorem learnWord_known {keytbl : Table Str} {w : Str} (known : Known keytbl w) :
    learnWord keytbl w = keytbl := by
  obtain ⟨p, same, member⟩ := known
  simp [learnWord, same, learnForm, member]

theorem Known.stored {keytbl : Table Str} {w : Str} (known : Known keytbl w) : Stored keytbl w := by
  obtain ⟨p, _, member⟩ := known
  obtain ⟨i, here, _⟩ := (mem_chain_iff keytbl p w).mp member
  exact ⟨slot p i, here⟩

theorem stored_insert {keytbl : Table Str} {k w v : Str} (stored : Stored (keytbl.insert k w) v) :
    Stored keytbl v ∨ v = w := by
  obtain ⟨other, found⟩ := stored
  by_cases here : other = k
  · rw [here, field_insert] at found
    exact .inr (Option.some.inj found).symm
  · rw [field_insert_ne _ _ _ _ here] at found
    exact .inl ⟨other, found⟩

theorem stored_learnWord {keytbl : Table Str} {w v : Str} (stored : Stored (learnWord keytbl w) v) :
    Stored keytbl v ∨ v = w := by
  unfold learnWord learnForm at stored
  split at stored
  · split at stored
    · exact .inl stored
    · exact stored_insert stored
  · exact .inl stored

def Carries (key : Key) (w h : Str) : Prop :=
  ∃ headers, field key.headerstbl w = some headers ∧ h ∈ headers

def Within (key : Key) (listed : List Str) : Prop :=
  ∀ w, Stored key.keytbl w → ∃ headers, field key.headerstbl w = some headers ∧
    ∀ h ∈ headers, h ∈ listed

def Registered (key : Key) : Prop := Within key key.headersbynumtbl

theorem Within.mono {key : Key} {first second : List Str} (within : Within key first)
    (subset : ∀ h ∈ first, h ∈ second) : Within key second := by
  intro w stored
  obtain ⟨headers, sourced, listed⟩ := within w stored
  exact ⟨headers, sourced, fun h member => subset h (listed h member)⟩

/-! One word. -/

section

variable {hash : HashOrder} {header w : Str} {key key' : Key} {learned learned' : Learned}

theorem exmacronizeWord_effect
    (ran : exmacronizeWord hash header (key, learned) w = .ok (key', learned')) :
    key'.keytbl = learnWord key.keytbl w ∧ key'.headersbynumtbl = key.headersbynumtbl ∧
      Known key'.keytbl w ∧ Carries key' w header ∧
      (learned.newcount ≤ learned'.newcount) ∧
      (learned'.newcount = learned.newcount ↔ Known key.keytbl w) ∧
      (∀ v h, Known key.keytbl v → Carries key v h → Carries key' v h) ∧
      ∀ listed, header ∈ listed → Within key listed → Within key' listed := by
  obtain ⟨p, same, keytbl, registered, effect⟩ := exmacronizeWord_cases _ _ _ _ _ _ _ ran
  have learns : key'.keytbl = learnWord key.keytbl w := by rw [keytbl, learnWord, same]
  refine ⟨learns, registered, learns ▸ known_learnWord _ same, ?_⟩
  rcases effect with ⟨member, rfl, headers, sourced, now⟩ | ⟨unknown, more, now⟩
  · have known : Known key.keytbl w := ⟨p, same, member⟩
    refine ⟨⟨_, by rw [now]; exact field_insert _ _ _, by simp⟩, le_rfl, by simp [known], ?_, ?_⟩
    · rintro v h _ ⟨others, found, carried⟩
      by_cases here : v = w
      · subst here
        rw [sourced] at found
        cases found
        exact ⟨_, by rw [now]; exact field_insert _ _ _, by simp [carried]⟩
      · exact ⟨others, by rw [now, field_insert_ne _ _ _ _ here, found], carried⟩
    · intro listed registers within v stored
      rw [learns, learnWord_known known] at stored
      obtain ⟨others, found, each⟩ := within v stored
      by_cases here : v = w
      · subst here
        rw [sourced] at found
        cases found
        refine ⟨_, by rw [now]; exact field_insert _ _ _, fun h carried => ?_⟩
        rcases (AList.mem_insert _).mp carried with rfl | old
        · exact registers
        · exact each h old
      · exact ⟨others, by rw [now, field_insert_ne _ _ _ _ here, found], each⟩
  · have new : ¬ Known key.keytbl w := fun known => unknown ((known_iff same).mp known)
    refine ⟨⟨_, by rw [now]; exact field_insert _ _ _, (AList.mem_insert _).mpr (.inl rfl)⟩,
      by omega, ?_, ?_, ?_⟩
    · constructor
      · intro equal
        omega
      · exact fun known => absurd known new
    · rintro v h known ⟨others, found, carried⟩
      have apart : v ≠ w := fun here => new (here ▸ known)
      exact ⟨others, by rw [now, field_insert_ne _ _ _ _ apart, found], carried⟩
    · intro listed registers within v stored
      by_cases here : v = w
      · subst here
        refine ⟨_, by rw [now]; exact field_insert _ _ _, fun h carried => ?_⟩
        rcases (AList.mem_insert _).mp carried with rfl | old
        · exact registers
        · exact absurd old (by simp)
      · rw [learns] at stored
        obtain ⟨others, found, each⟩ := within v ((stored_learnWord stored).resolve_right here)
        exact ⟨others, by rw [now, field_insert_ne _ _ _ _ here, found], each⟩

end

/-! One source. -/

/-- The words of a source, learned under its header: the source has given no new form
just when the key had all its words. -/
theorem exmacronize_effect (hash : HashOrder) (header : Str) (tokens : List Str)
    (state next : Key × Learned) (ran : tokens.foldlM (exmacronizeWord hash header) state = .ok next) :
    next.1.keytbl = learnWords state.1.keytbl tokens ∧
      next.1.headersbynumtbl = state.1.headersbynumtbl ∧
      (state.2.newcount ≤ next.2.newcount) ∧
      (next.2.newcount = state.2.newcount ↔ ∀ w ∈ tokens, Known state.1.keytbl w) ∧
      (∀ v, Known state.1.keytbl v → Known next.1.keytbl v) ∧
      (∀ v h, Known state.1.keytbl v → Carries state.1 v h → Carries next.1 v h) ∧
      (∀ w ∈ tokens, Known next.1.keytbl w ∧ Carries next.1 w header) ∧
      ∀ listed, header ∈ listed → Within state.1 listed → Within next.1 listed := by
  induction tokens generalizing state with
  | nil =>
      cases ran
      exact ⟨rfl, rfl, le_rfl, by simp, fun _ known => known, fun _ _ _ carried => carried, by simp,
        fun _ _ within => within⟩
  | cons w tokens ih =>
      rw [List.foldlM_cons, bind_eq_ok] at ran
      obtain ⟨⟨key, learned⟩, stepped, rest⟩ := ran
      obtain ⟨keytbl, same, knows, carries, more, fresh, kept, within⟩ :=
        exmacronizeWord_effect stepped
      obtain ⟨keytbl', same', more', fresh', known', kept', tokens', within'⟩ := ih _ rest
      dsimp only at more' fresh'
      have older (v : Str) (known : Known state.1.keytbl v) : Known key.keytbl v :=
        keytbl ▸ known.learnWord w
      refine ⟨?_, same'.trans same, more.trans more', ?_, fun v known => known' v (older v known),
        fun v h known carried => kept' v h (older v known) (kept v h known carried), ?_,
        fun listed registers before => within' listed registers (within listed registers before)⟩
      · rw [keytbl', keytbl]
        rfl
      · constructor
        · intro equal
          have here := fresh.mp (by omega)
          have later := fresh'.mp (by omega)
          rw [keytbl, learnWord_known here] at later
          simpa using ⟨here, later⟩
        · intro all
          have here := all w (by simp)
          have first := fresh.mpr here
          rw [← first]
          refine fresh'.mpr fun v member => ?_
          rw [keytbl, learnWord_known here]
          exact all v (by simp [member])
      · intro v member
        rcases List.mem_cons.mp member with rfl | later
        · exact ⟨known' v knows, kept' v header knows carries⟩
        · exact tokens' v later

/-! The loop over the sources. -/

def formattedWords (t : Tables) (fuel : Nat) (repairOrth : Bool) (text : Str) : List Str :=
  match t.formatsource fuel repairOrth text with
  | .ok formatted => words formatted.text
  | .error _ => []

/-- Every source under a new header that has words has one that the key lacks, when
the words of the sources before it are learned. -/
def Contributing (t : Tables) (fuel : Nat) (repairOrth : Bool) (existingheaders : List Str) :
    List (Str × Str) → Table Str → Prop
  | [], _ => True
  | (header, text) :: sources, keytbl =>
      (header ∉ existingheaders → formattedWords t fuel repairOrth text ≠ [] →
        ∃ w ∈ formattedWords t fuel repairOrth text, ¬ Known keytbl w) ∧
      Contributing t fuel repairOrth existingheaders sources
        (learnWords keytbl (formattedWords t fuel repairOrth text))

structure Processed (existingheaders : List Str) (header : Str) (tokens : List Str) (key key' : Key) :
    Prop where
  learned : key'.keytbl = learnWords key.keytbl tokens
  registers : header ∉ existingheaders → (∃ w ∈ tokens, ¬ Known key.keytbl w) →
    key'.headersbynumtbl = key.headersbynumtbl ++ [header]
  skips : header ∈ existingheaders ∨ (∀ w ∈ tokens, Known key.keytbl w) →
    key'.headersbynumtbl = key.headersbynumtbl
  known : ∀ v, Known key.keytbl v → Known key'.keytbl v
  kept : ∀ v h, Known key.keytbl v → Carries key v h → Carries key' v h
  carried : ∀ w ∈ tokens, Known key'.keytbl w ∧ Carries key' w header
  within : ∀ listed, header ∈ listed → Within key listed → Within key' listed
  idle : tokens = [] → key' = key

section

variable (t : Tables) (fuel : Nat) (repairOrth : Bool) (existingheaders : List Str)

theorem sourceLoop_cons (header text : Str) (sources : List (Str × Str)) (key key' : Key)
    (ran : sourceLoop t fuel repairOrth existingheaders ((header, text) :: sources) key = .ok key') :
    ∃ middle, Processed existingheaders header (formattedWords t fuel repairOrth text) key middle ∧
      sourceLoop t fuel repairOrth existingheaders sources middle = .ok key' := by
  rw [sourceLoop, bind_eq_ok] at ran
  obtain ⟨formatted, format, ran⟩ := ran
  rw [bind_eq_ok] at ran
  obtain ⟨⟨middle, learned⟩, learns, rest⟩ := ran
  have tokens : formattedWords t fuel repairOrth text = words formatted.text := by
    rw [formattedWords, format]
  obtain ⟨keytbl, same, _, fresh, known, kept, carried, within⟩ :=
    exmacronize_effect _ _ _ _ _ learns
  dsimp only at keytbl same fresh known kept carried within
  have new : (∃ w ∈ words formatted.text, ¬ Known key.keytbl w) ↔ learned.newcount > 0 := by
    have none := not_congr fresh
    push Not at none
    rw [← none]
    omega
  refine ⟨_, ?_, rest⟩
  rw [tokens]
  by_cases registers : learned.newcount > 0 ∧ header ∉ existingheaders
  · rw [if_pos registers]
    refine ⟨keytbl, fun _ _ => by rw [same], fun either => ?_, known, kept, carried, within,
      fun empty => ?_⟩
    · rcases either with old | all
      · exact absurd old registers.2
      · obtain ⟨w, member, unknown⟩ := new.mpr registers.1
        exact absurd (all w member) unknown
    · obtain ⟨w, member, _⟩ := new.mpr registers.1
      simp [empty] at member
  · rw [if_neg registers]
    refine ⟨keytbl, fun unregistered unknown => ?_, fun _ => same, known, kept, carried, within,
      fun empty => ?_⟩
    · exact absurd ⟨new.mp unknown, unregistered⟩ registers
    · rw [exmacronize, empty] at learns
      cases learns
      rfl

/-- What the loop keeps: forms, their headers, and the registered headers, to which it
adds none but those of its sources. -/
theorem sourceLoop_keeps (sources : List (Str × Str)) (key key' : Key)
    (ran : sourceLoop t fuel repairOrth existingheaders sources key = .ok key') :
    (∀ v h, Known key.keytbl v → Carries key v h → Known key'.keytbl v ∧ Carries key' v h) ∧
      ∀ h ∈ key'.headersbynumtbl, h ∈ key.headersbynumtbl ∨ h ∈ sources.map Prod.fst := by
  induction sources generalizing key with
  | nil =>
      cases ran
      exact ⟨fun v h known carried => ⟨known, carried⟩, fun h listed => .inl listed⟩
  | cons source sources ih =>
      obtain ⟨header, text⟩ := source
      obtain ⟨middle, processed, rest⟩ := sourceLoop_cons t fuel repairOrth existingheaders _ _ _ _ _ ran
      obtain ⟨kept, listed⟩ := ih middle rest
      constructor
      · intro v h known carried
        exact kept v h (processed.known v known) (processed.kept v h known carried)
      · intro h member
        rcases listed h member with old | later
        · by_cases registers : header ∉ existingheaders ∧
              ∃ w ∈ formattedWords t fuel repairOrth text, ¬ Known key.keytbl w
          · rw [processed.registers registers.1 registers.2] at old
            rcases List.mem_append.mp old with before | new
            · exact .inl before
            · exact .inr (by simp [List.mem_singleton.mp new])
          · rw [processed.skips] at old
            · exact .inl old
            · by_cases before : header ∈ existingheaders
              · exact .inl before
              · refine .inr fun w token => ?_
                by_contra unknown
                exact registers ⟨before, w, token, unknown⟩
        · exact .inr (by simp [later])

theorem sourceLoop_registers (sources : List (Str × Str)) (key key' : Key)
    (ran : sourceLoop t fuel repairOrth existingheaders sources key = .ok key')
    (existing : ∀ h ∈ existingheaders, h ∈ key.headersbynumtbl) (registered : Registered key)
    (contributing : Contributing t fuel repairOrth existingheaders sources key.keytbl) :
    Registered key' := by
  induction sources generalizing key with
  | nil =>
      cases ran
      exact registered
  | cons source sources ih =>
      obtain ⟨header, text⟩ := source
      obtain ⟨middle, processed, rest⟩ := sourceLoop_cons t fuel repairOrth existingheaders _ _ _ _ _ ran
      obtain ⟨here, later⟩ := contributing
      rw [← processed.learned] at later
      by_cases idle : formattedWords t fuel repairOrth text = []
      · rw [processed.idle idle] at rest later
        exact ih key rest existing registered later
      · by_cases before : header ∈ existingheaders
        · have same := processed.skips (.inl before)
          refine ih middle rest (by rwa [same]) ?_ later
          rw [Registered, same]
          exact processed.within _ (existing header before) registered
        · have grown := processed.registers before (here before idle)
          refine ih middle rest (fun h member => ?_) ?_ later
          · simp [grown, existing h member]
          · rw [Registered, grown]
            exact processed.within _ (by simp) (registered.mono fun h member => by simp [member])

/-- A source whose words were all known leaves its header on them, but does not register it. -/
theorem sourceLoop_contributes (sources : List (Str × Str)) (key key' : Key)
    (ran : sourceLoop t fuel repairOrth existingheaders sources key = .ok key')
    (distinct : (sources.map Prod.fst).Nodup)
    (unregistered : ∀ h ∈ sources.map Prod.fst, h ∈ key.headersbynumtbl → h ∈ existingheaders)
    (registered : Registered key') :
    Contributing t fuel repairOrth existingheaders sources key.keytbl := by
  induction sources generalizing key with
  | nil => trivial
  | cons source sources ih =>
      obtain ⟨header, text⟩ := source
      obtain ⟨middle, processed, rest⟩ := sourceLoop_cons t fuel repairOrth existingheaders _ _ _ _ _ ran
      obtain ⟨fresh, distinct⟩ := List.nodup_cons.mp distinct
      obtain ⟨kept, listed⟩ := sourceLoop_keeps t fuel repairOrth existingheaders _ _ _ rest
      constructor
      · intro new some
        by_contra none
        push Not at none
        obtain ⟨w, tokens, shape⟩ := List.exists_cons_of_ne_nil some
        have token : w ∈ formattedWords t fuel repairOrth text := by simp [shape]
        obtain ⟨known, carried⟩ := processed.carried w token
        obtain ⟨known', headers, sourced, member⟩ := kept w header known carried
        obtain ⟨headers', sourced', within⟩ := registered w known'.stored
        rw [sourced] at sourced'
        cases sourced'
        rcases listed header (within header member) with old | later
        · rw [processed.skips (.inr none)] at old
          exact new (unregistered header (by simp) old)
        · exact fresh later
      · rw [← processed.learned]
        refine ih middle rest distinct ?_
        intro h later old
        by_cases same : middle.headersbynumtbl = key.headersbynumtbl
        · exact unregistered h (by simp [later]) (same ▸ old)
        · have grown : middle.headersbynumtbl = key.headersbynumtbl ++ [header] := by
            by_contra other
            refine same (processed.skips ?_)
            by_cases before : header ∈ existingheaders
            · exact .inl before
            · refine .inr fun w token => ?_
              by_contra unknown
              exact other (processed.registers before ⟨w, token, unknown⟩)
          rw [grown] at old
          rcases List.mem_append.mp old with before | here
          · exact unregistered h (by simp [later]) before
          · exact absurd (List.mem_singleton.mp here ▸ later) fresh

end

/-! The ends of the loop: the key that was loaded and the key that is saved. -/

theorem addHeader_within (registered : List Str) (numstbl : Table Nat) (letters : List Str)
    (headers headers' : Table Unit)
    (ran : letters.foldlM (addHeader registered numstbl) headers = .ok headers')
    (within : ∀ h ∈ headers, h ∈ registered) : ∀ h ∈ headers', h ∈ registered := by
  induction letters generalizing headers with
  | nil =>
      cases ran
      exact within
  | cons letter letters ih =>
      rw [List.foldlM_cons, bind_eq_ok] at ran
      obtain ⟨middle, one, rest⟩ := ran
      refine ih middle rest ?_
      unfold addHeader at one
      split at one
      case h_2 => cases one
      case h_1 header found =>
          cases one
          obtain ⟨num, _, place⟩ := Option.bind_eq_some_iff.mp found
          intro h member
          rcases (AList.mem_insert _).mp member with rfl | old
          · exact List.mem_of_getElem? place
          · exact within h old

theorem loadColumns_within (registered : List Str) (numstbl : Table Nat) (keyline : Str)
    (freq : Option Nat) (headers : Table Unit)
    (ran : loadColumns registered numstbl keyline = .ok (freq, headers)) :
    ∀ h ∈ headers, h ∈ registered := by
  unfold loadColumns at ran
  split at ran
  · obtain ⟨columns, _, ran⟩ := bind_eq_ok.mp ran
    split at ran
    · obtain ⟨headers', loaded, ran⟩ := bind_eq_ok.mp ran
      cases ran
      exact addHeader_within _ _ _ _ _ loaded (by simp)
    · cases ran
  · cases ran
    simp

theorem loadWord_within (registered : List Str) (numstbl : Table Nat) (key key' : Key) (keyline : Str)
    (ran : loadWord registered numstbl key keyline = .ok key') (within : Within key registered) :
    Within key' registered := by
  obtain ⟨captures, _, ran⟩ := bind_eq_ok.mp ran
  split at ran
  case h_2 => cases ran
  case h_1 w _ =>
      obtain ⟨⟨freq, headers⟩, columns, ran⟩ := bind_eq_ok.mp ran
      obtain ⟨plainw, _, ran⟩ := bind_eq_ok.mp ran
      cases ran
      intro v stored
      by_cases here : v = w
      · subst here
        exact ⟨headers, field_insert _ _ _, loadColumns_within _ _ _ _ _ columns⟩
      · obtain ⟨others, found, each⟩ := within v ((stored_insert stored).resolve_right here)
        exact ⟨others, by rw [← found]; exact field_insert_ne _ _ _ _ here, each⟩

theorem loadkey_registered (file : Str) (key : Key) (loaded : loadkey file = .ok key) :
    Registered key := by
  have empty (listed : List Str) : Within Key.empty listed := by
    rintro w ⟨k, found⟩
    exact absurd (mem_of_field found) (by simp [Key.empty])
  have run (listed : List Str) (numstbl : Table Nat) (lines : List Str) (first last : Key)
      (ran : lines.foldlM (loadWord listed numstbl) first = .ok last)
      (within : Within first listed) : Within last listed := by
    induction lines generalizing first with
    | nil =>
        cases ran
        exact within
    | cons line lines ih =>
        rw [List.foldlM_cons, bind_eq_ok] at ran
        obtain ⟨middle, one, rest⟩ := ran
        exact ih middle rest (loadWord_within _ _ _ _ _ one within)
  obtain ⟨keystrall, _, loaded⟩ := bind_eq_ok.mp loaded
  obtain ⟨sources, _, loaded⟩ := bind_eq_ok.mp loaded
  obtain ⟨words, _, loaded⟩ := bind_eq_ok.mp loaded
  dsimp only at loaded
  split at loaded
  · cases loaded
    exact empty _
  · split at loaded
    all_goals
      obtain ⟨⟨listed, numstbl⟩, _, loaded⟩ := bind_eq_ok.mp loaded
      obtain ⟨last, ran, loaded⟩ := bind_eq_ok.mp loaded
      cases loaded
      have within := run listed numstbl _ _ _ ran (empty _)
      exact within

theorem indexFrom_listed (headers : List Str) (num : Nat) (t : Table Nat) (h : Str)
    (listed : h ∈ headers ∨ field t h ≠ none) : field (indexFrom headers num t) h ≠ none := by
  induction headers generalizing num t with
  | nil => exact listed.resolve_left (by simp)
  | cons header headers ih =>
      refine ih (num + 1) _ ?_
      by_cases here : h = header
      · right
        rw [here, field_insert]
        simp
      · rw [field_insert_ne _ _ _ _ here]
        exact listed.imp_left fun member => (List.mem_cons.mp member).resolve_left here

theorem lettersOf_returns (hash : HashOrder) (registered : List Str) (headers : Table Unit)
    (listed : ∀ h ∈ headers, h ∈ registered) :
    ∃ letters, lettersOf hash registered headers = .ok letters := by
  have run (entries : List (Str × Unit)) (tbl : Table Str)
      (inside : ∀ e ∈ entries, e.1 ∈ registered) :
      ∃ tbl', entries.foldlM (addLetter (indexFrom registered 1 ∅)) tbl = .ok tbl' := by
    induction entries generalizing tbl with
    | nil => exact ⟨tbl, rfl⟩
    | cons e entries ih =>
        obtain ⟨num, numbered⟩ := Option.ne_none_iff_exists'.mp
          (indexFrom_listed registered 1 ∅ e.1 (.inl (inside e (by simp))))
        obtain ⟨tbl', ran⟩ := ih (tbl.insert (letterkey num) e.1)
          fun other member => inside other (by simp [member])
        exact ⟨tbl', by rw [List.foldlM_cons, addLetter, numbered]; exact ran⟩
  obtain ⟨tbl, ran⟩ := run (pairs hash headers) ∅ fun e member => listed e.1 <| by
    rw [← pairs_keys hash headers]
    exact List.mem_map_of_mem member
  exact ⟨_, by rw [lettersOf, ran]; rfl⟩

theorem savekey_returns (hash : HashOrder) (key : Key) (registered : Registered key) :
    ∃ saved, savekey hash key = .ok saved := by
  have line : ∀ w ∈ (sortedpairs key.keytbl).map Prod.snd, ∃ line, wordline hash key w = .ok line := by
    intro w member
    obtain ⟨⟨k, v⟩, stored, rfl⟩ := List.mem_map.mp member
    obtain ⟨headers, sourced, listed⟩ := registered v ⟨k, (mem_pairs _ _ k v).mp stored⟩
    obtain ⟨letters, ran⟩ := lettersOf_returns hash key.headersbynumtbl headers listed
    unfold wordline
    split
    · exact ⟨v, rfl⟩
    · split
      · simp only [sourced, ran, run_bind_ok, run_pure]
        exact ⟨_, rfl⟩
      · exact ⟨v, rfl⟩
  obtain ⟨lines, ran⟩ : ∃ lines, ((sortedpairs key.keytbl).map Prod.snd).mapM (wordline hash key) =
      .ok lines := by
    generalize (sortedpairs key.keytbl).map Prod.snd = ws at line
    induction ws with
    | nil => exact ⟨[], rfl⟩
    | cons w ws ih =>
        obtain ⟨first, one⟩ := line w (by simp)
        obtain ⟨rest, later⟩ := ih fun v member => line v (by simp [member])
        exact ⟨first :: rest, by simp [List.mapM_cons, one, later]⟩
  exact ⟨_, by simp only [savekey, ran, run_bind_ok, run_pure]; rfl⟩

/-- The key is saved with all its headers registered just when every new source whose
header is not registered contributes a form. -/
theorem learnSources_registered (t : Tables) (fuel : Nat) (repairOrth : Bool) (file : Str)
    (newsourcestbl : Table Str) (key key' : Key) (loaded : loadkey file = .ok key)
    (ran : learnSources t fuel repairOrth newsourcestbl key = .ok key') :
    (Registered key' ∧ ∃ saved, savekey t.hash key' = .ok saved) ↔
      Contributing t fuel repairOrth key.headersbynumtbl (sortedpairs newsourcestbl) key.keytbl := by
  constructor
  · rintro ⟨registered, _⟩
    exact sourceLoop_contributes t fuel repairOrth _ _ _ _ ran (pairs_nodup _ _)
      (fun _ _ listed => listed) registered
  · intro contributing
    have registered := sourceLoop_registers t fuel repairOrth _ _ _ _ ran (fun _ listed => listed)
      (loadkey_registered file key loaded) contributing
    exact ⟨registered, savekey_returns _ _ registered⟩

def galliaFile : Str := lit "A = Gallia\n_____\nhōc\t1\tA\n"

theorem learnSources_gallia :
    (do
      let key ← loadkey galliaFile
      let _ ← learnSources .empty 20 false (AList.insert (lit "Tacitus") (lit "Hōc est") ∅) key
      let known ← learnSources .empty 20 false (AList.insert (lit "Tacitus") (lit "Hōc!") ∅) key
      return (decide (lit "est" ∈ chain key.keytbl (lit "est")), known.headersbynumtbl,
        (field known.headerstbl (lit "hōc")).map fun headers => decide (lit "Tacitus" ∈ headers),
        decide (Stored known.keytbl (lit "hōc")), decide (savekey .stored known = Except.error Fault.raised))) =
      .ok (false, [lit "Gallia"], some true, true, true) ∧
    lit "est" ∈ formattedWords .empty 20 false (lit "Hōc est") := by
  decide +kernel

theorem learnSources_registered_est :
    ∃ key key', loadkey galliaFile = .ok key ∧
      learnSources .empty 20 false (AList.insert (lit "Tacitus") (lit "Hōc est") ∅) key = .ok key' ∧
      Registered key' ∧ ∃ saved, savekey .stored key' = .ok saved := by
  obtain ⟨run, word⟩ := learnSources_gallia
  obtain ⟨key, loaded, run⟩ := bind_eq_ok.mp run
  obtain ⟨key', ran, run⟩ := bind_eq_ok.mp run
  obtain ⟨known, _, after⟩ := bind_eq_ok.mp run
  simp only [run_pure, Except.ok.injEq, Prod.mk.injEq, decide_eq_false_iff_not] at after
  refine ⟨key, key', loaded, ran, ?_⟩
  refine (learnSources_registered .empty 20 false galliaFile _ key key' loaded ran).mpr ?_
  have sources : sortedpairs (AList.insert (lit "Tacitus") (lit "Hōc est") ∅) =
      [(lit "Tacitus", lit "Hōc est")] := by decide
  rw [sources]
  refine ⟨fun _ _ => ⟨lit "est", word, ?_⟩, trivial⟩
  rw [known_iff (p := lit "est") (by decide)]
  exact after.1

/-- When the new source has only the form that the key has, the form gets a header that
is not registered, and saving fails. -/
theorem learnSources_known_unregistered :
    ∃ key key', loadkey galliaFile = .ok key ∧ Registered key ∧
      learnSources .empty 20 false (AList.insert (lit "Tacitus") (lit "Hōc!") ∅) key = .ok key' ∧
      ¬ Registered key' ∧ savekey .stored key' = .error .raised := by
  obtain ⟨key, loaded, run⟩ := bind_eq_ok.mp learnSources_gallia.1
  obtain ⟨_, _, run⟩ := bind_eq_ok.mp run
  obtain ⟨key', ran, after⟩ := bind_eq_ok.mp run
  simp only [run_pure, Except.ok.injEq, Prod.mk.injEq, decide_eq_true_eq, Option.map_eq_some_iff] at after
  obtain ⟨_, registered, ⟨headers, sourced, carried⟩, stored, saved⟩ := after
  refine ⟨key, key', loaded, loadkey_registered _ _ loaded, ran, fun within => ?_, saved⟩
  obtain ⟨headers', sourced', listed⟩ := within _ stored
  rw [sourced] at sourced'
  cases sourced'
  have unlisted := listed _ carried
  rw [registered] at unlisted
  exact absurd unlisted (by decide)

end Maccer
