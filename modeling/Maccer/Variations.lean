import Maccer.Scanning
import Maccer.Halting

/-! `macronize` ends: the variation loop of a word, whose rounds with doubtful substitutions go on to later entries each
time, and the loop over the text. -/

namespace Maccer

open Lua

namespace Tables

variable (t : Tables)

/-! What `macra.subword` records. -/

/-- The entries recorded are entries of the table; where there was a doubtful word before, each of them comes after one
that was recorded there. -/
structure Recorded (prev : Option (Str × Positions)) (w : Str) (s : Substituted) : Prop where
  unchanged : s.subatpostbl = [] → s.subw = w
  entries : ∀ e ∈ s.subatpostbl, 1 ≤ e.2 ∧ e.2 ≤ t.rules.length ∧ ∀ pr ∈ prev, ∃ earlier ∈ pr.2, earlier.2 < e.2

theorem prevdsubi_recorded {rules : List Rule} {prev : Str × Positions} {replstart i : Nat}
    (found : prevdsubi rules prev replstart = .ok (some i)) : ∃ earlier ∈ prev.2, earlier.2 = i := by
  unfold prevdsubi at found
  have listed {p : Nat} (here : prev.2.lookup p = some i) : ∃ earlier ∈ prev.2, earlier.2 = i := by
    obtain ⟨front, back, shape, _⟩ := List.lookup_eq_some_iff.mp here
    exact ⟨(p, i), by rw [shape]; simp, rfl⟩
  split at found
  · rename_i i' here
    obtain rfl := Option.some.inj (Except.ok.inj found)
    exact listed here
  · obtain ⟨dlen, _, found⟩ := bind_eq_ok.mp found
    obtain ⟨j, _, here⟩ := List.exists_of_findSome?_eq_some (Except.ok.inj found)
    exact listed (Option.mem_filter_iff.mp here).1

variable {prev : Option (Str × Positions)} {w : Str} {includedoubtful ascii : Bool} {fuel n : Nat}

theorem applyAt_recorded {rule : Rule} {replstart replend : Int} {s next : Substituted} (recorded : t.Recorded prev w s)
    (first : 1 ≤ n) (last : n ≤ t.rules.length)
    (ran : t.applyAt n rule includedoubtful ascii prev replstart replend s = .ok next) : t.Recorded prev w next := by
  unfold applyAt at ran
  split at ran
  case isFalse => exact Except.ok.inj ran ▸ recorded
  case isTrue =>
    obtain ⟨repl, _, ran⟩ := bind_eq_ok.mp ran
    have applied (newsubw : Str) (later : ∀ pr ∈ prev, ∃ earlier ∈ pr.2, earlier.2 < n) :
        t.Recorded prev w ⟨newsubw, (replstart.toNat, n) :: s.subatpostbl, true⟩ := by
      refine ⟨nofun, fun e member => ?_⟩
      rcases List.mem_cons.mp member with rfl | old
      · exact ⟨first, last, later⟩
      · exact recorded.entries e old
    cases prev with
    | none => exact Except.ok.inj ran ▸ applied _ nofun
    | some pr =>
        obtain ⟨before, found, ran⟩ := bind_eq_ok.mp ran
        split at ran
        case isFalse => exact Except.ok.inj ran ▸ recorded
        case isTrue grows =>
          refine Except.ok.inj ran ▸ applied _ fun pr' same => ?_
          obtain rfl := Option.mem_some.mp same
          cases before with
          | none =>
              have after : n + 1 < n := grows.2
              omega
          | some i =>
              obtain ⟨earlier, member, rfl⟩ := prevdsubi_recorded found
              exact ⟨earlier, member, grows.2⟩

theorem applyRule_recorded {rule : Rule} {orig : Str} {k : Int} {s next : Substituted} (recorded : t.Recorded prev w s)
    (first : 1 ≤ n) (last : n ≤ t.rules.length)
    (ran : t.applyRule n rule orig includedoubtful ascii prev fuel k s = .ok next) : t.Recorded prev w next := by
  induction fuel generalizing k s with
  | zero => cases ran
  | succ fuel ih =>
      rw [applyRule] at ran
      obtain ⟨found, _, ran⟩ := bind_eq_ok.mp ran
      cases found with
      | none => exact Except.ok.inj ran ▸ recorded
      | some place =>
          dsimp only at ran
          split at ran
          · obtain ⟨applied, here, ran⟩ := bind_eq_ok.mp ran
            exact ih (t.applyAt_recorded recorded first last here) ran
          · exact Except.ok.inj ran ▸ recorded

theorem applyRules_recorded {rules : List Rule} {s next : Substituted} (recorded : t.Recorded prev w s) (first : 1 ≤ n)
    (last : n + rules.length ≤ t.rules.length + 1)
    (ran : t.applyRules fuel includedoubtful ascii prev rules n s = .ok next) : t.Recorded prev w next := by
  induction rules generalizing n s with
  | nil => exact Except.ok.inj ran ▸ recorded
  | cons rule rules ih =>
      rw [List.length_cons] at last
      obtain ⟨orig, _, ran⟩ := bind_eq_ok.mp ran
      obtain ⟨applied, here, ran⟩ := bind_eq_ok.mp ran
      exact ih (t.applyRule_recorded recorded first (by omega) here) (by omega) (by omega) ran

/-- Substitutions made after others in a doubtful word come from later entries than its first. -/
theorem subword_recorded {subw : Str} {positions : Positions}
    (ran : t.subword fuel w includedoubtful ascii prev = .ok (subw, positions)) :
    (positions = [] → subw = w) ∧
      ∀ e ∈ positions, 1 ≤ e.2 ∧ e.2 ≤ t.rules.length ∧ ∀ pr ∈ prev, ∃ earlier ∈ pr.2, earlier.2 < e.2 := by
  obtain ⟨s, applied, ran⟩ := bind_eq_ok.mp ran
  have recorded := t.applyRules_recorded (s := ⟨w, [], false⟩) ⟨fun _ => rfl, nofun⟩ le_rfl (by omega) applied
  obtain ⟨rfl, rfl⟩ := Prod.mk.inj (Except.ok.inj ran)
  split
  · rename_i same
    exact ⟨fun _ => same, nofun⟩
  · exact ⟨recorded.unchanged, recorded.entries⟩

theorem subword_settles (calls : ∃ fuel, Halts (t.subword fuel w includedoubtful ascii prev)) :
    Settles fun fuel _ => t.subword fuel w includedoubtful ascii prev := by
  refine settles_of_more calls fun fuel extra result ran halts => ?_
  rw [subword] at ran ⊢
  cases applied : t.applyRules fuel includedoubtful ascii prev t.rules 1 ⟨w, [], false⟩ with
  | ok s => rwa [t.applyRules_more extra applied (halts_ok s), ← applied]
  | error fault =>
      rw [applied] at ran
      have cut : fault ≠ .running := fun running => halts (running ▸ ran.symm)
      rwa [t.applyRules_more extra applied fun running => cut (Except.error.inj running)]

/-! The variation loop. -/

def doubtsLeft : Option (Str × Positions) → Nat
  | none => t.rules.length + 2
  | some (_, positions) =>
      match (positions.map (·.2)).min? with
      | none => 0
      | some least => t.rules.length + 1 - least + 1

def Variation.attemptsLeft (v : Variation) : Nat :=
  (if v.triedencliticstwice then 0 else 3) + (if v.triedprefixes then 0 else 1) + if v.triedenclitics then 0 else 1

/-- What goes down from one attempt to the next: the doubtful substitutions left, then the letters of the word without
its period, then the attempts with that word. -/
def measure (v : Variation) : Nat × Nat × Nat := (t.doubtsLeft v.doubt, v.plainw.length, v.attemptsLeft)

def Grounded (wlower : Str) (v : Variation) : Prop :=
  ∀ w, v.doubt = some (w, []) → Utf8.replace wlower (field t.unicode.macroninvtbl) = .ok w

variable {wlower suresubw : Str} {v next : Variation}

theorem tryDoubtful_less (grounded : t.Grounded wlower v)
    (ran : t.tryDoubtful (t.desktop fuel) wlower suresubw v = .ok (some next)) :
    t.doubtsLeft next.doubt < t.doubtsLeft v.doubt ∧ t.Grounded wlower next := by
  obtain ⟨⟨doubtsubw, positions⟩, called, ran⟩ := bind_eq_ok.mp ran
  obtain ⟨plain, shown, ran⟩ := bind_eq_ok.mp ran
  have call : t.subword fuel wlower true true v.doubt = .ok (doubtsubw, positions) := called
  obtain ⟨unchanged, entries⟩ := t.subword_recorded call
  split at ran
  case isFalse => cases ran
  case isTrue other =>
    obtain rfl := Option.some.inj (Except.ok.inj ran)
    constructor
    · rw [Variation.start, doubtsLeft]
      cases lowest : (positions.map (·.2)).min? with
      | none =>
          have none' : positions = [] := by simpa using lowest
          cases before : v.doubt with
          | none => exact Nat.succ_pos _
          | some pr =>
              obtain ⟨w, positions'⟩ := pr
              rw [doubtsLeft]
              cases lowest' : (positions'.map (·.2)).min? with
              | none =>
                  obtain rfl : positions' = [] := by simpa using lowest'
                  have same := (grounded w before).symm.trans (unchanged none' ▸ shown)
                  exact absurd (by rw [before, Except.ok.inj same]; rfl) other.2
              | some least => exact Nat.succ_pos _
      | some least =>
          obtain ⟨member, _⟩ := List.min?_eq_some_iff.mp lowest
          obtain ⟨e, inside, rfl⟩ := List.mem_map.mp member
          obtain ⟨first, last, later⟩ := entries e inside
          cases before : v.doubt with
          | none =>
              rw [doubtsLeft]
              dsimp only
              omega
          | some pr =>
              obtain ⟨w, positions'⟩ := pr
              obtain ⟨earlier, known, less⟩ := later (w, positions') (by simp [before])
              rw [doubtsLeft]
              cases lowest' : (positions'.map (·.2)).min? with
              | none =>
                  obtain rfl : positions' = [] := by simpa using lowest'
                  cases known
              | some least' =>
                  have below := (List.min?_eq_some_iff.mp lowest').2 earlier.2 (List.mem_map_of_mem known)
                  dsimp only
                  omega
    · intro w same
      obtain ⟨rfl, rfl⟩ := Prod.mk.inj (Option.some.inj same)
      exact unchanged rfl ▸ shown

theorem tryEnclitic_same (v : Variation) : (t.tryEnclitic v).plainw = v.plainw ∧ (t.tryEnclitic v).doubt = v.doubt ∧
    (t.tryEnclitic v).triedenclitics = true ∧ (t.tryEnclitic v).triedprefixes = v.triedprefixes ∧
    (t.tryEnclitic v).triedencliticstwice = v.triedencliticstwice := by
  unfold tryEnclitic
  split
  · split
    all_goals exact ⟨rfl, rfl, rfl, rfl, rfl⟩
  · exact ⟨rfl, rfl, rfl, rfl, rfl⟩

theorem tryPrefix_same (v : Variation) : (t.tryPrefix v).plainw = v.plainw ∧ (t.tryPrefix v).doubt = v.doubt ∧
    (t.tryPrefix v).triedenclitics = v.triedenclitics ∧ (t.tryPrefix v).triedprefixes = true ∧
    (t.tryPrefix v).triedencliticstwice = v.triedencliticstwice := by
  unfold tryPrefix
  split
  all_goals exact ⟨rfl, rfl, rfl, rfl, rfl⟩

theorem attempt_less (grounded : t.Grounded wlower v) (word : next.plainw = v.plainw) (doubt : next.doubt = v.doubt)
    (fewer : next.attemptsLeft < v.attemptsLeft) :
    Prod.Lex (· < ·) (Prod.Lex (· < ·) (· < ·)) (t.measure next) (t.measure v) ∧ t.Grounded wlower next := by
  constructor
  · rw [measure, measure, word, doubt]
    exact .right _ (.right _ fewer)
  · intro w same
    exact grounded w (doubt ▸ same)

theorem nextTry_less (grounded : t.Grounded wlower v)
    (ran : t.nextTry (t.desktop fuel) wlower suresubw v = .ok (some next)) :
    Prod.Lex (· < ·) (Prod.Lex (· < ·) (· < ·)) (t.measure next) (t.measure v) ∧ t.Grounded wlower next := by
  unfold nextTry at ran
  split at ran
  · rename_i enclitics
    obtain rfl := Option.some.inj (Except.ok.inj ran)
    obtain ⟨word, doubt, tried, same, same'⟩ := t.tryEnclitic_same v
    apply t.attempt_less grounded word doubt
    simp only [Variation.attemptsLeft, tried, same, same']
    simp at enclitics
    simp [enclitics]
  · rename_i enclitics
    split at ran
    · rename_i prefixes
      obtain rfl := Option.some.inj (Except.ok.inj ran)
      obtain ⟨word, doubt, same, tried, same'⟩ := t.tryPrefix_same v
      apply t.attempt_less grounded word doubt
      simp only [Variation.attemptsLeft, tried, same, same']
      simp at prefixes
      simp [prefixes]
    · split at ran
      · rename_i both
        obtain rfl := Option.some.inj (Except.ok.inj ran)
        refine t.attempt_less (v := v) grounded rfl rfl ?_
        simp only [Bool.and_eq_true, Bool.not_eq_true'] at both
        simp at enclitics
        simp only [Variation.attemptsLeft, both.2, enclitics, Bool.false_eq_true, if_true, if_false]
        omega
      · split at ran
        · rename_i period
          obtain rfl := Option.some.inj (Except.ok.inj ran)
          have filled : v.plainw ≠ [] := by
            intro empty
            rw [empty] at period
            exact absurd period (by decide)
          have long := List.length_pos_iff.mpr filled
          refine ⟨.right _ (.left _ _ ?_), fun w same => grounded w same⟩
          rw [Variation.start, show (v.plainw.length : Int) - 1 = (v.plainw.length - 1 : Nat) by omega, sub_first,
            List.length_take]
          omega
        · obtain ⟨fewer, still⟩ := t.tryDoubtful_less grounded ran
          exact ⟨.left _ _ fewer, still⟩

theorem nextTry_settles (calls : ∀ prev, Settles fun fuel _ => t.subword fuel wlower true true prev) :
    Settles fun fuel _ => t.nextTry (t.desktop fuel) wlower suresubw v := by
  unfold nextTry
  split
  · exact (halts_ok _).settles
  · split
    · exact (halts_ok _).settles
    · split
      · exact (halts_ok _).settles
      · split
        · exact (halts_ok _).settles
        · exact Settles.bind (calls v.doubt) fun found _ => (Halts.bind (Utf8.replace_halts _ _) fun plain _ =>
            Halts.ite (halts_ok _) (halts_ok _)).settles

theorem variationLoop_settles (calls : ∀ prev, Settles fun fuel _ => t.subword fuel wlower true true prev)
    (v : Variation)
    (grounded : t.Grounded wlower v) :
    Settles fun fuel rounds => t.variationLoop (t.desktop fuel) wlower suresubw rounds v := by
  cases found : field t.keytbl v.plainwtry with
  | some macronw =>
      refine (halts_ok (some (v, macronw))).settles.round fun fuel rounds => ?_
      rw [variationLoop, found]
      rfl
  | none =>
      have later (next : Option Variation) (tried : ∃ fuel _ : Nat,
          t.nextTry (t.desktop fuel) wlower suresubw v = .ok next) :
          Settles fun fuel rounds =>
            next.elim (pure none) fun v => t.variationLoop (t.desktop fuel) wlower suresubw rounds v := by
        obtain ⟨fuel, _, ran⟩ := tried
        cases next with
        | none => exact (halts_ok none).settles
        | some next =>
            obtain ⟨less, still⟩ := t.nextTry_less grounded ran
            exact variationLoop_settles calls next still
      refine (Settles.bind (t.nextTry_settles calls) later).round fun fuel rounds => ?_
      rw [variationLoop, found]
      refine bind_congr fun next => ?_
      cases next <;> rfl
termination_by t.measure v
decreasing_by exact less

/-! A word. -/

theorem lengthStep_halts (pos : Nat) (state : Length × Option Length) (parw : Str) :
    Halts (t.lengthStep pos state parw) := by
  unfold lengthStep
  refine Halts.ite (halts_ok _) (Halts.bind (Utf8.sub_halts _ _ _) fun parchar _ => ?_)
  cases state.2 with
  | none => exact halts_ok _
  | some firstlength => exact halts_ok _

theorem setChar_halts (w : Str) (pos : Nat) (new : Str) : Halts (setChar w pos new) :=
  Halts.bind (Utf8.sub_halts _ _ _) fun _ _ => Halts.bind (Utf8.sub_halts _ _ _) fun _ _ => halts_ok _

theorem ambigAt_halts (plainwtry : Str) (partbl : Table Str) (ambigw : Str) (pos : Nat) :
    Halts (t.ambigAt plainwtry partbl ambigw pos) := by
  unfold ambigAt
  refine Halts.bind (Utf8.sub_halts _ _ _) fun letter _ => ?_
  cases field t.unicode.tildetbl letter with
  | none => exact halts_ok _
  | some tildevowel =>
      refine Halts.bind ((foldlM_halts (t.lengthStep_halts pos) _ _).map _) fun length _ => ?_
      cases length with
      | either => exact setChar_halts _ _ _
      | short => exact halts_ok _
      | long =>
          cases field t.unicode.macrontbl letter with
          | none => exact halts_raised
          | some macronvowel => exact setChar_halts _ _ _

theorem choose_halts (plainwtry : Str) (partbl : Table Str) (parcount : Nat) :
    Halts (t.choose plainwtry partbl parcount) := by
  unfold choose
  refine Halts.ite ?_ (halts_ok _)
  cases t.guessw partbl with
  | some guessw => exact halts_ok _
  | none =>
      exact Halts.bind (Halts.bind (Utf8.len_halts _) fun len _ =>
        foldlM_halts (t.ambigAt_halts plainwtry partbl) _ _) fun ambigw _ => halts_ok _

theorem restore_halts (subatpostbl : Positions) (finalw : Str) : Halts (t.restore subatpostbl finalw) := by
  refine Halts.bind (Utf8.len_halts _) fun len _ => foldlM_halts (fun finalw pos => ?_) _ _
  unfold restoreAt
  cases subatpostbl.lookup pos with
  | none => exact halts_ok _
  | some i =>
      dsimp only
      cases t.rules[i - 1]? with
      | none => exact halts_raised
      | some rule =>
          exact Halts.bind (Utf8.len_halts _) fun _ _ => Halts.bind (Utf8.len_halts _) fun _ _ =>
            Halts.bind (Utf8.sub_halts _ _ _) fun _ _ => Halts.bind (Utf8.sub_halts _ _ _) fun _ _ => halts_ok _

theorem lengthenBefore_halts (finalw : Str) : Halts (lengthenBefore finalw) :=
  Halts.bind (gsubAll_halts _ _ _) fun _ _ => Halts.bind (gsubAll_halts _ _ _) fun _ _ =>
    Halts.bind (gsubAll_halts _ _ _) fun _ _ => gsubAll_halts _ _ _

theorem capitalizeAt_halts (finalw : Str) (pos : Nat) : Halts (t.capitalizeAt finalw pos) := by
  refine Halts.bind (Utf8.sub_halts _ _ _) fun char _ => ?_
  cases field t.unicode.capstbl char with
  | none => exact halts_raised
  | some capital => exact setChar_halts _ _ _

theorem applyForm_halts (cappostbl : List Nat) (v : Variation) (macronw : Str) :
    Halts (t.applyForm (t.desktop fuel) cappostbl v macronw) := by
  unfold applyForm
  cases (t.desktop fuel).getpars v.plainwtry with
  | none => exact halts_raised
  | some pars =>
      refine Halts.bind (t.choose_halts _ _ _) fun chosen _ => Halts.bind (t.restore_halts _ _) fun finalw _ => ?_
      have capitalized (finalw : Str) : Halts (cappostbl.foldlM t.capitalizeAt finalw) :=
        foldlM_halts t.capitalizeAt_halts _ _
      dsimp only
      split
      · exact Halts.bind (lengthenBefore_halts _) fun finalw _ => (capitalized finalw).bind fun _ _ => halts_ok _
      · exact (capitalized finalw).bind fun _ _ => halts_ok _

theorem anyFound_halts (w : Str) (strs : List Str) : Halts (anyFound w strs) :=
  foldlM_halts (fun _ _ => Halts.bind (find_halts _ _ _) fun _ _ => halts_ok _) _ _

theorem cappostbl_halts (w : Str) : Halts (t.cappostbl w) :=
  Halts.bind (Utf8.len_halts _) fun _ _ => filterM_halts (fun _ => Halts.bind (Utf8.sub_halts _ _ _) fun _ _ =>
    halts_ok _) _

variable (calls : ∀ w includedoubtful prev, ∃ fuel, Halts (t.subword fuel w includedoubtful true prev))
include calls

theorem plainWord_settles (w : Str) :
    Settles fun fuel rounds => t.macronizeWord (t.desktop fuel) true rounds w false := by
  unfold macronizeWord
  refine Settles.bind (halts_ok false).settles fun hasmacrons known => ?_
  obtain ⟨_, _, same⟩ := known
  obtain rfl := Except.ok.inj same
  refine Settles.bind (t.cappostbl_halts w).settles fun cappostbl _ => ?_
  refine Settles.bind (Utf8.replace_halts w _).settles fun wlower _ => ?_
  refine Settles.bind (t.subword_settles (calls wlower false none)) fun sure _ => ?_
  refine Settles.bind (Utf8.replace_halts sure.1 _).settles fun suresubw _ => ?_
  refine Settles.bind (t.variationLoop_settles (fun prev => t.subword_settles (calls wlower true prev)) _ nofun)
    fun tried _ => ?_
  cases tried with
  | none => exact (halts_ok _).settles
  | some form =>
      have applied : Halts (t.applyForm (t.desktop 0) cappostbl form.1 form.2) :=
        t.applyForm_halts cappostbl form.1 form.2
      exact applied.settles

omit calls in
theorem macronizeWord_keep (c : Copy) (fuel : Nat) (w : Str) :
    t.macronizeWord c false fuel w false =
      (anyFound w ((pairs t.hash t.unicode.macroninvtbl).map (·.1)) >>= fun hasmacrons =>
        if hasmacrons then pure ⟨w, ∅, false⟩ else t.macronizeWord c true fuel w false) := rfl

theorem macronizeWord_settles (overwrite : Bool) (w : Str) (isinvalid : Bool) :
    Settles fun fuel rounds => t.macronizeWord (t.desktop fuel) overwrite rounds w isinvalid := by
  cases isinvalid with
  | true => exact (halts_ok (⟨w, AList.insert INVALID () ∅, false⟩ : Marked)).settles
  | false =>
      cases overwrite with
      | true => exact t.plainWord_settles calls w
      | false =>
          refine (Settles.bind (anyFound_halts w _).settles fun hasmacrons _ => ?_).congr fun fuel rounds =>
            t.macronizeWord_keep (t.desktop fuel) rounds w
          cases hasmacrons with
          | true => exact (halts_ok _).settles
          | false => exact t.plainWord_settles calls w

/-! The text. -/

omit calls in
/-- Whether `macronize` finds a comment in a text. -/
def hascomments (text : Str) : Run Bool := do
  let single ← find text (lit "//([^\n]+)") 1
  if single.isSome then return true else (·.isSome) <$> find text (lit "/%*(.*)%*/") 1

theorem macronizeToken_settles (overwrite : Bool) {text : Str} {wstart wend : Int} (first : 1 ≤ wstart)
    (span : wstart ≤ wend) (last : wend ≤ text.length) :
    Settles fun fuel _ => t.macronizeToken (t.desktop fuel) overwrite fuel text wstart wend := by
  have size := sub_span first last (by omega)
  have filled : sub text wstart wend ≠ [] := List.ne_nil_of_length_pos (by omega)
  have trimmed : Halts ((t.desktop 0).ignorechars (sub text wstart wend) wstart wend) :=
    Halts.bind (t.ignorechars_halts (by omega) filled false) fun _ _ => halts_ok _
  unfold macronizeToken
  refine Settles.bind trimmed.settles fun found _ => ?_
  obtain ⟨word, wstart', wend', isinvalid⟩ := found
  cases word with
  | none => exact (halts_ok _).settles
  | some w =>
      dsimp only
      split
      · exact (halts_ok _).settles
      · exact Settles.bind (t.macronizeWord_settles calls overwrite w isinvalid).diagonal fun marked _ =>
          (halts_ok _).settles

theorem macronizeLoop_settles (overwrite hascomments : Bool) (text : Str) (init : Int) (first : 1 ≤ init) :
    Settles fun fuel rounds => t.macronizeLoop (t.desktop fuel) overwrite hascomments fuel rounds text init := by
  cases found : findRun isLetter text init with
  | none =>
      refine (halts_ok text).settles.round fun fuel rounds => ?_
      have missing : findRun (t.desktop fuel).inside text init = none := found
      exact t.macronizeLoop_none overwrite hascomments fuel rounds missing
  | some token =>
      obtain ⟨wstart, wend⟩ := token
      obtain ⟨after, span, last⟩ := findRun_span first found
      have pass : Settles fun fuel _ =>
          t.macronizePass (t.desktop fuel) overwrite hascomments fuel text wstart wend := by
        unfold macronizePass
        cases hascomments with
        | true => exact halts_raised.settles
        | false => exact t.macronizeToken_settles calls overwrite (by omega) span last
      have later (left : Str × Int) (ran : ∃ fuel _ : Nat,
          t.macronizePass (t.desktop fuel) overwrite hascomments fuel text wstart wend = .ok left) :
          Settles fun fuel rounds =>
            t.macronizeLoop (t.desktop fuel) overwrite hascomments fuel rounds left.1 left.2 := by
        obtain ⟨fuel, _, ran⟩ := ran
        cases hascomments with
        | true => cases ran
        | false =>
            obtain ⟨next, less⟩ := t.desktopToken_progress (by omega) span last
              (show t.macronizeToken (t.desktop fuel) overwrite fuel text wstart wend = .ok (left.1, left.2) from ran)
            exact macronizeLoop_settles overwrite false left.1 left.2 (by omega)
      refine (Settles.bind pass later).round fun fuel rounds => ?_
      have here : findRun (t.desktop fuel).inside text init = some (wstart, wend) := found
      exact t.macronizeLoop_some overwrite hascomments fuel rounds here
termination_by (text.length + 1 - init).toNat
decreasing_by omega

omit calls in
/-- `macronize` as the loop over the text, after comments are looked for. -/
theorem macronize_loop (c : Copy) (overwrite : Bool) (fuel : Nat) (text : Str) :
    t.macronize c overwrite fuel text =
      ((if overwrite then remmacs t.unicode text else pure text) >>= fun text => hascomments text >>= fun commented =>
        if commented then
          c.getcommentset text >>= fun _ => t.macronizeLoop c overwrite commented fuel fuel text 1
        else t.macronizeLoop c overwrite commented fuel fuel text 1) := by
  have loop (text : Str) : (do
      let single ← find text (lit "//([^\n]+)") 1
      let hascomments ← if single.isSome then pure true else (·.isSome) <$> find text (lit "/%*(.*)%*/") 1
      if hascomments then let _ ← c.getcommentset text
      t.macronizeLoop c overwrite hascomments fuel fuel text 1) =
      (hascomments text >>= fun commented =>
        if commented then
          c.getcommentset text >>= fun _ => t.macronizeLoop c overwrite commented fuel fuel text 1
        else t.macronizeLoop c overwrite commented fuel fuel text 1) := by
    rw [hascomments]
    cases find text (lit "//([^\n]+)") 1 with
    | error fault => rfl
    | ok single =>
        cases single with
        | some place => rfl
        | none => cases find text (lit "/%*(.*)%*/") 1 <;> rfl
  unfold macronize
  cases overwrite with
  | false => exact loop text
  | true =>
      cases remmacs t.unicode text with
      | error fault => rfl
      | ok text => exact loop text

omit calls in
theorem remmacs_halts (text : Str) : Halts (remmacs t.unicode text) :=
  Halts.bind (Utf8.replace_halts _ _) fun _ _ => Utf8.replace_halts _ _

omit calls in
theorem hascomments_halts (text : Str) : Halts (hascomments text) := by
  refine Halts.bind (find_halts _ _ _) fun single _ => Halts.ite (halts_ok _) ?_
  exact (find_halts _ _ _).map _

theorem macronize_ends (overwrite : Bool) (text : Str) :
    ∃ result, result ≠ .error .running ∧ ∃ enough, ∀ fuel, enough ≤ fuel →
      t.macronize (t.desktop fuel) overwrite fuel text = result := by
  have settles : Settles fun fuel rounds =>
      (if overwrite then remmacs t.unicode text else pure text) >>= fun text => hascomments text >>= fun commented =>
        if commented then
          (t.desktop fuel).getcommentset text >>= fun _ =>
            t.macronizeLoop (t.desktop fuel) overwrite commented fuel rounds text 1
        else t.macronizeLoop (t.desktop fuel) overwrite commented fuel rounds text 1 := by
    refine Settles.bind (Halts.ite (t.remmacs_halts text) (halts_ok _)).settles fun text _ => ?_
    refine Settles.bind (hascomments_halts text).settles fun commented _ => ?_
    cases commented with
    | true => exact halts_raised.settles
    | false => exact t.macronizeLoop_settles calls overwrite false text 1 le_rfl
  obtain ⟨result, halts, enough, same⟩ := settles.diagonal
  refine ⟨result, halts, enough, fun fuel more => ?_⟩
  rw [macronize_loop]
  exact same fuel fuel more more

/-- Whenever the substitutions in each word end, `macronize` returns or raises, whatever the text. -/
theorem macronize_settles (overwrite : Bool) (text : Str) :
    ∃ result, result ≠ .error .running ∧ ∃ enough, ∀ fuel, enough ≤ fuel →
      t.macronize (t.desktop fuel) overwrite fuel text = result :=
  t.macronize_ends calls overwrite text

omit calls in
def poenaRule : Rule := ⟨lit "oe", lit "e", some (lit "~")⟩

omit calls in
def poenaTables : Tables := { Tables.empty with rules := [poenaRule] }

omit calls in
theorem poena_ends (w : Str) (includedoubtful : Bool) (prev : Option (Str × Positions)) :
    ∃ fuel, Halts (poenaTables.subword fuel w includedoubtful true prev) := by
  have worded : ∀ rule ∈ ({poenaRule} : Set Rule), rule.Worded := by
    intro rule member
    obtain rfl := member
    exact ⟨by decide, by decide⟩
  refine subword_ends worded (fun rule member => ?_) rfl (fun rule member => List.mem_singleton.mp member) w
    includedoubtful true prev
  obtain rfl := member
  refine ⟨Rule.not_feeds (by decide) (by decide), fun shown same => ?_⟩
  have ascii : Utf8.replace poenaRule.orig (field Maccer.unicode.unicodeinvtbl) = .ok (lit "oe") ∧
      Utf8.replace poenaRule.repl (field Maccer.unicode.unicodeinvtbl) = .ok (lit "e") := by decide
  rw [Rule.ascii, ascii.1, ascii.2] at same
  cases same
  exact Rule.not_feeds (by decide) (by decide)

omit calls in
theorem macronize_settles_poena : ∃ result, result ≠ .error .running ∧ ∃ enough, ∀ fuel, enough ≤ fuel →
    poenaTables.macronize (poenaTables.desktop fuel) false fuel (lit "poena est") = result :=
  poenaTables.macronize_settles poena_ends false (lit "poena est")

/-! The measures of the two loops. -/

/-- A pass over a token leaves less of the text, which grows, behind the place where the next search begins. -/
def Shortens (overwrite : Bool) : Prop :=
  ∀ (hascomments : Bool) (fuel : Nat) (text text' : Str) (init init' wstart wend : Int), 1 ≤ init →
    findRun isLetter text init = some (wstart, wend) →
    t.macronizePass (t.desktop fuel) overwrite hascomments fuel text wstart wend = .ok (text', init') →
    init < init' ∧ (text'.length : Int) + 1 - init' < text.length + 1 - init

/-- The first entry used in a round with doubtful substitutions comes after the first one of the round before. -/
def Climbs : Prop :=
  ∀ (fuel : Nat) (wlower suresubw : Str) (v next : Variation),
    t.tryDoubtful (t.desktop fuel) wlower suresubw v = .ok (some next) →
    ∀ prev ∈ v.doubt, ∀ least ∈ (prev.2.map (·.2)).min?, ∀ least' ∈ (next.subatpostbl.map (·.2)).min?, least < least'

def Attempted (wlower suresubw : Str) (v next : Variation) : Prop :=
  ∃ fuel, t.nextTry (t.desktop fuel) wlower suresubw v = .ok (some next)

omit calls in
theorem shortens (overwrite : Bool) : t.Shortens overwrite := by
  intro hascomments fuel text text' init init' wstart wend first found ran
  obtain ⟨after, span, last⟩ := findRun_span first found
  cases hascomments with
  | true => cases ran
  | false =>
      obtain ⟨next, less⟩ := t.desktopToken_progress (by omega) span last
        (show t.macronizeToken (t.desktop fuel) overwrite fuel text wstart wend = .ok (text', init') from ran)
      omega

omit calls in
theorem climbs : t.Climbs := by
  intro fuel wlower suresubw v next ran prev before least lowest least' lowest'
  obtain ⟨⟨doubtsubw, positions⟩, called, ran⟩ := bind_eq_ok.mp ran
  obtain ⟨plain, shown, ran⟩ := bind_eq_ok.mp ran
  have call : t.subword fuel wlower true true v.doubt = .ok (doubtsubw, positions) := called
  split at ran
  case isFalse => cases ran
  case isTrue =>
    obtain rfl := Option.some.inj (Except.ok.inj ran)
    obtain ⟨e, inside, rfl⟩ := List.mem_map.mp (List.min?_eq_some_iff.mp lowest').1
    obtain ⟨earlier, known, less⟩ := ((t.subword_recorded call).2 e inside).2.2 prev before
    have below := (List.min?_eq_some_iff.mp lowest).2 earlier.2 (List.mem_map_of_mem known)
    omega

omit calls in
theorem attempted_less {wlower suresubw : Str} {v next : Variation} (grounded : t.Grounded wlower v)
    (path : Relation.TransGen (t.Attempted wlower suresubw) v next) :
    Prod.Lex (· < ·) (Prod.Lex (· < ·) (· < ·)) (t.measure next) (t.measure v) ∧ t.Grounded wlower next := by
  induction path with
  | single step =>
      obtain ⟨fuel, ran⟩ := step
      exact t.nextTry_less grounded ran
  | tail _ step ih =>
      obtain ⟨fuel, ran⟩ := step
      obtain ⟨less, grounded⟩ := t.nextTry_less ih.2 ran
      exact ⟨Trans.trans less ih.1, grounded⟩

omit calls in
theorem attempted_apart {wlower suresubw plainw : Str} {subatpostbl : Positions} {v next : Variation}
    (reached : Relation.ReflTransGen (t.Attempted wlower suresubw) (.start plainw false subatpostbl none) v)
    (path : Relation.TransGen (t.Attempted wlower suresubw) v next) : next ≠ v := by
  have start : t.Grounded wlower (.start plainw false subatpostbl none) := fun _ same => by cases same
  have grounded : t.Grounded wlower v := by
    cases Relation.reflTransGen_iff_eq_or_transGen.mp reached with
    | inl same => exact same ▸ start
    | inr steps => exact (t.attempted_less start steps).2
  rintro rfl
  exact absurd (t.attempted_less grounded path).1 (irrefl _)

/-- `macronize` returns or raises: each pass leaves less of the text, and the attempts on a word never come back to one
that was made before, as the rounds with doubtful substitutions go on to later entries. -/
theorem macronize_terminates (overwrite : Bool) (text : Str) :
    (∃ result, result ≠ .error .running ∧ ∃ enough, ∀ fuel, enough ≤ fuel →
      t.macronize (t.desktop fuel) overwrite fuel text = result) ∧
    t.Shortens overwrite ∧ t.Climbs ∧
    ∀ (wlower suresubw plainw : Str) (subatpostbl : Positions) (v next : Variation),
      Relation.ReflTransGen (t.Attempted wlower suresubw) (.start plainw false subatpostbl none) v →
      Relation.TransGen (t.Attempted wlower suresubw) v next → next ≠ v :=
  ⟨t.macronize_ends calls overwrite text, t.shortens overwrite, t.climbs,
    fun _ _ _ _ _ _ reached path => t.attempted_apart reached path⟩

omit calls in
theorem macronize_terminates_poena :
    (∃ result, result ≠ .error .running ∧ ∃ enough, ∀ fuel, enough ≤ fuel →
      poenaTables.macronize (poenaTables.desktop fuel) true fuel (lit "poenā. poena") = result) ∧
    poenaTables.Shortens true ∧ poenaTables.Climbs ∧
    ∀ (wlower suresubw plainw : Str) (subatpostbl : Positions) (v next : Variation),
      Relation.ReflTransGen (poenaTables.Attempted wlower suresubw) (.start plainw false subatpostbl none) v →
      Relation.TransGen (poenaTables.Attempted wlower suresubw) v next → next ≠ v :=
  poenaTables.macronize_terminates poena_ends true (lit "poenā. poena")

end Tables

end Maccer
