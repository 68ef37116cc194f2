import Maccer.Mac

/-! The variation loop of `macronize`: which parts of a word its look-ups leave out. -/

namespace Maccer.Tables

open Lua

variable (t : Tables)

def stem (w : Str) : Str :=
  match t.findEnclitic w with
  | some enc => sub w 1 ((w.length : Int) - enc.length)
  | none => w

/-- The plain form of the current prefix, the word tried and the current enclitic make up
the current plain word. -/
def Whole (v : Variation) : Prop :=
  ∃ pfplain, plain (v.prefixform.getD []) = .ok pfplain ∧
    pfplain ++ v.plainwtry ++ v.enclitic.getD [] = v.plainw

def rest (w pfplain : Str) : Str := subFrom w (pfplain.length + 1)

def cut (w pfplain enc : Str) : Str := sub (rest w pfplain) 1 (((rest w pfplain).length : Int) - enc.length)

/-- When the word is found neither whole nor without an enclitic, but both with an
enclitic and with a prefix: the word without the prefix is not in the key, unless the
enclitic is empty, and is as long as the enclitic, unless what is left when it is cut by
the length of the enclitic is not in the key. -/
def Separable (plainw : Str) : Prop :=
  plainw ∉ t.keytbl → t.stem plainw ∉ t.keytbl → ∀ enc pfplain, t.findEnclitic plainw = some enc →
    t.findPrefix plainw = some pfplain →
      (rest plainw pfplain ∈ t.keytbl → enc = []) ∧
        (rest plainw pfplain ∉ t.keytbl → cut plainw pfplain enc ∈ t.keytbl →
          enc.length ≤ (rest plainw pfplain).length)

theorem sub_length (s : Str) (n : Nat) : sub s 1 ((s.length : Int) - n) ++ s.drop (s.length - n) = s ∨
    s.length < n := by
  by_cases shorter : s.length < n
  · exact .inr shorter
  · rw [show ((s.length : Int) - n) = ((s.length - n : Nat) : Int) by omega, sub_first]
    exact .inl (List.take_append_drop _ s)

section

variable {t}

theorem findPrefix_append {w pfplain : Str} (found : t.findPrefix w = some pfplain) :
    pfplain ∈ t.prefixtbl ∧ pfplain ++ subFrom w (pfplain.length + 1) = w := by
  have begins : sub w 1 pfplain.length = pfplain := by simpa using List.find?_some found
  refine ⟨List.mem_of_find?_eq_some found, ?_⟩
  rw [subFrom_succ]
  conv_lhs => rw [← begins, sub_first, List.length_take]
  rw [sub_first] at begins
  have short : pfplain.length ≤ w.length := by
    rw [← begins, List.length_take]
    omega
  rw [min_eq_left short, List.take_append_drop]

theorem findEnclitic_suffix {w enc : Str} (found : t.findEnclitic w = some enc) :
    enc.length ≤ w.length ∧ w.drop (w.length - enc.length) = enc := by
  have ends : subFrom w ((w.length : Int) - enc.length + 1) = enc := by simpa using List.find?_some found
  have short : enc.length ≤ w.length := by
    by_contra longer
    have shorter : (subFrom w ((w.length : Int) - enc.length + 1)).length ≤ w.length := by
      simp only [subFrom, sub, List.length_drop, List.length_take]
      omega
    rw [ends] at shorter
    exact longer shorter
  refine ⟨short, ?_⟩
  rwa [show ((w.length : Int) - enc.length + 1) = ((w.length - enc.length : Nat) : Int) + 1 by omega,
    subFrom_succ] at ends

theorem stem_append {w enc : Str} (found : t.findEnclitic w = some enc) : t.stem w ++ enc = w := by
  obtain ⟨short, ends⟩ := findEnclitic_suffix found
  rw [stem, found]
  simpa [ends] using (sub_length w enc.length).resolve_right (by omega)

end

inductive Attempt : Variation → Prop
  | whole (p : Str) (removed : Bool) (subs : Positions) (doubt : Option (Str × Positions)) :
      Attempt ⟨p, p, none, none, false, false, false, removed, subs, doubt⟩
  | stem (p : Str) (removed : Bool) (subs : Positions) (doubt : Option (Str × Positions))
      (failed : p ∉ t.keytbl) :
      Attempt ⟨p, t.stem p, t.findEnclitic p, none, true, false, false, removed, subs, doubt⟩
  | bare (p : Str) (removed : Bool) (subs : Positions) (doubt : Option (Str × Positions))
      (failed : p ∉ t.keytbl) (failed' : t.stem p ∉ t.keytbl) (unprefixed : t.findPrefix p = none) :
      Attempt ⟨p, t.stem p, t.findEnclitic p, none, true, true, false, removed, subs, doubt⟩
  | rest (p pfplain : Str) (removed : Bool) (subs : Positions) (doubt : Option (Str × Positions))
      (failed : p ∉ t.keytbl) (failed' : t.stem p ∉ t.keytbl) (found : t.findPrefix p = some pfplain) :
      Attempt ⟨p, rest p pfplain, t.findEnclitic p, some (t.prefixmac pfplain), true, true, false,
        removed, subs, doubt⟩
  | again (p pfplain enc : Str) (removed : Bool) (subs : Positions) (doubt : Option (Str × Positions))
      (failed : p ∉ t.keytbl) (failed' : t.stem p ∉ t.keytbl) (found : t.findPrefix p = some pfplain)
      (ends : t.findEnclitic p = some enc) (failed'' : rest p pfplain ∉ t.keytbl) :
      Attempt ⟨p, rest p pfplain, some enc, some (t.prefixmac pfplain), false, true, true,
        removed, subs, doubt⟩
  | both (p pfplain enc : Str) (removed : Bool) (subs : Positions) (doubt : Option (Str × Positions))
      (failed : p ∉ t.keytbl) (failed' : t.stem p ∉ t.keytbl) (found : t.findPrefix p = some pfplain)
      (ends : t.findEnclitic p = some enc) (failed'' : rest p pfplain ∉ t.keytbl) :
      Attempt ⟨p, cut p pfplain enc, some enc, some (t.prefixmac pfplain), true, true, true,
        removed, subs, doubt⟩

section

variable {t}

theorem attempt_round (c : Copy) (wlower suresubw : Str) (v v' : Variation) (flags : v.triedenclitics = true)
    (flags' : v.triedprefixes = true)
    (last : (v.enclitic.isSome && v.prefixform.isSome && !v.triedencliticstwice) = false)
    (step : t.nextTry c wlower suresubw v = .ok (some v')) : t.Attempt v' := by
  simp only [nextTry, flags, flags', last, Bool.not_true, Bool.false_eq_true, if_false] at step
  split at step
  · cases step
    exact .whole _ _ _ _
  · rw [tryDoubtful, bind_eq_ok] at step
    obtain ⟨subbed, _, step⟩ := step
    rw [bind_eq_ok] at step
    obtain ⟨doubtsubw, _, step⟩ := step
    split at step
    · cases step
      exact .whole _ _ _ _
    · cases step

theorem Attempt.next (c : Copy) (wlower suresubw : Str) {v v' : Variation} (attempt : t.Attempt v)
    (failed : v.plainwtry ∉ t.keytbl) (step : t.nextTry c wlower suresubw v = .ok (some v')) :
    t.Attempt v' := by
  cases attempt with
  | whole p removed subs doubt =>
      cases ends : t.findEnclitic p with
      | none =>
          have stem : t.stem p = p := by rw [Tables.stem, ends]
          have next := Attempt.stem (t := t) p removed subs doubt failed
          rw [stem, ends] at next
          simp only [nextTry, tryEnclitic, ends] at step
          cases step
          exact next
      | some enc =>
          have stem : t.stem p = sub p 1 ((p.length : Int) - enc.length) := by rw [Tables.stem, ends]
          have next := Attempt.stem (t := t) p removed subs doubt failed
          rw [stem, ends] at next
          simp only [nextTry, tryEnclitic, ends] at step
          cases step
          exact next
  | stem p removed subs doubt failed' =>
      simp only [nextTry, tryPrefix] at step
      cases found : t.findPrefix p with
      | none =>
          simp only [found] at step
          cases step
          exact .bare p removed subs doubt failed' failed found
      | some pfplain =>
          simp only [found] at step
          cases step
          exact .rest p pfplain removed subs doubt failed' failed found
  | bare p removed subs doubt failed' failed'' unprefixed =>
      exact attempt_round c wlower suresubw _ v' rfl rfl (by simp) step
  | rest p pfplain removed subs doubt failed' failed'' found =>
      cases ends : t.findEnclitic p with
      | none =>
          exact attempt_round c wlower suresubw _ v' rfl rfl (by simp [ends]) step
      | some enc =>
          simp only [nextTry, ends] at step
          cases step
          exact .again p pfplain enc removed subs doubt failed' failed'' found ends failed
  | again p pfplain enc removed subs doubt failed' failed'' found ends failed₃ =>
      simp only [nextTry, tryEnclitic] at step
      cases step
      exact .both p pfplain enc removed subs doubt failed' failed'' found ends failed₃
  | both p pfplain enc removed subs doubt failed' failed'' found ends failed₃ =>
      exact attempt_round c wlower suresubw _ v' rfl rfl (by simp) step

theorem variationLoop_attempt (c : Copy) (wlower suresubw : Str) (fuel : Nat) (v : Variation)
    (attempt : t.Attempt v) (v' : Variation) (macronw : Str)
    (ran : t.variationLoop c wlower suresubw fuel v = .ok (some (v', macronw))) :
    t.Attempt v' ∧ field t.keytbl v'.plainwtry = some macronw := by
  induction fuel generalizing v with
  | zero => cases ran
  | succ fuel ih =>
      unfold variationLoop at ran
      cases found : field t.keytbl v.plainwtry with
      | some here =>
          rw [found] at ran
          cases ran
          exact ⟨attempt, found⟩
      | none =>
          rw [found] at ran
          simp only [bind_eq_ok] at ran
          obtain ⟨next, step, ran⟩ := ran
          cases next with
          | none => cases ran
          | some next =>
              exact ih next (attempt.next c wlower suresubw ((field_eq_none _ _).mp found) step) ran

theorem cut_append {w pfplain enc : Str} (found : t.findPrefix w = some pfplain)
    (ends : t.findEnclitic w = some enc) :
    pfplain ++ cut w pfplain enc ++ enc = w ↔ enc.length ≤ (rest w pfplain).length := by
  have parts := (findPrefix_append found).2
  change pfplain ++ rest w pfplain = w at parts
  obtain ⟨short, last⟩ := findEnclitic_suffix ends
  constructor
  · intro joined
    have lengths := congrArg List.length (joined.trans parts.symm)
    simp only [List.length_append] at lengths
    omega
  · intro apart
    have tail : (rest w pfplain).drop ((rest w pfplain).length - enc.length) = enc := by
      calc
        (rest w pfplain).drop ((rest w pfplain).length - enc.length)
          = (pfplain ++ rest w pfplain).drop
              (pfplain.length + ((rest w pfplain).length - enc.length)) :=
          (List.drop_length_add_append _).symm
        _ = w.drop (w.length - enc.length) := by
          rw [parts]
          congr 1
          have lengths := congrArg List.length parts
          simp only [List.length_append] at lengths
          omega
        _ = enc := last
    have whole := (sub_length (rest w pfplain) enc.length).resolve_right (by omega)
    rw [tail] at whole
    rw [List.append_assoc, cut, whole, parts]

theorem attempt_whole_iff {v : Variation} (attempt : t.Attempt v) (here : v.plainwtry ∈ t.keytbl)
    (prefixes : ∀ pfplain ∈ t.prefixtbl, plain (t.prefixmac pfplain) = .ok pfplain) :
    Whole v ↔ t.Separable v.plainw := by
  have bare : plain ([] : Str) = .ok [] := rfl
  cases attempt with
  | whole p => exact ⟨fun _ failed => absurd here failed, fun _ => ⟨[], bare, by simp⟩⟩
  | stem p =>
      refine ⟨fun _ _ failed => absurd here failed, fun _ => ⟨[], bare, ?_⟩⟩
      cases ends : t.findEnclitic p with
      | none => simp [Tables.stem, ends]
      | some enc => simpa using stem_append ends
  | bare p removed subs doubt failed failed' => exact absurd here failed'
  | rest p pfplain removed subs doubt failed failed' begins =>
      obtain ⟨listed, parts⟩ := findPrefix_append begins
      have own := prefixes pfplain listed
      have joined (enc : Str) : pfplain ++ rest p pfplain ++ enc = p ↔ enc = [] := by
        change pfplain ++ rest p pfplain = p at parts
        rw [parts]
        exact List.append_right_eq_self
      constructor
      · rintro ⟨pf, same, whole⟩ _ _ enc pfplain' ends begins'
        cases begins.symm.trans begins'
        cases own.symm.trans same
        refine ⟨fun _ => (joined enc).mp ?_, fun failed'' => absurd here failed''⟩
        simpa [ends] using whole
      · intro separable
        refine ⟨pfplain, own, (joined _).mpr ?_⟩
        cases ends : t.findEnclitic p with
        | none => rfl
        | some enc => exact (separable failed failed' enc pfplain ends begins).1 here
  | again p pfplain enc removed subs doubt failed failed' begins ends failed'' =>
      exact absurd here failed''
  | both p pfplain enc removed subs doubt failed failed' begins ends failed'' =>
      have own := prefixes pfplain (findPrefix_append begins).1
      constructor
      · rintro ⟨pf, same, whole⟩ _ _ enc' pfplain' ends' begins'
        cases begins.symm.trans begins'
        cases ends.symm.trans ends'
        cases own.symm.trans same
        exact ⟨fun stored => absurd stored failed'', fun _ _ => (cut_append begins ends).mp whole⟩
      · intro separable
        have apart := (separable failed failed' enc pfplain ends begins).2 failed'' here
        exact ⟨pfplain, own, (cut_append begins ends).mpr apart⟩

/-- A look-up that succeeds takes the word apart without loss just when its plain word is
separable. -/
theorem variationLoop_whole (t : Tables) (c : Copy) (wlower suresubw : Str) (fuel : Nat)
    (subatpostbl : Positions) (prefixes : ∀ pfplain ∈ t.prefixtbl, plain (t.prefixmac pfplain) = .ok pfplain)
    (v : Variation) (macronw : Str)
    (ran : t.variationLoop c wlower suresubw fuel (.start suresubw false subatpostbl none) =
      .ok (some (v, macronw))) : Whole v ↔ t.Separable v.plainw := by
  obtain ⟨attempt, found⟩ := variationLoop_attempt c wlower suresubw fuel _ (.whole _ _ _ _) v macronw ran
  exact attempt_whole_iff attempt (mem_of_field found) prefixes

def quisqueTables : Tables :=
  { Tables.empty with
    keytbl := AList.insert (lit "quisque") (lit "quisque") ∅
    enclitictbl := AList.insert (lit "que") true ∅
    prefixtbl := [lit "in"] }

/-- `inquisqueque` is found without both. -/
theorem variationLoop_whole_inquisqueque : ∃ v : Variation, v.plainw = lit "inquisqueque" ∧
    v.enclitic = some (lit "que") ∧ v.prefixform = some (lit "in") ∧
      (Whole v ↔ quisqueTables.Separable v.plainw) := by
  have affixes : Option.map (fun e : Variation × Str => [some e.1.plainw, e.1.enclitic, e.1.prefixform]) <$>
      quisqueTables.variationLoop (quisqueTables.desktop 9) (lit "inquisqueque") (lit "inquisqueque") 9
        (.start (lit "inquisqueque") false [] none) =
      .ok (some [some (lit "inquisqueque"), some (lit "que"), some (lit "in")]) := by
    decide
  obtain ⟨found, ran, shape⟩ := map_eq_ok.mp affixes
  obtain ⟨⟨v, macronw⟩, rfl, parts⟩ := Option.map_eq_some_iff.mp shape
  simp only [List.cons.injEq, Option.some.injEq, and_true] at parts
  exact ⟨v, parts.1, parts.2.1, parts.2.2, variationLoop_whole quisqueTables (quisqueTables.desktop 9)
    (lit "inquisqueque") (lit "inquisqueque") 9 [] (by decide) v macronw ran⟩

/-- `inquisque` is found with the prefix taken off and the enclitic still at its end. -/
theorem variationLoop_inquisque :
    ¬ ∀ (t : Tables) (fuel : Nat) (wlower suresubw : Str) (subatpostbl : Positions) (v : Variation)
      (macronw : Str), (∀ pfplain ∈ t.prefixtbl, plain (t.prefixmac pfplain) = .ok pfplain) →
      t.variationLoop (t.desktop fuel) wlower suresubw fuel (.start suresubw false subatpostbl none) =
        .ok (some (v, macronw)) → Whole v := by
  intro claim
  have affixes : Option.map (fun e : Variation × Str => [some e.1.plainw, some e.1.plainwtry,
        e.1.enclitic, e.1.prefixform]) <$>
      quisqueTables.variationLoop (quisqueTables.desktop 9) (lit "inquisque") (lit "inquisque") 9
        (.start (lit "inquisque") false [] none) =
      .ok (some [some (lit "inquisque"), some (lit "quisque"), some (lit "que"), some (lit "in")]) := by
    decide
  obtain ⟨found, ran, shape⟩ := map_eq_ok.mp affixes
  obtain ⟨⟨v, macronw⟩, rfl, parts⟩ := Option.map_eq_some_iff.mp shape
  simp only [List.cons.injEq, Option.some.injEq, and_true] at parts
  obtain ⟨plainw, plainwtry, enclitic, prefixform⟩ := parts
  obtain ⟨pfplain, same, whole⟩ :=
    claim quisqueTables 9 (lit "inquisque") (lit "inquisque") [] v macronw (by decide) ran
  have own : plain (lit "in") = .ok (lit "in") := by decide
  rw [prefixform, Option.getD_some, own] at same
  cases same
  rw [plainw, plainwtry, enclitic] at whole
  exact absurd whole (by decide)

end

end Maccer.Tables
