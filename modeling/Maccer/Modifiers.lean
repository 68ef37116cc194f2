import Maccer.Substitute

/-! What the modifiers of a substitution mean, and what `issubvalid` makes of them. -/

namespace Maccer

open Lua

/-- A string of modifiers that are not all marks of doubt, or one such mark, with at most
one modifier for each side. -/
structure Modifiers (mod : Str) : Prop where
  known : ∀ c ∈ mod, c ∈ lit "[]<>*~"
  tells : mod = lit "~" ∨ ∃ c ∈ mod, c ≠ 126
  left : ¬ (91 ∈ mod ∧ 60 ∈ mod)
  right : ¬ (93 ∈ mod ∧ 62 ∈ mod)

def EndsWord (enclitics : List Str) (w : Str) (replend : Nat) : Prop :=
  replend = w.length ∨ w.drop replend ∈ enclitics

structure Satisfies (enclitics : List Str) (w mod : Str) (replstart replend : Nat) (subbed : Bool) : Prop where
  nochain : 42 ∈ mod → subbed = false
  begins : 91 ∈ mod → replstart = 1
  continues : 60 ∈ mod → replstart ≠ 1
  ends : 93 ∈ mod → EndsWord enclitics w replend
  goesOn : 62 ∈ mod → replend ≠ w.length

/-- What `issubvalid` accepts: `<` overrides `*`, and the end of the word is its last byte. -/
structure Accepted (w mod : Str) (replstart replend : Nat) (subbed : Bool) : Prop where
  nochain : 42 ∈ mod → 60 ∉ mod → subbed = false
  begins : 91 ∈ mod → replstart = 1
  continues : 60 ∈ mod → replstart ≠ 1
  ends : 93 ∈ mod → replend = w.length
  goesOn : 62 ∈ mod → replend ≠ w.length

def BeforeEnclitic (enclitics : List Str) (w mod : Str) (replstart replend : Nat) (subbed : Bool) : Prop :=
  93 ∈ mod ∧ replend ≠ w.length ∧ w.drop replend ∈ enclitics ∧ (42 ∈ mod → subbed = false) ∧
    (91 ∈ mod → replstart = 1) ∧ (60 ∈ mod → replstart ≠ 1)

/-- The match continues the word after another substitution, and nothing but that stands in
the way. -/
def ChainContinued (w mod : Str) (replstart replend : Nat) (subbed : Bool) : Prop :=
  42 ∈ mod ∧ subbed = true ∧ 60 ∈ mod ∧ replstart ≠ 1 ∧ (93 ∈ mod → replend = w.length) ∧
    (62 ∈ mod → replend ≠ w.length)

theorem hasMod_iff (mod : Str) (char : UInt8) : hasMod mod char = true ↔ char ∈ mod := by
  rw [hasMod, List.contains_iff_mem]

theorem Modifiers.some {mod : Str} (modifiers : Modifiers mod) (other : mod ≠ lit "~") :
    91 ∈ mod ∨ 93 ∈ mod ∨ 60 ∈ mod ∨ 62 ∈ mod ∨ 42 ∈ mod := by
  obtain ⟨c, member, apart⟩ := modifiers.tells.resolve_left other
  have characters : lit "[]<>*~" = [91, 93, 60, 62, 42, 126] := by decide
  have known := modifiers.known c member
  rw [characters] at known
  simp only [List.mem_cons, List.not_mem_nil, or_false] at known
  rcases known with rfl | rfl | rfl | rfl | rfl | rfl
  · exact .inl member
  · exact .inr (.inl member)
  · exact .inr (.inr (.inl member))
  · exact .inr (.inr (.inr (.inl member)))
  · exact .inr (.inr (.inr (.inr member)))
  · exact absurd rfl apart

theorem issubvalid_accepts (w mod : Str) (modifiers : Modifiers mod) (replstart replend : Nat)
    (subbed : Bool) (first : 1 ≤ replstart) (last : replend ≤ w.length) :
    issubvalid w (some mod) replstart replend subbed = some true ↔ Accepted w mod replstart replend subbed := by
  by_cases doubt : mod = lit "~"
  · have alone : ∀ c ∈ [42, 91, 60, 93, 62], c ∉ lit "~" := by decide +kernel
    subst doubt
    refine iff_of_true (by simp [issubvalid]) ⟨?_, ?_, ?_, ?_, ?_⟩ <;>
      exact fun member => absurd member (alone _ (by decide))
  · have some := modifiers.some doubt
    have left := modifiers.left
    have right := modifiers.right
    have start : ((replstart : Int) == 1) = decide (replstart = 1) := by
      rw [Bool.beq_eq_decide_eq]
      exact decide_eq_decide.mpr (by omega)
    have after : decide ((replstart : Int) > 1) = !decide (replstart = 1) := by
      rw [← decide_not]
      exact decide_eq_decide.mpr (by omega)
    have ended : ((replend : Int) == w.length) = decide (replend = w.length) := by
      rw [Bool.beq_eq_decide_eq]
      exact decide_eq_decide.mpr (by omega)
    have before : decide ((replend : Int) < w.length) = !decide (replend = w.length) := by
      rw [← decide_not]
      exact decide_eq_decide.mpr (by omega)
    have accepted : Accepted w mod replstart replend subbed ↔ (42 ∈ mod → 60 ∉ mod → subbed = false) ∧
        (91 ∈ mod → replstart = 1) ∧ (60 ∈ mod → replstart ≠ 1) ∧ (93 ∈ mod → replend = w.length) ∧
        (62 ∈ mod → replend ≠ w.length) :=
      ⟨fun is => ⟨is.nochain, is.begins, is.continues, is.ends, is.goesOn⟩,
        fun is => ⟨is.1, is.2.1, is.2.2.1, is.2.2.2.1, is.2.2.2.2⟩⟩
    rw [accepted]
    obtain ⟨atStart, atStart'⟩ : ∃ b : Bool, replstart = 1 ↔ b = true := ⟨decide _, decide_eq_true_iff.symm⟩
    obtain ⟨atEnd, atEnd'⟩ : ∃ b : Bool, replend = w.length ↔ b = true := ⟨decide _, decide_eq_true_iff.symm⟩
    simp only [issubvalid, if_neg doubt, ← hasMod_iff, start, after, ended, before, ne_eq, atStart',
      atEnd', Bool.decide_eq_true] at some left right ⊢
    generalize hasMod mod 42 = nochain, hasMod mod 91 = begins, hasMod mod 60 = continues,
      hasMod mod 93 = ends, hasMod mod 62 = goesOn at *
    clear start after ended before accepted atStart' atEnd' modifiers
    -- one line of the truth table for each choice of modifiers
    cases nochain <;> cases begins <;> cases continues <;> cases ends <;> cases goesOn <;> simp_all <;>
      cases subbed <;> cases atStart <;> cases atEnd <;> simp

theorem satisfies_not_accepted (enclitics : List Str) (w mod : Str) (modifiers : Modifiers mod)
    (replstart replend : Nat) (subbed : Bool) :
    Satisfies enclitics w mod replstart replend subbed ∧ ¬ Accepted w mod replstart replend subbed ↔
      BeforeEnclitic enclitics w mod replstart replend subbed := by
  constructor
  · rintro ⟨satisfies, refused⟩
    have short : ¬ (93 ∈ mod → replend = w.length) := fun ends =>
      refused ⟨fun chain _ => satisfies.nochain chain, satisfies.begins, satisfies.continues, ends, satisfies.goesOn⟩
    obtain ⟨ends, inside⟩ := Classical.not_imp.mp short
    exact ⟨ends, inside, (satisfies.ends ends).resolve_left inside, satisfies.nochain, satisfies.begins,
      satisfies.continues⟩
  · rintro ⟨ends, inside, enclitic, nochain, begins, continues⟩
    refine ⟨⟨nochain, begins, continues, fun _ => .inr enclitic, fun goesOn => ?_⟩, fun accepted => ?_⟩
    · exact absurd ⟨ends, goesOn⟩ modifiers.right
    · exact inside (accepted.ends ends)

theorem accepted_not_satisfies (enclitics : List Str) (w mod : Str) (modifiers : Modifiers mod)
    (replstart replend : Nat) (subbed : Bool) :
    Accepted w mod replstart replend subbed ∧ ¬ Satisfies enclitics w mod replstart replend subbed ↔
      ChainContinued w mod replstart replend subbed := by
  constructor
  · rintro ⟨accepted, refused⟩
    have chained : ¬ (42 ∈ mod → subbed = false) := fun nochain =>
      refused ⟨nochain, accepted.begins, accepted.continues, fun ends => .inl (accepted.ends ends), accepted.goesOn⟩
    obtain ⟨chain, second⟩ := Classical.not_imp.mp chained
    have continues : 60 ∈ mod := by
      by_contra absent
      exact second (accepted.nochain chain absent)
    exact ⟨chain, Bool.not_eq_false _ ▸ second, continues, accepted.continues continues, accepted.ends, accepted.goesOn⟩
  · rintro ⟨chain, second, continues, inside, ends, goesOn⟩
    refine ⟨⟨fun _ absent => absurd continues absent, fun begins => ?_, fun _ => inside, ends, goesOn⟩,
      fun satisfies => ?_⟩
    · exact absurd ⟨begins, continues⟩ modifiers.left
    · rw [satisfies.nochain chain] at second
      cases second

/-- The modifiers mean what the lists say but in two cases: an enclitic after the match is
not seen, and `<` overrides `*`. -/
theorem issubvalid_satisfies (enclitics : List Str) (w mod : Str) (modifiers : Modifiers mod)
    (replstart replend : Nat) (subbed : Bool) (first : 1 ≤ replstart) (last : replend ≤ w.length) :
    (issubvalid w (some mod) replstart replend subbed = some true ↔
      Satisfies enclitics w mod replstart replend subbed) ↔
      ¬ BeforeEnclitic enclitics w mod replstart replend subbed ∧
        ¬ ChainContinued w mod replstart replend subbed := by
  rw [issubvalid_accepts w mod modifiers replstart replend subbed first last,
    ← satisfies_not_accepted enclitics w mod modifiers, ← accepted_not_satisfies enclitics w mod modifiers]
  generalize Accepted w mod replstart replend subbed = accepted
  generalize Satisfies enclitics w mod replstart replend subbed = satisfies
  tauto

theorem ending_modifiers : Modifiers (lit "]") where
  known := by decide +kernel
  tells := .inr ⟨93, by decide, by decide⟩
  left := by decide
  right := by decide

theorem issubvalid_satisfies_bona : issubvalid (lit "bona") (some (lit "]")) 4 4 false = some true ↔
    Satisfies [lit "que"] (lit "bona") (lit "]") 4 4 false :=
  (issubvalid_satisfies [lit "que"] (lit "bona") (lit "]") ending_modifiers 4 4 false (by decide)
    (by decide)).mpr ⟨fun before => before.2.1 (by decide), fun chained => absurd chained.1 (by decide)⟩

/-- The `a` of `bonaque` ends the word before its enclitic. -/
theorem issubvalid_bonaque :
    ¬ ∀ (enclitics : List Str) (w mod : Str) (replstart replend : Nat) (subbed : Bool), Modifiers mod →
      1 ≤ replstart → replstart ≤ replend → replend ≤ w.length →
      (issubvalid w (some mod) replstart replend subbed = some true ↔
        Satisfies enclitics w mod replstart replend subbed) := by
  intro claim
  have accepted := claim [lit "que"] (lit "bonaque") (lit "]") 4 4 false ending_modifiers (by decide) (by decide)
    (by decide)
  have refused : issubvalid (lit "bonaque") (some (lit "]")) 4 4 false ≠ some true := by decide
  have absent : ∀ c ∈ [42, 91, 60, 62], c ∉ lit "]" := by decide +kernel
  apply refused
  apply accepted.mpr
  exact ⟨fun star => absurd star (absent _ (by decide)),
    fun left => absurd left (absent _ (by decide)), fun left => absurd left (absent _ (by decide)),
    fun _ => .inr (by decide), fun right => absurd right (absent _ (by decide))⟩

end Maccer
