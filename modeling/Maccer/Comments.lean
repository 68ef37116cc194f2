import Maccer.Options

/-! `mac.lua` on texts with comments. -/

namespace Maccer

open Lua

/-- Whether the byte `text[i]` is at one of the positions that `getcommentset` sets. -/
def inComment (commentstbl : List (Int × Int)) (i : Nat) : Bool :=
  commentstbl.any fun r => r.1 ≤ (i : Int) + 1 && (i : Int) + 1 ≤ r.2

def commentPieces (commentstbl : List (Int × Int)) (text : Str) : List (Bool × Str) :=
  let bytes := text.zipIdx.map fun (b, i) => (inComment commentstbl i, b)
  (bytes.splitBy fun a b => a.1 == b.1).map fun run => (run.any (·.1), run.map (·.2))

example : commentPieces [(3, 5)] (lit "a //b\n") = [(false, lit "a "), (true, lit "//b"), (false, lit "\n")] := by
  decide

def joined (pieces : List (Bool × Str)) : Str := pieces.flatMap (·.2)

def blanked (pieces : List (Bool × Str)) : List (Bool × Str) :=
  pieces.map fun piece => (piece.1, if piece.1 then List.replicate piece.2.length 32 else piece.2)

namespace Tables

variable (t : Tables)

/-- `macronize`, with the option as `mac.lua` has it, ends and returns `out`. -/
def Marks (text out : Str) : Prop :=
  ∃ fuel, t.macronize (t.desktop fuel) (Options.preset.OVERWRITE_MACS == some true) fuel text = .ok out

/-- The comments come out unchanged, and what is outside them as if they were blank. -/
def CommentsAlone (commentstbl : List (Int × Int)) (text : Str) : Prop :=
  ∃ out blankout, t.Marks text out ∧ t.Marks (joined (blanked (commentPieces commentstbl text))) blankout ∧
    ∃ pieces, List.Forall₂ (fun old new => new.1 = old.1 ∧ (old.1 = true → new.2 = old.2))
        (commentPieces commentstbl text) pieces ∧
      out = joined pieces ∧ blankout = joined (blanked pieces)

/-- Where a comment is found, `getcommentset` is called, and `mac.lua` has none. -/
theorem macronize_raises (text : Str) (commentstbl : List (Int × Int))
    (comments : getcommentset text = .ok commentstbl) (some : commentstbl ≠ []) (fuel : Nat) :
    t.macronize (t.desktop fuel) (Options.preset.OVERWRITE_MACS == .some true) fuel text = .error .raised := by
  have option : (Options.preset.OVERWRITE_MACS == .some true) = false := rfl
  obtain ⟨single, singles, comments⟩ := bind_eq_ok.mp comments
  obtain ⟨multi, multis, comments⟩ := bind_eq_ok.mp comments
  obtain ⟨first, found, singles⟩ := bind_eq_ok.mp singles
  obtain ⟨first', found', multis⟩ := bind_eq_ok.mp multis
  rw [macronize, option]
  simp only [Bool.false_eq_true, if_false, run_pure, run_bind_ok, found, found', run_map_ok]
  cases first with
  | some range => rfl
  | none =>
      cases first' with
      | some range => rfl
      | none =>
          simp only [run_pure, Except.ok.injEq] at singles multis comments
          exact absurd (by rw [← comments, ← singles, ← multis]; rfl) some

/-- A text with a comment stops the script. -/
theorem macronize_comments (text : Str) (commentstbl : List (Int × Int))
    (comments : getcommentset text = .ok commentstbl) (some : commentstbl ≠ []) :
    ¬ t.CommentsAlone commentstbl text := by
  intro ⟨out, _, ⟨fuel, ran⟩, _⟩
  rw [t.macronize_raises text commentstbl comments some fuel] at ran
  exact absurd ran (by simp)

theorem macronize_comments_arma : ¬ Tables.empty.CommentsAlone [(6, 12)] (lit "arma //virum\n") :=
  Tables.empty.macronize_comments (lit "arma //virum\n") [(6, 12)] (by decide) (by decide)

/-- A line comment is enough. -/
theorem macronize_commented :
    ¬ ∀ (t : Tables) (text : Str) (commentstbl : List (Int × Int)), getcommentset text = .ok commentstbl →
      commentstbl ≠ [] → t.CommentsAlone commentstbl text := by
  intro claim
  have comments : getcommentset (lit "arma //virum\n") = .ok [(6, 12)] := by decide
  obtain ⟨out, _, ⟨fuel, ran⟩, _⟩ := claim .empty (lit "arma //virum\n") [(6, 12)] comments (by decide)
  rw [Tables.empty.macronize_raises _ _ comments (by decide) fuel] at ran
  exact absurd ran (by simp)

end Tables

end Maccer
