import Maccer.Scanning
import Maccer.WordLetters

/-! A text that `macronize` returns, letter by letter that of the text that it was given. -/

namespace Maccer

open Lua

theorem Alike.valid {a b : Str} (alike : Alike a b) : Utf8.Valid b := by
  obtain ⟨_, bs, _, readable, _, rfl, _⟩ := alike
  exact ⟨bs, readable, rfl⟩

theorem Alike.append {a b c d : Str} (first : Alike a b) (second : Alike c d) : Alike (a ++ c) (b ++ d) := by
  have both := Alike.flatten (.cons first (.cons second .nil))
  simpa using both

namespace Tables

variable {t : Tables}

variable (t) in
/-- The texts that the scan comes to, with the places where it goes on. -/
inductive Met (overwrite : Bool) (fuel : Nat) (text : Str) : Str → Int → Prop
  | start : Met overwrite fuel text text 1
  | pass {text₁ text₂ : Str} {init₁ init₂ wstart wend : Int} (met : Met overwrite fuel text text₁ init₁)
      (found : findRun isLetter text₁ init₁ = some (wstart, wend))
      (ran : t.macronizeToken (t.desktop fuel) overwrite fuel text₁ wstart wend = .ok (text₂, init₂)) :
      Met overwrite fuel text text₂ init₂

section

variable (given : t.unicode = Maccer.unicode) (demacronises : t.Demacronises) (rules : t.ValidRules) (affixes : t.Affixes)
include given demacronises rules affixes

end

/-! Texts. -/

end Tables

end Maccer
