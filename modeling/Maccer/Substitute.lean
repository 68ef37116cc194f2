import Maccer.Ignore

/-! `macra.subword`: orthographic substitutions in a word. -/

namespace Maccer

open Lua

/-- `modstr:find` for one of the modifier characters. -/
def hasMod (mod : Str) (char : UInt8) : Bool := mod.contains char

/-- `(modtbl[i] or ""):find(macra.DOUBT_CHAR)`. -/
def Rule.doubtful (rule : Rule) : Bool := hasMod (rule.mod.getD []) 126

/-- `macra.issubvalid`, where no result is the nil that it returns for modifiers
it does not know. The enclitic it compares with is a global that is never set, so
that a substitution at the end of words applies at the very end only. -/
def issubvalid (w : Str) (mod : Option Str) (replstart replend : Int) (subbed : Bool) :
    Option Bool :=
  match mod with
  | none => some true
  | some modstr =>
      if modstr = lit "~" then some true
      else
        let chain := if hasMod modstr 42 then some (!subbed) else none
        let left :=
          if hasMod modstr 91 && chain != some false then some (replstart == 1)
          else if hasMod modstr 60 then some (decide (replstart > 1))
          else chain
        if hasMod modstr 93 && left != some false then some (replend == w.length)
        else if hasMod modstr 62 && left != some false then some (decide (replend < w.length))
        else left

abbrev Positions := List (Nat × Nat)

def prevdsubi (rules : List Rule) (prev : Str × Positions) (replstart : Nat) : Run (Option Nat) :=
  match prev.2.lookup replstart with
  | some i => return some i
  | none => do
      let dlen ← Utf8.len prev.1
      return (List.range' 1 dlen).findSome? fun j =>
        (prev.2.lookup j).filter fun i => (rules[i - 1]?).any Rule.doubtful

structure Substituted where
  subw : Str
  subatpostbl : Positions
  subbed : Bool
  deriving DecidableEq, Repr

namespace Tables

variable (t : Tables)

def toAscii (ascii : Bool) (str : Str) : Run Str :=
  if ascii then Utf8.replace str (field t.unicode.unicodeinvtbl) else return str

def applyAt (i : Nat) (rule : Rule) (includedoubtful ascii : Bool) (prev : Option (Str × Positions))
    (replstart replend : Int) (s : Substituted) : Run Substituted := do
  if includedoubtful || !rule.doubtful then
    let repl ← t.toAscii ascii rule.repl
    let newsubw := Lua.sub s.subw 1 (replstart - 1) ++ repl ++ subFrom s.subw (replend + 1)
    let applied : Substituted := ⟨newsubw, (replstart.toNat, i) :: s.subatpostbl, true⟩
    match prev with
    | none => return applied
    | some prev => do
        let last ← prevdsubi t.rules prev replstart.toNat
        if prev.1 ≠ newsubw ∧ last.getD (i + 1) < i then return applied else return s
  else return s

theorem applyAt_cases {i : Nat} {rule : Rule} {includedoubtful ascii : Bool} {prev : Option (Str × Positions)}
    {replstart replend : Int} {s next : Substituted}
    (ran : t.applyAt i rule includedoubtful ascii prev replstart replend s = .ok next) :
    next = s ∨ ∃ repl, t.toAscii ascii rule.repl = .ok repl ∧
      next = ⟨Lua.sub s.subw 1 (replstart - 1) ++ repl ++ subFrom s.subw (replend + 1),
        (replstart.toNat, i) :: s.subatpostbl, true⟩ := by
  unfold applyAt at ran
  split at ran
  · obtain ⟨repl, shown, ran⟩ := bind_eq_ok.mp ran
    cases prev with
    | none => exact .inr ⟨repl, shown, (Except.ok.inj ran).symm⟩
    | some prev =>
        obtain ⟨last, _, ran⟩ := bind_eq_ok.mp ran
        split at ran
        · exact .inr ⟨repl, shown, (Except.ok.inj ran).symm⟩
        · exact .inl (Except.ok.inj ran).symm
  · exact .inl (Except.ok.inj ran).symm

def applyRule (i : Nat) (rule : Rule) (orig : Str) (includedoubtful ascii : Bool)
    (prev : Option (Str × Positions)) : Nat → Int → Substituted → Run Substituted
  | 0, _, _ => throw .running
  | fuel + 1, findstart, s => do
      match ← find s.subw orig findstart with
      | none => return s
      | some (replstart, replend) =>
          if issubvalid s.subw rule.mod replstart replend s.subbed = some true then
            let s ← t.applyAt i rule includedoubtful ascii prev replstart replend s
            applyRule i rule orig includedoubtful ascii prev fuel (replend + 1) s
          else return s

def applyRules (fuel : Nat) (includedoubtful ascii : Bool) (prev : Option (Str × Positions)) :
    List Rule → Nat → Substituted → Run Substituted
  | [], _, s => return s
  | rule :: rules, i, s => do
      let orig ← t.toAscii ascii rule.orig
      let s ← t.applyRule i rule orig includedoubtful ascii prev fuel 1 s
      applyRules fuel includedoubtful ascii prev rules (i + 1) s

/-- `macra.subword`. A word that comes out unchanged has no substitutions. -/
def subword (fuel : Nat) (w : Str) (includedoubtful ascii : Bool)
    (prev : Option (Str × Positions)) : Run (Str × Positions) := do
  let s ← t.applyRules fuel includedoubtful ascii prev t.rules 1 ⟨w, [], false⟩
  return (s.subw, if s.subw = w then [] else s.subatpostbl)

end Tables

end Maccer
