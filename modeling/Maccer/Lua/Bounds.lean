import Maccer.Lua.Pattern

/-! Where matches can lie: inside the subject, and not before their start. -/

namespace Lua

variable {s : Str}

def Confined (s : Str) (next : Nat → Outcome) : Prop :=
  ∀ i stop captures, i ≤ s.length → next i = .ok (some (stop, captures)) →
    i ≤ stop ∧ stop ≤ s.length

theorem repeated_le (s : Str) (i : Nat) (single : UInt8 → Bool) (inside : i ≤ s.length) :
    i + repeated s i single ≤ s.length := by
  have bound := (List.takeWhile_prefix (l := s.drop i) single).length_le
  rw [List.length_drop] at bound
  unfold repeated
  omega

theorem maxExpand_confined (next : Nat → Outcome) (confined : Confined s next)
    (start count stop : Nat) (captures : List Capture) (inside : start + count ≤ s.length)
    (found : maxExpand next start count = .ok (some (stop, captures))) :
    start ≤ stop ∧ stop ≤ s.length := by
  induction count with
  | zero => exact confined start stop captures (by omega) found
  | succ count ih =>
      unfold maxExpand at found
      split at found
      · exact ih (by omega) found
      · have bounds := confined _ stop captures inside found
        omega

theorem minExpand_confined (next : Nat → Outcome) (confined : Confined s next)
    (start count stop : Nat) (captures : List Capture) (inside : start + count ≤ s.length)
    (found : minExpand next start count = .ok (some (stop, captures))) :
    start ≤ stop ∧ stop ≤ s.length := by
  induction count generalizing start with
  | zero => exact confined start stop captures (by omega) found
  | succ count ih =>
      unfold minExpand at found
      split at found
      · have bounds := ih (start + 1) (by omega) found
        omega
      · exact confined start stop captures (by omega) found

theorem here_lt (i : Nat) (single : UInt8 → Bool) (here : (s[i]?).any single = true) :
    i < s.length := by
  by_contra outside
  rw [List.getElem?_eq_none (by omega)] at here
  simp at here

theorem matchItem_confined (next : Str → Nat → Outcome) (confined : ∀ q, Confined s (next q))
    (pattern rest : Str) : Confined s (matchItem s next pattern rest) := by
  intro i stop captures inside found
  unfold matchItem at found
  simp only at found
  split at found
  · split at found
    · rename_i after here
      have strict := here_lt i _ here
      split at found
      · exact confined after i stop captures inside found
      · have bounds := confined after (i + 1) stop captures strict found
        omega
    · exact confined _ i stop captures inside found
  · exact maxExpand_confined _ (confined _) i _ stop captures
      (repeated_le s i _ inside) found
  · split at found
    · rename_i after here
      have strict := here_lt i _ here
      have bounds := maxExpand_confined _ (confined after) (i + 1) _ stop captures
        (repeated_le s (i + 1) _ strict) found
      omega
    · cases found
  · exact minExpand_confined _ (confined _) i _ stop captures
      (repeated_le s i _ inside) found
  · split at found
    · rename_i here
      have strict := here_lt i _ here
      have bounds := confined rest (i + 1) stop captures strict found
      omega
    · cases found

theorem matchBalance_bounds (opening closing : UInt8) (rest : Str) (i depth stop : Nat)
    (found : matchBalance opening closing rest i depth = some stop) :
    i ≤ stop ∧ stop ≤ i + rest.length := by
  induction rest generalizing i depth with
  | nil => cases found
  | cons b rest ih =>
      simp only [matchBalance] at found
      simp only [List.length_cons]
      split at found
      · split at found
        · cases found
          omega
        · have bounds := ih _ _ found
          omega
      · split at found
        · have bounds := ih _ _ found
          omega
        · have bounds := ih _ _ found
          omega

theorem matchCapture_bounds (i : Nat) (digit : UInt8) (captures : List Capture) (stop : Nat)
    (found : matchCapture s i digit captures = .ok (some stop)) :
    i ≤ stop ∧ stop ≤ s.length := by
  unfold matchCapture at found
  split at found
  · rename_i start length _
    split at found
    · cases found
    · split at found
      · rename_i again
        cases found
        exact ⟨Nat.le_add_right _ _, again.1⟩
      · cases found
  · cases found

theorem matchHere_confined (fuel : Nat) (pattern : Str) (captures : List Capture) :
    Confined s (fun i => matchHere s fuel pattern i captures) := by
  induction fuel generalizing pattern captures with
  | zero => intro i stop _ _ found; cases found
  | succ fuel ih =>
      intro i stop caps inside found
      have item := fun rest => matchItem_confined (s := s)
        (fun q j => matchHere s fuel q j captures) (fun q => ih q captures) pattern rest
      simp only [matchHere] at found
      split at found
      · cases found
        exact ⟨le_rfl, inside⟩
      · cases found
        exact ⟨le_rfl, inside⟩
      · exact ih _ _ i stop caps inside found
      · exact ih _ _ i stop caps inside found
      · split at found
        · exact ih _ _ i stop caps inside found
        · cases found
      · split at found
        · cases found
          exact ⟨le_rfl, inside⟩
        · cases found
      · split at found
        · rename_i opening closing rest here
          split at found
          · rename_i middle balanced
            have strict : i < s.length := by
              by_contra outside
              rw [List.getElem?_eq_none (by omega)] at here
              cases here
            have bounds := matchBalance_bounds _ _ _ _ _ _ balanced
            rw [List.length_drop] at bounds
            have after := ih _ _ middle stop caps (by omega) found
            omega
          · cases found
        · cases found
      · split at found
        · split at found
          · exact ih _ _ i stop caps inside found
          · cases found
        · cases found
      · split at found
        · cases found
        · split at found
          · split at found
            · split at found
              · rename_i middle again
                have bounds := matchCapture_bounds i _ captures middle again
                have after := ih _ _ middle stop caps bounds.2 found
                omega
              · cases found
              · cases found
            · exact item _ i stop caps inside found
          · exact item _ i stop caps inside found

theorem searchFrom_bounds (here : Nat → Outcome) (confined : Confined s here)
    (count i start stop : Nat) (captures : List Capture) (inside : i + count ≤ s.length + 1)
    (found : searchFrom here count i = .ok (some (start, stop, captures))) :
    i ≤ start ∧ start ≤ stop ∧ stop ≤ s.length := by
  induction count generalizing i with
  | zero => cases found
  | succ count ih =>
      unfold searchFrom at found
      split at found
      · rename_i matched
        cases found
        exact ⟨le_rfl, confined _ _ _ (by omega) matched⟩
      · have bounds := ih (i + 1) (by omega) found
        omega
      · cases found

theorem findPattern_bounds (pattern : Str) (init : Int) (start stop : Nat)
    (captures : List Capture)
    (found : findPattern s pattern init = .ok (some (start, stop, captures))) :
    searchStart s init ≤ start ∧ start ≤ stop ∧ stop ≤ s.length := by
  have inside : searchStart s init ≤ s.length := Nat.min_le_right _ _
  simp only [findPattern] at found
  split at found
  · exact searchFrom_bounds _ (matchHere_confined _ _ _) 1 _ _ _ _ (by omega) found
  · exact searchFrom_bounds _ (matchHere_confined _ _ _) _ _ _ _ _ (by omega) found

theorem findPlain_bounds (word : Str) (init : Int) (start stop : Nat)
    (found : findPlain s word init = some (start, stop)) :
    searchStart s init ≤ start ∧ stop = start + word.length ∧ stop ≤ s.length ∧
      word <+: s.drop start := by
  have inside : searchStart s init ≤ s.length := Nat.min_le_right _ _
  simp only [findPlain, Option.map_eq_some_iff, Prod.mk.injEq] at found
  obtain ⟨i, located, rfl, rfl⟩ := found
  have here : word <+: s.drop i := List.isPrefixOf_iff_prefix.mp (by
    simpa using List.find?_some located)
  have range := List.mem_range'_1.mp (List.mem_of_find?_eq_some located)
  have short := here.length_le
  rw [List.length_drop] at short
  exact ⟨range.1, rfl, by omega, here⟩

/-- A match reported to a script lies inside the subject, from the first
position searched on; an empty one ends just before its start. -/
theorem find_bounds (pattern : Str) (init first last : Int)
    (found : find s pattern init = .ok (some (first, last))) :
    (searchStart s init : Int) + 1 ≤ first ∧ first ≤ last + 1 ∧ last ≤ s.length := by
  unfold find at found
  split at found
  · obtain ⟨result, searched, found⟩ := bind_eq_ok.mp found
    cases result with
    | none => cases found
    | some triple =>
        obtain ⟨start, stop, captures⟩ := triple
        have bounds := findPattern_bounds pattern init start stop captures searched
        dsimp only at found
        split at found
        case isTrue => cases found
        case isFalse =>
            cases found
            omega
  · simp only [Except.ok.injEq, Option.map_eq_some_iff, Prod.exists, Prod.mk.injEq] at found
    obtain ⟨start, stop, located, rfl, rfl⟩ := found
    have bounds := findPlain_bounds pattern init start stop located
    omega

end Lua
