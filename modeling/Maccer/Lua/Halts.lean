import Maccer.Lua.Bounds

/-! Computations that are not cut off. A search never is: each call of the matcher consumes part of the pattern, so that
its length is fuel enough. -/

namespace Lua

variable {s : Str}

def Halts {α : Type} (x : Run α) : Prop := x ≠ .error .running

theorem halts_ok {α : Type} (a : α) : Halts (.ok a : Run α) := by
  intro same
  cases same

theorem halts_raised {α : Type} : Halts (.error .raised : Run α) := by
  intro same
  cases same

theorem Halts.bind {α β : Type} {x : Run α} {next : α → Run β} (first : Halts x)
    (later : ∀ a, x = .ok a → Halts (next a)) : Halts (x >>= next) := by
  cases x with
  | ok a => exact later a rfl
  | error fault => exact fun running => first (congrArg _ (Except.error.inj running))

theorem Halts.map {α β : Type} {x : Run α} (f : α → β) (ends : Halts x) : Halts (x.map f) := by
  cases x with
  | ok a => exact halts_ok _
  | error fault => exact fun running => ends (congrArg _ (Except.error.inj running))

theorem Halts.ite {α : Type} {c : Prop} [Decidable c] {x y : Run α} (yes : Halts x) (no : Halts y) :
    Halts (if c then x else y) := by
  split
  · exact yes
  · exact no

theorem foldlM_halts {α β : Type} {step : β → α → Run β} (each : ∀ b a, Halts (step b a)) (as : List α) (b : β) :
    Halts (as.foldlM step b) := by
  induction as generalizing b with
  | nil => exact halts_ok b
  | cons a as ih => exact Halts.bind (each b a) fun next _ => ih next

/-! Fuel. -/

def Settles {α : Type} (run : Nat → Nat → Run α) : Prop :=
  ∃ result, Halts result ∧ ∃ enough, ∀ fuel rounds, enough ≤ fuel → enough ≤ rounds → run fuel rounds = result

theorem Halts.settles {α : Type} {x : Run α} (halts : Halts x) : Settles fun _ _ => x :=
  ⟨x, halts, 0, fun _ _ _ _ => rfl⟩

theorem Settles.bind {α β : Type} {run : Nat → Nat → Run α} {next : α → Nat → Nat → Run β} (first : Settles run)
    (later : ∀ a, (∃ fuel rounds, run fuel rounds = .ok a) → Settles (next a)) :
    Settles fun fuel rounds => run fuel rounds >>= fun a => next a fuel rounds := by
  obtain ⟨result, halts, enough, same⟩ := first
  cases result with
  | error fault =>
      refine ⟨.error fault, fun running => halts (congrArg _ (Except.error.inj running)), enough,
        fun fuel rounds more more' => ?_⟩
      dsimp only
      rw [same fuel rounds more more']
      rfl
  | ok a =>
      obtain ⟨result', halts', enough', same'⟩ := later a ⟨enough, enough, same _ _ le_rfl le_rfl⟩
      refine ⟨result', halts', max enough enough', fun fuel rounds more more' => ?_⟩
      have first := same fuel rounds (le_trans (le_max_left _ _) more) (le_trans (le_max_left _ _) more')
      have second := same' fuel rounds (le_trans (le_max_right _ _) more) (le_trans (le_max_right _ _) more')
      dsimp only
      rw [first]
      exact second

theorem Settles.round {α : Type} {run run' : Nat → Nat → Run α} (settles : Settles run)
    (step : ∀ fuel rounds, run' fuel (rounds + 1) = run fuel rounds) : Settles run' := by
  obtain ⟨result, halts, enough, same⟩ := settles
  refine ⟨result, halts, enough + 1, fun fuel rounds more more' => ?_⟩
  obtain ⟨rounds, rfl⟩ : ∃ n, rounds = n + 1 := ⟨rounds - 1, by omega⟩
  rw [step]
  exact same fuel rounds (by omega) (by omega)

theorem settles_of_more {α : Type} {run : Nat → Run α} (some : ∃ fuel, Halts (run fuel))
    (more : ∀ fuel extra result, run fuel = result → Halts result → run (fuel + extra) = result) :
    Settles fun fuel _ => run fuel := by
  obtain ⟨fuel, halts⟩ := some
  refine ⟨run fuel, halts, fuel, fun fuel' _ enough _ => ?_⟩
  obtain ⟨extra, rfl⟩ := Nat.exists_eq_add_of_le enough
  exact more fuel extra _ rfl halts

theorem Settles.congr {α : Type} {run run' : Nat → Nat → Run α} (settles : Settles run)
    (same : ∀ fuel rounds, run' fuel rounds = run fuel rounds) : Settles run' := by
  obtain ⟨result, halts, enough, ended⟩ := settles
  exact ⟨result, halts, enough, fun fuel rounds more more' => (same fuel rounds).trans (ended fuel rounds more more')⟩

theorem Settles.diagonal {α : Type} {run : Nat → Nat → Run α} (settles : Settles run) :
    Settles fun fuel _ => run fuel fuel := by
  obtain ⟨result, halts, enough, same⟩ := settles
  exact ⟨result, halts, enough, fun fuel _ more _ => same fuel fuel more more⟩

theorem filterM_halts {α : Type} {keeps : α → Run Bool} (each : ∀ a, Halts (keeps a)) (as : List α) :
    Halts (as.filterM keeps) := by
  have later (as acc : List α) : Halts (as.filterAuxM keeps acc) := by
    induction as generalizing acc with
    | nil => exact halts_ok acc
    | cons a as ih => exact Halts.bind (each a) fun kept _ => ih _
  exact Halts.bind (later as []) fun _ _ => halts_ok _

/-! The matcher. -/

theorem setEnd_length (body rest : Str) (ended : setEnd body = some rest) : rest.length < body.length := by
  induction body using setEnd.induct with
  | case1 => cases ended
  | case2 name body closed =>
      rw [setEnd, if_pos closed] at ended
      obtain rfl := Option.some.inj ended
      simp only [List.length_tail, List.length_cons]
      omega
  | case3 name body open' ih =>
      rw [setEnd, if_neg open'] at ended
      have shorter := ih ended
      simp only [List.length_cons]
      omega
  | case4 b body plain closed =>
      rw [setEnd.eq_3 b body plain, if_pos closed] at ended
      obtain rfl := Option.some.inj ended
      simp only [List.length_tail, List.length_cons]
      omega
  | case5 b body plain open' ih =>
      rw [setEnd.eq_3 b body plain, if_neg open'] at ended
      have shorter := ih ended
      simp only [List.length_cons]
      omega

theorem classEnd_length (pattern rest : Str) (ended : classEnd pattern = some rest) :
    rest.length < pattern.length := by
  unfold classEnd at ended
  split at ended
  · cases ended
  · split at ended
    · cases ended
    · obtain rfl := Option.some.inj ended
      simp only [List.length_tail, List.length_cons]
      omega
  · have shorter := setEnd_length _ _ ended
    rw [List.length_cons]
    split at shorter
    · rw [List.length_tail] at shorter
      omega
    · omega
  · obtain rfl := Option.some.inj ended
    simp

theorem maxExpand_halts {next : Nat → Outcome} (each : ∀ i, Halts (next i)) (start count : Nat) :
    Halts (maxExpand next start count) := by
  induction count with
  | zero => exact each start
  | succ count ih =>
      unfold maxExpand
      split
      · exact ih
      · exact each _

theorem minExpand_halts {next : Nat → Outcome} (each : ∀ i, Halts (next i)) (start count : Nat) :
    Halts (minExpand next start count) := by
  induction count generalizing start with
  | zero => exact each start
  | succ count ih =>
      unfold minExpand
      split
      · exact ih (start + 1)
      · exact each start

theorem matchItem_halts {next : Str → Nat → Outcome} {pattern rest : Str} (i : Nat)
    (each : ∀ after, after.length ≤ rest.length → ∀ i, Halts (next after i)) :
    Halts (matchItem s next pattern rest i) := by
  unfold matchItem
  simp only
  split
  · rename_i after
    have behind := each after (by simp)
    split
    · split
      · exact behind i
      · exact behind (i + 1)
    · exact behind i
  · rename_i after
    exact maxExpand_halts (each after (by simp)) i _
  · rename_i after
    split
    · exact maxExpand_halts (each after (by simp)) (i + 1) _
    · exact halts_ok _
  · rename_i after
    exact minExpand_halts (each after (by simp)) i _
  · split
    · exact each rest le_rfl (i + 1)
    · exact halts_ok _

theorem matchHere_halts (fuel : Nat) (pattern : Str) (i : Nat) (captures : List Capture)
    (enough : pattern.length < fuel) : Halts (matchHere s fuel pattern i captures) := by
  induction fuel generalizing pattern i captures with
  | zero => omega
  | succ fuel ih =>
      unfold matchHere
      split
      · exact halts_ok _
      · exact halts_ok _
      · exact ih _ _ _ (by simp only [List.length_cons] at enough; omega)
      · exact ih _ _ _ (by simp only [List.length_cons] at enough; omega)
      · split
        · exact ih _ _ _ (by simp only [List.length_cons] at enough; omega)
        · exact halts_raised
      · split
        all_goals exact halts_ok _
      · split
        · split
          · exact ih _ _ _ (by simp only [List.length_cons] at enough; omega)
          · exact halts_ok _
        · exact halts_ok _
      · rename_i rest
        split
        · rename_i after _ ended
          have shorter := classEnd_length rest after ended
          split
          · exact ih _ _ _ (by simp only [List.length_cons] at enough; omega)
          · exact halts_ok _
        · exact halts_raised
      · split
        · exact halts_raised
        · rename_i rest ended
          have shorter := classEnd_length pattern rest ended
          have items (i : Nat) (pattern : Str) :
              Halts (matchItem s (fun q j => matchHere s fuel q j captures) pattern rest i) :=
            matchItem_halts i fun after short j => ih after j captures (by omega)
          split
          · split
            · rename_i name _ _ _ _ _ digit
              split
              · exact ih rest _ captures (by omega)
              · exact halts_ok _
              · rename_i fault compared
                intro running
                rw [Except.error.inj running] at compared
                unfold matchCapture at compared
                split at compared
                · split at compared
                  · cases compared
                  · split at compared
                    all_goals cases compared
                · cases compared
            · exact items i _
          · exact items i _

theorem searchFrom_halts {here : Nat → Outcome} (each : ∀ i, Halts (here i)) (count i : Nat) :
    Halts (searchFrom here count i) := by
  induction count generalizing i with
  | zero => exact halts_ok _
  | succ count ih =>
      unfold searchFrom
      split
      · exact halts_ok _
      · exact ih (i + 1)
      · rename_i fault failed
        intro running
        rw [Except.error.inj running] at failed
        exact each i failed

theorem matchAt_halts (s pattern : Str) (i : Nat) : Halts (matchAt s pattern i) :=
  matchHere_halts _ pattern i [] (Nat.lt_succ_self _)

/-- `string.find` returns or raises. -/
theorem find_halts (s pattern : Str) (init : Int) : Halts (find s pattern init) := by
  unfold find
  split
  · refine Halts.bind ?_ fun found _ => ?_
    · unfold findPattern
      split
      · exact searchFrom_halts (matchAt_halts s _) 1 _
      · exact searchFrom_halts (matchAt_halts s _) _ _
    · cases found with
      | none => exact halts_ok _
      | some => exact Halts.ite halts_raised (halts_ok _)
  · exact halts_ok _

theorem fillIn_halts (whole : Str) (groups : List Str) (replacement : Str) :
    Halts (fillIn whole groups replacement) := by
  fun_induction fillIn whole groups replacement with
  | case1 rest digit ih => exact ih.map _
  | case2 b rest digit other group found ih => exact ih.map _
  | case3 => exact halts_raised
  | case4 b rest other ih => exact ih.map _
  | case5 b rest plain ih => exact ih.map _
  | case6 => exact halts_ok _

theorem gsubFrom_halts (pattern replacement : Str) (fuel count i : Nat) (inside : i ≤ s.length)
    (enough : s.length - i + 1 < fuel) : Halts (gsubFrom s pattern replacement fuel count i) := by
  induction fuel generalizing count i with
  | zero => omega
  | succ fuel ih =>
      unfold gsubFrom
      refine Halts.ite (halts_ok _) ?_
      cases found : matchAt s pattern i with
      | error fault =>
          intro running
          have cut : fault = .running := Except.error.inj running
          exact matchAt_halts s pattern i (cut ▸ found)
      | ok outcome =>
          cases outcome with
          | none =>
              dsimp only
              split
              · exact Halts.bind (ih count (i + 1) (by omega) (by omega)) fun rest _ => halts_ok _
              · exact halts_ok _
          | some ended =>
              obtain ⟨stop, captures⟩ := ended
              have bounds := matchHere_confined _ pattern [] i stop captures inside found
              dsimp only
              refine Halts.bind (fillIn_halts _ _ _) fun text _ => ?_
              split
              · exact Halts.bind (ih (count - 1) stop (by omega) (by omega)) fun rest _ => halts_ok _
              · split
                · exact Halts.bind (ih (count - 1) (i + 1) (by omega) (by omega)) fun rest _ => halts_ok _
                · exact halts_ok _

/-- `string.gsub` returns or raises. -/
theorem gsubAll_halts (s pattern replacement : Str) : Halts (gsubAll s pattern replacement) :=
  gsubFrom_halts pattern replacement _ _ 0 (Nat.zero_le _) (by omega)

end Lua
