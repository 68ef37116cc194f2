import Maccer.Lua.Pieces
import Maccer.Variations

/-! `macronize` goes from word to word: what it makes of a token does not depend on the text around it. -/

namespace Maccer

open Lua

/-! Places moved by what stands before a text. -/

theorem dropPeriods_shift (w : Str) (wstart wend k : Int) :
    Tables.dropPeriods w (wstart + k) (wend + k) =
      ((Tables.dropPeriods w wstart wend).1, (Tables.dropPeriods w wstart wend).2.1 + k,
        (Tables.dropPeriods w wstart wend).2.2 + k) := by
  fun_induction Tables.dropPeriods w wstart wend with
  | case1 wstart wend w ih =>
      rw [Tables.dropPeriods, ← ih]
      congr 1
      · omega
      · split <;> split <;> omega
  | case2 w wstart wend other => rw [Tables.dropPeriods.eq_2 _ _ _ other]

theorem cutAtPeriod_shift (w : Str) (wstart wend k : Int) :
    Tables.cutAtPeriod w (wstart + k) (wend + k) =
      ((Tables.cutAtPeriod w wstart wend).1, (Tables.cutAtPeriod w wstart wend).2 + k) := by
  unfold Tables.cutAtPeriod
  split
  · split
    · rw [Prod.mk.injEq]
      exact ⟨rfl, by omega⟩
    · rfl
  · rfl

def Tables.Ends.shift (e : Tables.Ends) (k : Int) : Tables.Ends := { e with wstart := e.wstart + k, wend := e.wend + k }

def Trimmed.shift (trimmed : Trimmed) (k : Int) : Trimmed :=
  { trimmed with wstart := trimmed.wstart + k, wend := trimmed.wend + k }

namespace Tables

variable (t : Tables)

theorem dropLastPeriod_shift (w : Str) (wend k : Int) :
    t.dropLastPeriod w (wend + k) = (fun cut => (cut.1, cut.2 + k)) <$> t.dropLastPeriod w wend := by
  unfold dropLastPeriod
  split
  · cases Utf8.len w with
    | error fault => rfl
    | ok utf8len =>
        simp only [run_bind_ok]
        cases Utf8.sub w ((utf8len : Int) - 1) ((utf8len : Int) - 1) with
        | error fault => rfl
        | ok before =>
            simp only [run_bind_ok]
            split
            · simp only [run_pure, run_map_ok, add_sub_right_comm]
            · rfl
  · rfl

theorem trimOnce_shift (w : Str) (e : Ends) (k : Int) :
    t.trimOnce w (e.shift k) = (fun pass => (pass.1.shift k, pass.2)) <$> t.trimOnce w e := by
  have rest (wcut leftchar rightchar : Str) (wend posright : Int) (goodend : Bool) :
      (if posright < 1 then
        pure (⟨none, e.wstart + k, if wend + k < e.wstart + k then wend + k + rightchar.length else wend + k, posright,
          e.userabbrev⟩, true)
      else if t.ignores leftchar then
        Utf8.sub wcut 2 (-1) >>= fun wcut => pure (⟨some wcut, e.wstart + k + leftchar.length, wend + k, posright - 1,
          e.userabbrev || leftchar == lit "@"⟩, false)
      else pure (⟨some wcut, e.wstart + k, wend + k, posright, e.userabbrev⟩, goodend) : Run (Ends × Bool)) =
      (fun pass => (pass.1.shift k, pass.2)) <$> (if posright < 1 then
        pure (⟨none, e.wstart, if wend < e.wstart then wend + rightchar.length else wend, posright, e.userabbrev⟩, true)
      else if t.ignores leftchar then
        Utf8.sub wcut 2 (-1) >>= fun wcut => pure (⟨some wcut, e.wstart + leftchar.length, wend, posright - 1,
          e.userabbrev || leftchar == lit "@"⟩, false)
      else pure (⟨some wcut, e.wstart, wend, posright, e.userabbrev⟩, goodend) : Run (Ends × Bool)) := by
    by_cases gone : posright < 1
    · rw [if_pos gone, if_pos gone]
      by_cases before : wend < e.wstart
      · rw [if_pos before, if_pos (by omega), Int.add_right_comm]
        rfl
      · rw [if_neg before, if_neg (by omega)]
        rfl
    · rw [if_neg gone, if_neg gone]
      split
      · rw [map_bind, Int.add_right_comm]
        rfl
      · rfl
  unfold trimOnce
  cases Utf8.sub w 1 1 with
  | error fault => rfl
  | ok leftchar =>
      cases here : Utf8.sub w e.posright e.posright with
      | error fault =>
          simp only [Ends.shift, here, run_bind_ok]
          rfl
      | ok rightchar =>
          simp only [Ends.shift, here, run_bind_ok]
          cases t.ignores rightchar with
          | false => exact rest w leftchar rightchar e.wend e.posright true
          | true =>
              cases cut : Utf8.sub w 1 (e.posright - 1) with
              | error fault => rfl
              | ok wcut =>
                  have moved := rest wcut leftchar rightchar (e.wend - rightchar.length) (e.posright - 1 - 1) false
                  rw [show e.wend - (rightchar.length : Int) + k = e.wend + k - rightchar.length by omega] at moved
                  simp only [Bool.not_true, Bool.false_eq_true, if_false, run_bind_ok]
                  exact moved

theorem trimEnds_shift (fuel : Nat) (e : Ends) (k : Int) :
    t.trimEnds fuel (e.shift k) = (·.shift k) <$> t.trimEnds fuel e := by
  induction fuel generalizing e with
  | zero => rfl
  | succ fuel ih =>
      obtain ⟨word, wstart, wend, posright, userabbrev⟩ := e
      cases word with
      | none => rfl
      | some w =>
          rw [trimEnds, trimEnds]
          have pass := t.trimOnce_shift w ⟨some w, wstart, wend, posright, userabbrev⟩ k
          simp only [Ends.shift] at pass ⊢
          rw [pass]
          cases t.trimOnce w ⟨some w, wstart, wend, posright, userabbrev⟩ with
          | error fault => rfl
          | ok found =>
              obtain ⟨trimmed, last⟩ := found
              cases last with
              | true => rfl
              | false => exact ih trimmed

theorem checkAbbrev_shift (w : Str) (wend k : Int) (userabbrev middlefound : Bool) :
    t.checkAbbrev w (wend + k) userabbrev middlefound =
      (fun checked => (checked.1, checked.2.1 + k, checked.2.2)) <$> t.checkAbbrev w wend userabbrev middlefound := by
  unfold checkAbbrev
  split
  · rfl
  · dsimp only
    split
    · cases Utf8.sub w 1 1 with
      | error fault => rfl
      | ok firstchar =>
          simp only [run_bind_ok]
          split
          · rfl
          · simp only [run_pure, run_map_ok, add_sub_right_comm]
    · rfl

theorem ignorechars_shift (w : Str) (wstart wend k : Int) (abbrevcheck : Bool) :
    t.ignorechars w (wstart + k) (wend + k) abbrevcheck = (·.shift k) <$> t.ignorechars w wstart wend abbrevcheck := by
  unfold ignorechars
  rw [dropPeriods_shift]
  dsimp only
  rw [cutAtPeriod_shift]
  dsimp only
  rw [t.dropLastPeriod_shift]
  cases t.dropLastPeriod _ _ with
  | error fault => rfl
  | ok cut =>
      simp only [run_map_ok, run_bind_ok]
      cases Utf8.len cut.1 with
      | error fault => rfl
      | ok posright =>
          simp only [run_bind_ok]
          split
          · rfl
          · have ends := t.trimEnds_shift (posright + 2)
              ⟨some cut.1, (dropPeriods w wstart wend).2.1, cut.2, posright, false⟩ k
            simp only [Ends.shift] at ends
            rw [ends]
            cases t.trimEnds (posright + 2) ⟨some cut.1, (dropPeriods w wstart wend).2.1, cut.2, posright, false⟩ with
            | error fault => rfl
            | ok e =>
                simp only [run_map_ok, run_bind_ok]
                cases e.w with
                | none => rfl
                | some w =>
                    dsimp only
                    cases findIgnored w ((pairs t.hash t.ignoretbl).map (·.1)) with
                    | error fault => rfl
                    | ok middlefound =>
                        cases abbrevcheck with
                        | false => rfl
                        | true =>
                            simp only [run_bind_ok, if_true, t.checkAbbrev_shift, map_bind, bind_map_left]
                            rfl
end Tables

/-! Searching in a text that is part of another. -/

theorem findRun_context {inside : UInt8 → Bool} {mid : Str} {init wstart wend : Int} (first : 1 ≤ init)
    (found : findRun inside mid init = some (wstart, wend)) (front : Str) {rest : Str}
    (ended : ∀ b ∈ rest.head?, inside b = false) :
    findRun inside (front ++ mid ++ rest) (init + front.length) =
      some (wstart + front.length, wend + front.length) := by
  obtain ⟨i, rfl⟩ : ∃ i : Nat, init = i + 1 := ⟨(init - 1).toNat, by omega⟩
  obtain ⟨⟨start, stop⟩, run, same⟩ := Option.map_eq_some_iff.mp found
  obtain ⟨rfl, rfl⟩ := Prod.mk.inj same
  have inner : i ≤ mid.length := by
    by_contra beyond
    rw [searchStart_succ, min_eq_right (by omega), runFrom_beyond inside mid _ le_rfl] at run
    cases run
  rw [searchStart_succ, min_eq_left inner] at run
  have moved := @runFrom_front inside front (mid ++ rest) i
  rw [runFrom_inner run ended] at moved
  rw [findRun, show ((i : Int) + 1 + front.length) = ((front.length + i : Nat) : Int) + 1 by push_cast; omega,
    searchStart_succ, min_eq_left (by simp only [List.length_append]; omega), List.append_assoc, moved]
  simp only [Option.map_some, Option.some.injEq, Prod.mk.injEq]
  push_cast
  constructor <;> omega

/-- Where nothing more is found in a text, the search goes on behind it; it may begin one byte late. -/
theorem findRun_behind {inside : UInt8 → Bool} {mid : Str} {init : Int} (first : 1 ≤ init)
    (missing : findRun inside mid init = none) (last : init ≤ mid.length + 2) (front : Str) {rest : Str}
    (ended : init = mid.length + 2 → ∀ b ∈ rest.head?, inside b = false) :
    findRun inside (front ++ mid ++ rest) (init + front.length) =
      findRun inside (front ++ mid ++ rest) ((front ++ mid).length + 1) := by
  obtain ⟨i, rfl⟩ : ∃ i : Nat, init = i + 1 := ⟨(init - 1).toNat, by omega⟩
  have shape : ((i : Int) + 1 + front.length) = ((front.length + i : Nat) : Int) + 1 := by
    push_cast
    omega
  rw [findRun, findRun, shape, searchStart_succ, searchStart_succ,
    min_eq_left (by simp only [List.length_append]; omega : (front ++ mid).length ≤ (front ++ mid ++ rest).length)]
  congr 1
  by_cases inner : i ≤ mid.length
  · rw [findRun, searchStart_succ, min_eq_left inner, Option.map_eq_none_iff] at missing
    have moved : runFrom inside (front ++ mid) (front.length + i) = none := by
      rw [runFrom_front, missing]
      rfl
    rw [min_eq_left (by simp only [List.length_append]; omega)]
    exact runFrom_past moved rest (by simp only [List.length_append]; omega) le_rfl
  · obtain rfl : i = mid.length + 1 := by omega
    have here : ((front ++ mid ++ rest)[(front ++ mid).length]?).any inside ≠ true := by
      rw [List.getElem?_append_right le_rfl, Nat.sub_self, ← List.head?_eq_getElem?]
      cases first : rest.head? with
      | none => simp
      | some b => simp [ended (by push_cast; omega) b (by simp [first])]
    rw [runFrom_later inside _ _ here]
    by_cases more : rest = []
    · subst more
      rw [List.append_nil, runFrom_beyond inside _ _ (by simp only [List.length_append]; omega),
        runFrom_beyond inside _ _ (by simp only [List.length_append]; omega)]
    · have long := List.length_pos_iff.mpr more
      rw [min_eq_left (by simp only [List.length_append]; omega), List.length_append, Nat.add_assoc]

namespace Tables

variable (t : Tables)

theorem sub_context (front mid rest : Str) {n : Int} (low : 0 ≤ n) (inner : n ≤ mid.length) :
    sub (front ++ mid ++ rest) 1 (n + front.length) = front ++ sub mid 1 n := by
  obtain ⟨n, rfl⟩ := Int.eq_ofNat_of_zero_le low
  rw [show ((n : Int) + front.length) = ((front.length + n : Nat) : Int) by push_cast; omega, sub_first, sub_first,
    List.append_assoc, List.take_length_add_append, List.take_append_of_le_length (by omega)]

theorem subFrom_context (front mid rest : Str) {n : Int} (low : 0 ≤ n) (inner : n ≤ mid.length) :
    subFrom (front ++ mid ++ rest) (n + front.length + 1) = subFrom mid (n + 1) ++ rest := by
  obtain ⟨n, rfl⟩ := Int.eq_ofNat_of_zero_le low
  rw [show ((n : Int) + front.length + 1) = ((front.length + n : Nat) : Int) + 1 by push_cast; omega, subFrom_succ,
    subFrom_succ, List.append_assoc, ← List.drop_drop, List.drop_left, List.drop_append_of_le_length (by omega)]

theorem sub_inner (front mid rest : Str) {i j : Int} (first : 1 ≤ i) (span : i ≤ j) (last : j ≤ mid.length) :
    sub (front ++ mid ++ rest) (i + front.length) (j + front.length) = sub mid i j := by
  rw [sub_of_toNat _ _ _ (by omega) (by omega), sub_of_toNat _ _ _ first (by omega),
    show (j + (front.length : Int)).toNat = front.length + j.toNat by omega,
    show (i + (front.length : Int) - 1).toNat = front.length + (i - 1).toNat by omega, List.append_assoc,
    List.take_length_add_append, List.take_append_of_le_length (by omega), ← List.drop_drop, List.drop_left]

theorem spliceWord_context (front mid rest w : Str) (wstart wend : Int) (marked : Marked) (first : 1 ≤ wstart)
    (inner : wstart ≤ mid.length + 1) (low : marked.periodchar ≤ wend) (last : wend ≤ mid.length)
    (period : 0 ≤ marked.periodchar) :
    t.spliceWord (front ++ mid ++ rest) (wstart + front.length) (wend + front.length) w marked =
      (front ++ (t.spliceWord mid wstart wend w marked).1 ++ rest,
        (t.spliceWord mid wstart wend w marked).2 + front.length) := by
  have before := sub_context front mid rest (n := wstart - 1) (by omega) (by omega)
  have behind := subFrom_context front mid rest (n := wend - marked.periodchar) (by omega) (by omega)
  rw [show wstart - 1 + (front.length : Int) = wstart + front.length - 1 by omega] at before
  rw [show wend - marked.periodchar + (front.length : Int) + 1 = wend + front.length + 1 - marked.periodchar by omega,
    show wend - marked.periodchar + 1 = wend + 1 - marked.periodchar by omega] at behind
  simp only [spliceWord, before, behind]
  rw [Prod.mk.injEq]
  constructor
  · simp only [List.append_assoc]
  · split <;> omega

/-- What a copy of `macronize` takes off a token does not depend on where that stands, and leaves the word in it. -/
structure Local (c : Copy) : Prop where
  shift : ∀ w wstart wend k, c.ignorechars w (wstart + k) (wend + k) =
    (fun found => (found.1, found.2.1 + k, found.2.2.1 + k, found.2.2.2)) <$> c.ignorechars w wstart wend
  within : ∀ {w w' : Str} {wstart wend wstart' wend' : Int} {isinvalid : Bool},
    c.ignorechars w wstart wend = .ok (some w', wstart', wend', isinvalid) → wend = wstart + w.length - 1 → w ≠ [] →
      w' ≠ [] → wstart ≤ wstart' ∧ wstart' + w'.length - 1 ≤ wend' ∧ wend' ≤ wend

theorem desktop_local (fuel : Nat) : Local (t.desktop fuel) where
  shift w wstart wend k := by
    have moved := t.ignorechars_shift w wstart wend k false
    simp only [desktop, moved]
    cases t.ignorechars w wstart wend false <;> rfl
  within ran span filled more := by
    obtain ⟨trimmed, trim, found⟩ := bind_eq_ok.mp ran
    obtain ⟨word, first, last, _⟩ := by simpa only [run_pure, Except.ok.injEq, Prod.mk.injEq] using found
    have inside := (t.ignorechars_span trim span filled).2 _ word more
    rw [first, last] at inside
    exact inside

theorem macronizeToken_context {c : Copy} (places : Local c) (overwrite : Bool) (fuel : Nat) (front mid rest : Str)
    {wstart wend : Int} (first : 1 ≤ wstart) (span : wstart ≤ wend) (last : wend ≤ mid.length) :
    t.macronizeToken c overwrite fuel (front ++ mid ++ rest) (wstart + front.length) (wend + front.length) =
      (fun left : Str × Int => (front ++ left.1 ++ rest, left.2 + front.length)) <$>
        t.macronizeToken c overwrite fuel mid wstart wend := by
  have token := sub_inner front mid rest first span last
  have size := sub_span first last (by omega)
  have filled : sub mid wstart wend ≠ [] := List.ne_nil_of_length_pos (by omega)
  unfold macronizeToken
  rw [token, places.shift]
  cases found : c.ignorechars (sub mid wstart wend) wstart wend with
  | error fault => rfl
  | ok trimmed =>
      obtain ⟨word, wstart', wend', isinvalid⟩ := trimmed
      simp only [run_map_ok, run_bind_ok]
      cases word with
      | none => simp only [run_pure, run_map_ok, Int.add_right_comm]
      | some w =>
          dsimp only
          by_cases empty : w = []
          · rw [if_pos empty, if_pos empty]
            simp only [run_pure, run_map_ok, Int.add_right_comm]
          · rw [if_neg empty, if_neg empty]
            obtain ⟨after, slack, before⟩ := places.within found (by omega) filled empty
            have long := List.length_pos_iff.mpr empty
            cases t.macronizeWord c overwrite fuel w isinvalid with
            | error fault => rfl
            | ok marked =>
                have period := periodchar_cases marked
                simp only [run_bind_ok, run_pure, run_map_ok]
                rw [t.spliceWord_context front mid rest w wstart' wend' marked (by omega) (by omega) (by omega)
                  (by omega) (by omega)]

inductive Turns (c : Copy) (overwrite : Bool) (fuel : Nat) : Str → Int → Nat → Str → Prop
  | stop (text : Str) (init : Int) (missing : findRun c.inside text init = none) (last : init ≤ text.length + 2) :
      Turns c overwrite fuel text init 0 text
  | pass (text text' out : Str) (init init' wstart wend : Int) (n : Nat)
      (found : findRun c.inside text init = some (wstart, wend))
      (ran : t.macronizeToken c overwrite fuel text wstart wend = .ok (text', init')) (first : 1 ≤ init')
      (later : Turns c overwrite fuel text' init' n out) : Turns c overwrite fuel text init (n + 1) out

theorem macronizeLoop_congr {c : Copy} {overwrite hascomments : Bool} {fuel : Nat} {text : Str} {init init' : Int}
    (same : findRun c.inside text init = findRun c.inside text init') (rounds : Nat) :
    t.macronizeLoop c overwrite hascomments fuel rounds text init =
      t.macronizeLoop c overwrite hascomments fuel rounds text init' := by
  cases rounds with
  | zero => rfl
  | succ rounds => rw [macronizeLoop, macronizeLoop, c.finds, c.finds, same]

theorem macronizeLoop_context {c : Copy} (places : Local c) {overwrite : Bool} {fuel n : Nat} {mid out : Str}
    {init : Int}
    (turns : t.Turns c overwrite fuel mid init n out) (first : 1 ≤ init) (front : Str) {rest : Str}
    (ended : ∀ b ∈ rest.head?, c.inside b = false) (rounds : Nat) :
    t.macronizeLoop c overwrite false fuel (rounds + n) (front ++ mid ++ rest) (init + front.length) =
      t.macronizeLoop c overwrite false fuel rounds (front ++ out ++ rest) ((front ++ out).length + 1) := by
  induction turns with
  | stop text init missing last =>
      exact t.macronizeLoop_congr (findRun_behind first missing last front fun _ => ended) rounds
  | pass text text' out init init' wstart wend n found ran first' later ih =>
      obtain ⟨after, span, last⟩ := findRun_span first found
      rw [← Nat.add_assoc, t.macronizeLoop_some overwrite false fuel _ (findRun_context first found front ended)]
      simp only [macronizePass, Bool.false_eq_true, if_false]
      rw [t.macronizeToken_context places overwrite fuel front text rest (by omega) span last, ran]
      exact ih first'

def Turned (c : Copy) (overwrite : Bool) (fuel : Nat) (piece new : Str) : Prop :=
  ∃ n ≤ piece.length, t.Turns c overwrite fuel piece 1 n new

theorem findRun_outside {inside : UInt8 → Bool} {piece : Str} (outside : ∀ b ∈ piece, inside b = false) :
    findRun inside piece 1 = none := by
  have first := searchStart_succ piece 0
  norm_num at first
  rw [findRun, first, Option.map_eq_none_iff]
  exact (runFrom_none_iff piece 0).mpr (by simpa using outside)

theorem turned_gap {c : Copy} {overwrite : Bool} {fuel : Nat} {piece new : Str}
    (outside : ∀ b ∈ piece, c.inside b = false) (turned : t.Turned c overwrite fuel piece new) : new = piece := by
  obtain ⟨n, _, turns⟩ := turned
  cases turns with
  | stop => rfl
  | pass text' init' wstart wend n first ran later found =>
      rw [findRun_outside outside] at found
      cases found

theorem macronizeLoop_pieces {c : Copy} (places : Local c) {overwrite : Bool} {fuel : Nat} {cut news : List Str}
    (pieced : Pieced c.inside cut) (turned : List.Forall₂ (t.Turned c overwrite fuel) cut news) (front : Str)
    (rounds : Nat)
    (enough : cut.flatten.length ≤ rounds) :
    t.macronizeLoop c overwrite false fuel (rounds + 1) (front ++ cut.flatten) (front.length + 1) =
      .ok (front ++ news.flatten) := by
  induction pieced generalizing news front rounds with
  | nil =>
      obtain rfl := List.forall₂_nil_left_iff.mp turned
      have missing : findRun c.inside (front ++ []) (front.length + 1) = none := by
        have start : searchStart front ((front.length : Int) + 1) = front.length := by
          rw [searchStart_succ, min_self]
        rw [List.append_nil, findRun, start, runFrom_beyond c.inside front _ le_rfl]
        rfl
      exact t.macronizeLoop_none overwrite false fuel rounds missing
  | gap piece later outside pieced ih =>
      obtain ⟨new, news, here, rest, rfl⟩ := List.forall₂_cons_left_iff.mp turned
      obtain rfl := t.turned_gap outside here
      have size : new.length + later.flatten.length ≤ rounds := by
        rwa [List.flatten_cons, List.length_append] at enough
      have behind := @findRun_behind c.inside new 1 le_rfl (findRun_outside outside) (by omega) front later.flatten
        fun beyond => by omega
      rw [List.flatten_cons, List.flatten_cons, ← List.append_assoc, ← List.append_assoc, Int.add_comm,
        t.macronizeLoop_congr behind (rounds + 1)]
      exact ih rest (front ++ new) rounds (by omega)
  | run piece later filled within ended pieced ih =>
      obtain ⟨new, news, ⟨n, few, turns⟩, rest, rfl⟩ := List.forall₂_cons_left_iff.mp turned
      have size : piece.length + later.flatten.length ≤ rounds := by
        rwa [List.flatten_cons, List.length_append] at enough
      have split := t.macronizeLoop_context places turns le_rfl front ended (rounds - n + 1)
      rw [show rounds - n + 1 + n = rounds + 1 by omega] at split
      rw [List.flatten_cons, List.flatten_cons, ← List.append_assoc, ← List.append_assoc, Int.add_comm, split]
      exact ih rest (front ++ new) (rounds - n) (by omega)

theorem macronize_cut {c : Copy} (places : Local c) {overwrite : Bool} {fuel : Nat} {raw : Str} {cut news : List Str}
    (pieced : Pieced c.inside cut) (shown : (if overwrite then remmacs t.unicode raw else .ok raw) = .ok cut.flatten)
    (bare : hascomments cut.flatten = .ok false) (enough : cut.flatten.length < fuel)
    (turned : List.Forall₂ (t.Turned c overwrite fuel) cut news) :
    t.macronize c overwrite fuel raw = .ok news.flatten := by
  have loop := t.macronizeLoop_pieces places pieced turned [] (fuel - 1) (by omega)
  rw [show fuel - 1 + 1 = fuel by omega] at loop
  rw [macronize_loop, show (if overwrite then remmacs t.unicode raw else pure raw) = .ok cut.flatten from shown,
    run_bind_ok,
    bare]
  exact loop

/-- No word has a part in what its neighbours become. -/
theorem macronize_pieces {c : Copy} (places : Local c) {overwrite : Bool} {fuel : Nat} {raw text : Str} {news : List Str}
    (shown : (if overwrite then remmacs t.unicode raw else .ok raw) = .ok text) (bare : hascomments text = .ok false)
    (enough : text.length < fuel)
    (turned : List.Forall₂ (t.Turned c overwrite fuel) (pieces c.inside text) news) :
    t.macronize c overwrite fuel raw = .ok news.flatten := by
  have whole := @pieces_flatten c.inside text
  exact t.macronize_cut places (pieces_pieced text) (by rw [whole, shown]) (by rw [whole, bare])
    (by rw [whole]; exact enough)
    turned

def hocAlone : Tables := { Tables.empty with keytbl := AList.insert (lit "hoc") (lit "hōc") ∅ }

set_option maxRecDepth 8000 in
theorem macronize_pieces_hoc :
    hocAlone.macronize (hocAlone.desktop 9) false 9 (lit "hoc, est") = .ok (lit "hōc, ✖est") := by
  have word : hocAlone.Turned (hocAlone.desktop 9) false 9 (lit "hoc") (lit "hōc") :=
    ⟨1, by decide, .pass _ (lit "hōc") _ _ 5 1 3 0 (by decide) (by decide) (by decide)
      (.stop _ _ (by decide) (by decide))⟩
  have gap : hocAlone.Turned (hocAlone.desktop 9) false 9 (lit ", ") (lit ", ") :=
    ⟨0, by decide, .stop _ _ (by decide) (by decide)⟩
  have other : hocAlone.Turned (hocAlone.desktop 9) false 9 (lit "est") (lit "✖est") :=
    ⟨1, by decide, .pass _ (lit "✖est") _ _ 7 1 3 0 (by decide) (by decide) (by decide)
      (.stop _ _ (by decide) (by decide))⟩
  have cut : pieces isLetter (lit "hoc, est") = [lit "hoc", lit ", ", lit "est"] := by decide
  have turned : List.Forall₂ (hocAlone.Turned (hocAlone.desktop 9) false 9) (pieces isLetter (lit "hoc, est"))
      [lit "hōc", lit ", ", lit "✖est"] := by
    rw [cut]
    exact .cons word (.cons gap (.cons other .nil))
  have whole : hocAlone.macronize (hocAlone.desktop 9) false 9 (lit "hoc, est") =
      .ok [lit "hōc", lit ", ", lit "✖est"].flatten :=
    hocAlone.macronize_pieces (hocAlone.desktop_local 9) rfl (by decide) (by decide) turned
  rwa [show [lit "hōc", lit ", ", lit "✖est"].flatten = lit "hōc, ✖est" by decide] at whole

end Tables

end Maccer
