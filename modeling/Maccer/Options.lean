import Maccer.KeyFile
import Maccer.Mac
import Maccer.Trimming

/-! The script `mac.lua`, and when it reads the options of `_CONFIG.txt`. -/

namespace Maccer

open Lua

structure Options where
  OVERWRITE_MACS : Option Bool
  REPAIR_ORTH : Option Bool
  LONG_PERF_SUBJ : Option Bool
  deriving DecidableEq

/-- What the fields hold until `macra.initialize` has run. -/
def Options.preset : Options := ⟨some false, some false, some false⟩

/-- The loop of `readconfigoption` over the responses. -/
def readresponse (u : Unicode) (response : Str) : List (Str × Bool) → Run (Option Bool)
  | [] => return none
  | (respstr, respval) :: rest =>
      if response = respstr then return some respval
      else do
        let capitals ← utf8upper u respstr
        if response = capitals then return some respval else readresponse u response rest

/-- `macra.readconfigoption`. Its errors are written to the log and nil is returned. -/
def readconfigoption (hash : HashOrder) (u : Unicode) (configstr optionname : Str)
    (responsetbl : Table Bool) : Run (Option Bool) := do
  let optionname ← gsubAll optionname (lit " ") []
  let optionname ← gsubAll optionname (lit "?") (lit "%%?")
  match ← lmatch configstr (optionname ++ lit "(%a+)") with
  | some (response :: _) => readresponse u response (pairs hash responsetbl)
  | _ => return none

/-- The last part of `macra.initialize`. -/
def readoptions (hash : HashOrder) (u : Unicode) (config : Str) : Run Options := do
  let yes : Table Bool := AList.insert (lit "n") false (AList.insert (lit "y") true ∅)
  let long : Table Bool := AList.insert (lit "short") false (AList.insert (lit "long") true ∅)
  let configstr ← decomment (readutf8 config)
  let configstr ← gsubAll configstr (lit " ") []
  let configstr ← gsubAll configstr (lit "\t") []
  let overwrite ← readconfigoption hash u configstr (lit "Overwrite macrons?") yes
  let repair ← readconfigoption hash u configstr (lit "Repair orthography in source texts?") yes
  let perfect ← readconfigoption hash u configstr
    (lit "Length of \"i\" in perfect subjunctive endings?") long
  return ⟨overwrite, repair, perfect⟩

namespace Tables

variable (t : Tables)

/-- `mac.lua` on one text. It copies the option before `macra.initialize` reads it. -/
def mac (fuel : Nat) (config text : Str) : Run Str := do
  let macra := Options.preset
  let overwrite := macra.OVERWRITE_MACS
  let _macra ← readoptions t.hash t.unicode config
  let text ← remflags text
  t.macronize (t.desktop fuel) (overwrite == some true) fuel text

def Macronized (config text out : Str) : Prop := ∃ fuel, t.mac fuel config text = .ok out

def FromPlain (config : Str) : Prop :=
  ∀ text text' p, Utf8.Valid text → Utf8.Valid text' → remmacs t.unicode text = .ok p →
    remmacs t.unicode text' = .ok p → ∃ out, t.Macronized config text out ∧ t.Macronized config text' out

end Tables

/-! A text of one marked letter. -/

theorem anyFound_plain (w : Str) (strs : List Str) (plain : ∀ s ∈ strs, hasPattern s = false) :
    Tables.anyFound w strs = .ok (strs.any fun s => (findPlain w s 1).isSome) := by
  have from' (found : Bool) : strs.foldlM (fun hasmacrons mac => do
      let now ← find w mac 1
      return hasmacrons || now.isSome) found =
      (.ok (found || strs.any fun s => (findPlain w s 1).isSome) : Run Bool) := by
    induction strs generalizing found with
    | nil => simp
    | cons s strs ih =>
        have later := ih (fun s' member => plain s' (by simp [member])) (found || (findPlain w s 1).isSome)
        rw [List.foldlM_cons, find, plain s (by simp)]
        simp only [Bool.false_eq_true, if_false, run_bind_ok, Option.isSome_map, run_pure] at later ⊢
        rw [later, List.any_cons, Bool.or_assoc]
  exact from' false

theorem marks_plain : ∀ k ∈ unicode.macroninvtbl.keys, hasPattern k = false := by
  have all : unicode.macroninvtbl.keys.all (fun k => !hasPattern k) = true := by decide
  intro k member
  simpa using List.all_eq_true.mp all k member

theorem macronizeWord_marked (t : Tables) (tables : t.unicode = unicode) (c : Copy) (fuel : Nat)
    (w mark : Str) (letter : (field unicode.macroninvtbl mark).isSome = true)
    (inside : (findPlain w mark 1).isSome = true) (isinvalid : Bool) :
    t.macronizeWord c false fuel w isinvalid =
      .ok ⟨w, if isinvalid then AList.insert INVALID () ∅ else ∅, false⟩ := by
  cases isinvalid with
  | true => rfl
  | false =>
      have marks (k : Str) : k ∈ (pairs t.hash unicode.macroninvtbl).map (·.1) ↔
          k ∈ unicode.macroninvtbl.keys := by
        constructor
        · intro member
          obtain ⟨⟨k, v⟩, pair, rfl⟩ := List.mem_map.mp member
          exact AList.lookup_isSome.mp (by simp [show unicode.macroninvtbl.lookup k = some v from
            (mem_pairs _ _ _ _).mp pair])
        · intro member
          obtain ⟨v, stored⟩ := Option.isSome_iff_exists.mp (AList.lookup_isSome.mpr member)
          exact List.mem_map.mpr ⟨(k, v), (mem_pairs _ _ _ _).mpr stored, rfl⟩
      have found := anyFound_plain w _ fun k member => marks_plain k ((marks k).mp member)
      have some : ((pairs t.hash unicode.macroninvtbl).map (·.1)).any
          (fun s => (findPlain w s 1).isSome) = true :=
        List.any_eq_true.mpr ⟨mark, (marks mark).mpr (AList.lookup_isSome.mp letter), inside⟩
      rw [some] at found
      simp only [Tables.macronizeWord, Bool.false_eq_true, if_false, tables, found, run_bind_ok, if_true]
      rfl

theorem pairs_single {ν : Type} (hash : HashOrder) (k : Str) (v : ν) :
    pairs hash (AList.insert k v ∅) = [(k, v)] := by
  have keys : (AList.insert k v (∅ : Table ν)).keys = [k] := rfl
  have stored := field_insert (∅ : Table ν) k v
  rw [pairs, keys, List.perm_singleton.mp (hash.perm [k])]
  simp only [List.filterMap_cons, stored, Option.map_some, List.filterMap_nil]

theorem pairs_empty {ν : Type} (hash : HashOrder) : pairs hash (∅ : Table ν) = [] := by
  have keys : (∅ : Table ν).keys = [] := rfl
  rw [pairs, keys, List.perm_nil.mp (hash.perm [])]
  rfl

theorem findRun_whole (inside : UInt8 → Bool) (s : Str) (some : s ≠ []) (all : ∀ b ∈ s, inside b = true) :
    findRun inside s 1 = .some (1, s.length) := by
  have start : searchStart s 1 = 0 := rfl
  obtain ⟨b, rest, rfl⟩ := List.exists_cons_of_ne_nil some
  have gap : (b :: rest).takeWhile (fun b => !inside b) = [] := by simp [all b (by simp)]
  have run : (b :: rest).takeWhile inside = b :: rest := List.takeWhile_eq_self_iff.mpr all
  rw [findRun, start, runFrom]
  simp only [List.drop_zero, gap, List.length_nil, Nat.add_zero, run, List.length_cons]
  simp

theorem findRun_beyond (inside : UInt8 → Bool) (s : Str) (init : Int) (beyond : s.length < init) :
    findRun inside s init = none := by
  have start : searchStart s init = s.length := by
    rw [searchStart, if_neg (by omega)]
    omega
  rw [findRun, start, runFrom_beyond _ _ _ le_rfl]
  rfl

namespace Tables

variable (t : Tables)

theorem ignorechars_letter (c : Str) (readable : Utf8.Readable c) (long : 2 ≤ c.length) :
    t.ignorechars c 1 c.length false =
      if t.ignores c then .ok ⟨none, 1, c.length, false, false⟩
      else (findIgnored c ((pairs t.hash t.ignoretbl).map (·.1))).map fun found =>
        ⟨some c, 1, c.length, found, false⟩ := by
  have period : ¬ c = lit "." := by
    rintro rfl
    exact absurd long (by decide)
  have nul : ¬ [0] = c := fun same => readable.2 same.symm
  have decodes : Utf8.Decodes [c] := Utf8.decodes_of_readable (by simpa using readable)
  have left : t.remaining [c] = [c] := by simp [remaining, upToPeriod, dropFinal, period]
  have ends (e : Ends) (last : t.trimOnce [c].flatten ⟨some [c].flatten, 1, c.length, (0 : Nat) + 1, false⟩ =
      .ok (e, true)) : t.ignorechars c 1 c.length false = t.afterLoop false e := by
    have token := @ignorechars_ends t [c] (by simpa using readable.1) [] (by simp [period])
      (by simpa [upToPeriod, period] using nul) e (by
        rw [left]
        convert t.trimEnds_step last using 2 <;> simp [afterPeriods, period]) false
    simpa using token
  cases ignored : t.ignores c with
  | true =>
      have pass := t.trimOnce_gone (p := 0) decodes rfl rfl 1 c.length false ignored (by omega)
      rw [ends _ pass]
      simp [afterLoop]
  | false =>
      have pass := t.trimOnce_inner (p := 0) decodes rfl rfl 1 c.length false ignored ignored
      rw [ends _ pass]
      simp only [afterLoop, Bool.false_eq_true, if_false, List.flatten_singleton]
      cases findIgnored c ((pairs t.hash t.ignoretbl).map (·.1)) with
      | error fault => rfl
      | ok found => rfl

theorem flagstr_invalid (w : Str) (isinvalid removed : Bool) :
    t.flagstr ⟨w, if isinvalid then AList.insert INVALID () ∅ else ∅, removed⟩ =
      if isinvalid then INVALID else [] := by
  cases isinvalid with
  | false =>
      simp only [flagstr, Bool.false_eq_true, if_false, pairs_empty]
      rfl
  | true =>
      simp only [flagstr, if_true, pairs_single]
      exact List.append_nil _

theorem macronizeToken_letter (tables : t.unicode = Maccer.unicode) (fuel fuel' : Nat) (c : Str)
    (readable : Utf8.Readable c) (long : 2 ≤ c.length)
    (letter : (field Maccer.unicode.macroninvtbl c).isSome = true) (text : Str) (init : Int)
    (ran : t.macronizeToken (t.desktop fuel) false fuel' c 1 c.length = .ok (text, init)) :
    (text = c ∨ text = INVALID ++ c) ∧ text.length < init := by
  have whole : sub c 1 c.length = c := (sub_first c c.length).trans (List.take_length ..)
  have filled : c ≠ [] := List.ne_nil_of_length_pos (by omega)
  have self : (findPlain c c 1).isSome = true := by
    simp [findPlain, show searchStart c 1 = 0 from rfl, List.range'_succ]
  have trimmed := t.ignorechars_letter c readable long
  cases ignored : t.ignores c with
  | true =>
      rw [ignored, if_pos rfl] at trimmed
      simp only [macronizeToken, whole, desktop, trimmed, run_bind_ok, run_pure, Except.ok.injEq,
        Prod.mk.injEq] at ran
      obtain ⟨rfl, rfl⟩ := ran
      exact ⟨.inl rfl, by omega⟩
  | false =>
      rw [ignored, if_neg (by simp)] at trimmed
      cases searched : findIgnored c ((pairs t.hash t.ignoretbl).map (·.1)) with
      | error fault =>
          rw [searched] at trimmed
          simp only [macronizeToken, whole, desktop, trimmed] at ran
          exact absurd ran (by simp [Except.map])
      | ok found =>
          have kept := macronizeWord_marked t tables (t.desktop fuel) fuel' c c letter self found
          rw [searched] at trimmed
          have ready : (t.desktop fuel).ignorechars c 1 c.length = .ok (some c, 1, (c.length : Int), found) := by
            simp only [desktop, trimmed]
            rfl
          simp only [macronizeToken, whole, ready, run_bind_ok, if_neg filled, kept, run_pure, spliceWord,
            flagstr_invalid, Marked.periodchar] at ran
          have front : sub c 1 0 = [] := sub_first c 0
          have back : subFrom c ((c.length : Int) + 1 - 0) = [] := by
            rw [Int.sub_zero, subFrom_succ, List.drop_length]
          simp only [Bool.false_eq_true, if_false, front, back, List.nil_append, List.append_nil, Int.sub_self,
            Int.add_zero, lt_irrefl, Except.ok.injEq, Prod.mk.injEq] at ran
          obtain ⟨rfl, rfl⟩ := ran
          cases found with
          | false => exact ⟨.inl rfl, by simp⟩
          | true => exact ⟨.inr rfl, by simp; omega⟩

theorem mac_letter (tables : t.unicode = Maccer.unicode) (fuel : Nat) (config c out : Str)
    (readable : Utf8.Readable c) (long : 2 ≤ c.length)
    (letter : (field Maccer.unicode.macroninvtbl c).isSome = true) (flagless : remflags c = .ok c)
    (single : find c (lit "//([^\n]+)") 1 = .ok none) (multi : find c (lit "/%*(.*)%*/") 1 = .ok none)
    (ran : t.mac fuel config c = .ok out) : out = c ∨ out = INVALID ++ c := by
  have filled : c ≠ [] := List.ne_nil_of_length_pos (by omega)
  have letters : ∀ b ∈ c, isLetter b = true := fun b member =>
    isLetter_high b (high_of_multi readable.1 long b member)
  rw [mac] at ran
  obtain ⟨options, _, ran⟩ := bind_eq_ok.mp ran
  simp only [flagless, run_bind_ok, Options.preset] at ran
  rw [macronize, show (some false == some true) = false from rfl] at ran
  simp only [Bool.false_eq_true, if_false, run_pure, run_bind_ok, single, multi, Option.isSome_none,
    run_map_ok] at ran
  cases fuel with
  | zero => exact absurd ran (by simp [macronizeLoop])
  | succ fuel =>
      have found : findRun (t.desktop (fuel + 1)).inside c 1 = some (1, (c.length : Int)) :=
        findRun_whole isLetter c filled letters
      rw [t.macronizeLoop_some _ _ _ _ found] at ran
      simp only [macronizePass, Bool.false_eq_true, if_false] at ran
      obtain ⟨⟨text, init⟩, token, later⟩ := bind_eq_ok.mp ran
      obtain ⟨kept, beyond⟩ :=
        t.macronizeToken_letter tables (fuel + 1) (fuel + 1) c readable long letter text init token
      cases fuel with
      | zero => exact absurd later (by simp [macronizeLoop])
      | succ fuel =>
          rw [t.macronizeLoop_none _ _ _ _ (findRun_beyond _ text init beyond), Except.ok.injEq] at later
          rwa [← later]

end Tables

/-- The line of `_CONFIG.txt` that asks for macrons to be overwritten. -/
def overwriteConfig : Str := lit "Overwrite macrons?\tY\n"

theorem readoptions_overwrite :
    readoptions .stored unicode overwriteConfig = .ok ⟨some true, none, none⟩ := by
  decide

theorem two_results (t : Tables) (tables : t.unicode = unicode) (config out : Str) :
    ¬ (t.Macronized config (lit "ā") out ∧ t.Macronized config (lit "ã") out) := by
  intro ⟨⟨fuel, ran⟩, ⟨fuel', ran'⟩⟩
  have macron := t.mac_letter tables fuel config (lit "ā") out (by decide) (by decide) (by decide) (by decide)
    (by decide) (by decide) ran
  have tilde := t.mac_letter tables fuel' config (lit "ã") out (by decide) (by decide) (by decide) (by decide)
    (by decide) (by decide) ran'
  rcases macron with rfl | rfl
  · exact absurd tilde (by decide)
  · exact absurd tilde (by decide)

theorem plain_marks (u : Unicode) (same : u = unicode) :
    remmacs u (lit "ā") = .ok (lit "a") ∧ remmacs u (lit "ã") = .ok (lit "a") := by
  rw [same]
  exact ⟨by decide, by decide⟩

/-- The script keeps the macrons it finds, whatever `_CONFIG.txt` says, so that there are
two results for one plain text. -/
theorem mac_keeps_marks (t : Tables) (tables : t.unicode = unicode) (config : Str) :
    ¬ t.FromPlain config := by
  intro same
  obtain ⟨long, tilde⟩ := plain_marks t.unicode tables
  obtain ⟨out, both⟩ := same (lit "ā") (lit "ã") (lit "a") ⟨[lit "ā"], by decide, by decide⟩
    ⟨[lit "ã"], by decide, by decide⟩ long tilde
  exact two_results t tables config out both

theorem mac_keeps_marks_overwrite : ¬ Tables.empty.FromPlain overwriteConfig :=
  mac_keeps_marks .empty rfl overwriteConfig

/-- The line asks for the macrons to be removed, and they stay. -/
theorem overwrite_unread :
    ¬ ∀ (t : Tables) (config : Str) (options : Options), t.unicode = unicode →
      readoptions t.hash t.unicode config = .ok options → options.OVERWRITE_MACS = some true →
      t.FromPlain config := by
  intro claim
  have same := claim .empty overwriteConfig ⟨some true, none, none⟩ rfl readoptions_overwrite rfl
  obtain ⟨long, tilde⟩ := plain_marks unicode rfl
  obtain ⟨out, both⟩ := same (lit "ā") (lit "ã") (lit "a") ⟨[lit "ā"], by decide, by decide⟩
    ⟨[lit "ã"], by decide, by decide⟩ long tilde
  exact two_results .empty rfl overwriteConfig out both

end Maccer
