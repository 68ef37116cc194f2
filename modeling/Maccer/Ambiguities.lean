import Maccer.Lua.Runs
import Maccer.Abbreviations
import Maccer.KeyRoundTrip

/-! The ambiguities that `analyze` finds: plain words with several forms. -/

namespace Maccer

open Lua

def NUMBERED : Str := lit "(%a+)(%d+)"

/-- What `ambigstbl` gets for a plain word: its own field, whether the key has it or not, and those
with its numbers. A run is no longer than the table. -/
def ambigset (keytbl : Table Str) (plainw : Str) : List (Option Str) :=
  field keytbl plainw :: (chainFrom keytbl plainw keytbl.keys.length 1).map some

def collect (keytbl : Table Str) (ambigstbl : Table (List (Option Str))) (e : Str × Str) :
    Run (Table (List (Option Str))) := do
  match ← lmatch e.1 NUMBERED with
  | some [plainw, _] =>
      return if (field ambigstbl plainw).isSome then ambigstbl
        else ambigstbl.insert plainw (ambigset keytbl plainw)
  | _ => return ambigstbl

/-- `ambigstbl`, where that loop ends. -/
def ambiguities (keytbl : Table Str) : Run (Table (List (Option Str))) :=
  (sortedpairs keytbl).foldlM (collect keytbl) ∅

/-! What the pattern finds in a key. -/

theorem numbered_shape : NUMBERED = 40 :: 37 :: 97 :: 43 :: [41, 40, 37, 100, 43, 41] := by decide

section

variable (s : Str)

theorem matchHere_digits (i j : Nat) :
    matchHere s 9 [41, 40, 37, 100, 43, 41] j ([] ++ [⟨i, .unfinished⟩]) =
      if (s[j]?).any isDigit = true then .ok (some (j + 1 + repeated s (j + 1) isDigit,
        [⟨i, .closed (j - i)⟩, ⟨j, .closed (1 + repeated s (j + 1) isDigit)⟩]))
      else .ok none := by
  rw [matchHere_close, matchHere_open _ _ _ _ _ (by decide),
    matchHere_class_plus 6 j _ 100 [41] (by decide) (by decide) (by decide)]
  have digit (b : UInt8) : matchClass b 100 = isDigit b := rfl
  simp only [digit]
  split
  case isFalse => rfl
  case isTrue =>
    refine maxExpand_longest _ _ _ _ _ le_rfl ?_ (by simp) fun k above bound => by omega
    rw [List.nil_append, matchHere_close, matchHere_nil]
    have count : j + 1 + repeated s (j + 1) isDigit - j = 1 + repeated s (j + 1) isDigit := by omega
    rw [count]
    rfl

theorem matchAt_numbered (i : Nat) : matchAt s NUMBERED i =
    if (s[i]?).any isAlpha = true then
      maxExpand (fun j => matchHere s 9 [41, 40, 37, 100, 43, 41] j ([] ++ [⟨i, .unfinished⟩])) (i + 1)
        (repeated s (i + 1) isAlpha)
    else .ok none := by
  have alpha (b : UInt8) : matchClass b 97 = isAlpha b := rfl
  rw [matchAt, numbered_shape, matchHere_open _ _ _ _ _ (by decide)]
  exact matchHere_class_plus 9 i _ 97 [41, 40, 37, 100, 43, 41] (by decide) (by decide) (by decide)

theorem matchAt_numbered_cases (i : Nat) : matchAt s NUMBERED i = .ok none ∨
    ∃ j k stop, matchAt s NUMBERED i = .ok (some (stop, [⟨i, .closed j⟩, ⟨i + j, .closed k⟩])) ∧
      ∀ b ∈ (s.drop i).take j, isAlpha b = true := by
  rw [matchAt_numbered]
  split
  case isFalse => exact .inl rfl
  case isTrue first =>
    have returns (j : Nat) : ∃ found, matchHere s 9 [41, 40, 37, 100, 43, 41] j ([] ++ [⟨i, .unfinished⟩]) = .ok found := by
      rw [matchHere_digits]
      split <;> exact ⟨_, rfl⟩
    apply (maxExpand_cases _ (i + 1) (repeated s (i + 1) isAlpha) returns).imp_right
    rintro ⟨j, bound, found, here, ran⟩
    rw [matchHere_digits] at here
    split at here
    case isFalse => cases here
    case isTrue =>
      cases here
      have letters : i + 1 + j - i = j + 1 := by omega
      have place : i + 1 + j = i + (j + 1) := by omega
      rw [letters, place] at ran
      exact ⟨j + 1, _, _, ran, take_repeated first bound⟩

end

theorem lmatch_numbered (k : Str) : lmatch k NUMBERED = .ok none ∨
    ∃ plainw parnum, lmatch k NUMBERED = .ok (some [plainw, parnum]) ∧ ∀ b ∈ plainw, isAlpha b = true := by
  have returns (i : Nat) : ∃ found, matchAt k NUMBERED i = .ok found := by
    rcases matchAt_numbered_cases k i with fails | ⟨_, _, _, here, _⟩
    · exact ⟨_, fails⟩
    · exact ⟨_, here⟩
  apply (lmatch_cases (by decide) returns).imp_right
  rintro ⟨i, stop, captures, here, ran⟩
  rcases matchAt_numbered_cases k i with fails | ⟨j, n, stop', found, letters⟩
  · rw [fails] at here
    cases here
  · rw [found] at here
    cases here
    exact ⟨_, _, ran, letters⟩

theorem lmatch_slot {p : Str} (filled : p ≠ []) (letters : ∀ b ∈ p, isAlpha b = true) (n : Nat) :
    lmatch (p ++ decimal n) NUMBERED = .ok (some [p, decimal n]) := by
  have digits := decimal_digits n
  obtain ⟨c, p, rfl⟩ := List.exists_cons_of_ne_nil filled
  obtain ⟨d, ds, number⟩ := List.exists_cons_of_ne_nil (decimal_ne_nil n)
  rw [number] at digits ⊢
  generalize whole : c :: p ++ d :: ds = s
  have front : s.drop 1 = p ++ d :: ds := by
    rw [← whole]
    rfl
  have back : s.drop (1 + p.length) = d :: ds := drop_behind front
  have last : s.drop (1 + p.length + 1) = ds := by
    rw [← List.drop_drop, back]
    rfl
  have some_letters : repeated s 1 isAlpha = p.length := by
    have ended : (d :: ds).takeWhile isAlpha = [] := by
      have digit : isAlpha d = false :=
        digit_not_alpha d (digits d (by simp))
      rw [List.takeWhile_cons, digit, if_neg Bool.false_ne_true]
    rw [repeated, front, List.takeWhile_append_of_pos fun b member => letters b (by simp [member]), ended,
      List.append_nil]
  have some_digits : repeated s (1 + p.length + 1) isDigit = ds.length := by
    rw [repeated, last, List.takeWhile_eq_self_iff.mpr fun b member => digits b (by simp [member])]
  have first : (s[0]?).any isAlpha = true := by
    rw [← whole]
    exact letters c (by simp)
  have behind : (s[1 + p.length]?).any isDigit = true := by
    rw [← List.head?_drop, back]
    exact digits d (by simp)
  have found : matchAt s NUMBERED 0 = .ok (.some (1 + p.length + 1 + ds.length,
      [⟨0, .closed (1 + p.length)⟩, ⟨1 + p.length, .closed (1 + ds.length)⟩])) := by
    rw [matchAt_numbered, if_pos first]
    apply maxExpand_longest _ _ _ p.length _ some_letters.ge
    · rw [Nat.zero_add, matchHere_digits, if_pos behind, some_digits]
      rfl
    · simp
    · intro k above bound
      rw [some_letters] at bound
      omega
  rw [lmatch_of_first s _ 0 _ _ (by decide) (Nat.zero_le _) found (by simp)]
  have word : (s.drop 0).take (1 + p.length) = c :: p := by
    rw [List.drop_zero, ← whole, Nat.add_comm, ← List.length_cons, List.take_left]
  have rest : (s.drop (1 + p.length)).take (1 + ds.length) = d :: ds := by
    rw [back, Nat.add_comm, ← List.length_cons, List.take_length]
  simp only [captured, List.map_cons, List.map_nil, word, rest]
  rfl

theorem lmatch_digitFree {p : Str} (word : DigitFree p) : lmatch p NUMBERED = .ok none := by
  have nowhere (j : Nat) : (p[j]?).any isDigit = false := by
    cases here : p[j]? with
    | none => rfl
    | some b => exact word b (List.mem_of_getElem? here)
  apply lmatch_none (by decide)
  intro i
  rw [matchAt_numbered]
  split
  case isFalse => rfl
  case isTrue =>
    apply maxExpand_none
    intro k _
    rw [matchHere_digits, nowhere]
    rfl

/-! The table. -/

def Numbered (k plainw : Str) : Prop := ∃ parnum, lmatch k NUMBERED = .ok (some [plainw, parnum])

theorem Numbered.letters {k plainw : Str} (numbered : Numbered k plainw) : ∀ b ∈ plainw, isAlpha b = true := by
  obtain ⟨parnum, found⟩ := numbered
  rcases lmatch_numbered k with fails | ⟨q, m, other, letters⟩
  · rw [fails] at found
    cases found
  · rw [other] at found
    cases found
    exact letters

def Sets (keytbl : Table Str) (ambigstbl : Table (List (Option Str))) : Prop :=
  ∀ p set, field ambigstbl p = some set → set = ambigset keytbl p

theorem collect_run (keytbl : Table Str) (e : Str × Str) {ambigstbl : Table (List (Option Str))}
    (sets : Sets keytbl ambigstbl) : ∃ ambigstbl', collect keytbl ambigstbl e = .ok ambigstbl' ∧
      Sets keytbl ambigstbl' ∧ ∀ p, p ∈ ambigstbl' ↔ p ∈ ambigstbl ∨ Numbered e.1 p := by
  rcases lmatch_numbered e.1 with fails | ⟨plainw, parnum, found, _⟩
  · refine ⟨ambigstbl, by rw [collect, fails]; rfl, sets, fun p => ⟨.inl, fun either => ?_⟩⟩
    rcases either with old | ⟨_, found⟩
    · exact old
    · rw [fails] at found
      cases found
  · have only (p : Str) : Numbered e.1 p ↔ p = plainw := by
      constructor
      · rintro ⟨_, other⟩
        rw [found] at other
        cases other
        rfl
      · rintro rfl
        exact ⟨parnum, found⟩
    simp only [only]
    rw [collect, found, run_bind_ok]
    cases known : (field ambigstbl plainw).isSome with
    | true =>
        refine ⟨ambigstbl, by simp [known], sets, fun p => ⟨.inl, fun either => ?_⟩⟩
        rcases either with old | rfl
        · exact old
        · obtain ⟨set, stored⟩ := Option.isSome_iff_exists.mp known
          exact mem_of_field stored
    | false =>
        refine ⟨ambigstbl.insert plainw (ambigset keytbl plainw), by simp [known], fun p set stored => ?_, fun p => ?_⟩
        · by_cases same : p = plainw
          · subst same
            rw [field_insert] at stored
            exact (Option.some.inj stored).symm
          · rw [field_insert_ne _ _ _ _ same] at stored
            exact sets p set stored
        · rw [AList.mem_insert, or_comm]

theorem collects_run (keytbl : Table Str) (entries : List (Str × Str)) {ambigstbl : Table (List (Option Str))}
    (sets : Sets keytbl ambigstbl) : ∃ ambigstbl', entries.foldlM (collect keytbl) ambigstbl = .ok ambigstbl' ∧
      Sets keytbl ambigstbl' ∧ ∀ p, p ∈ ambigstbl' ↔ p ∈ ambigstbl ∨ ∃ e ∈ entries, Numbered e.1 p := by
  induction entries generalizing ambigstbl with
  | nil => exact ⟨ambigstbl, rfl, sets, by simp⟩
  | cons e entries ih =>
      obtain ⟨next, ran, sets, members⟩ := collect_run keytbl e sets
      obtain ⟨last, ran', sets, members'⟩ := ih sets
      refine ⟨last, ?_, sets, fun p => ?_⟩
      · rw [List.foldlM_cons, ran]
        exact ran'
      · rw [members', members, List.exists_mem_cons_iff, or_assoc]

theorem ambiguities_run (keytbl : Table Str) : ∃ ambigstbl, ambiguities keytbl = .ok ambigstbl ∧
    Sets keytbl ambigstbl ∧ ∀ p, p ∈ ambigstbl ↔ ∃ k ∈ keytbl, Numbered k p := by
  have none : Sets keytbl ∅ := fun p set stored => by cases stored
  obtain ⟨ambigstbl, ran, sets, members⟩ := collects_run keytbl (sortedpairs keytbl) none
  refine ⟨ambigstbl, ran, sets, fun p => ?_⟩
  rw [members]
  constructor
  · rintro (empty | ⟨e, member, numbered⟩)
    · cases empty
    · exact ⟨e.1, (pairs_keys _ keytbl e.1).mp (List.mem_map_of_mem member), numbered⟩
  · rintro ⟨k, member, numbered⟩
    have present : k ∈ (sortedpairs keytbl).map Prod.fst := (pairs_keys _ keytbl k).mpr member
    obtain ⟨e, listed, rfl⟩ := List.mem_map.mp present
    exact .inr ⟨e, listed, numbered⟩

/-! What it is for. -/

def Ambiguous (keytbl : Table Str) (p : Str) : Prop :=
  ∃ v w, v ≠ w ∧ (Stored keytbl v ∧ plain v = .ok p) ∧ Stored keytbl w ∧ plain w = .ok p

def ListsAmbiguities (keytbl : Table Str) (ambigstbl : Table (List (Option Str))) : Prop :=
  ∀ p, ((∃ set, field ambigstbl p = some set) ↔ Ambiguous keytbl p) ∧
    ∀ set, field ambigstbl p = some set →
      ∀ slot, slot ∈ set ↔ ∃ w, slot = some w ∧ Stored keytbl w ∧ plain w = .ok p

theorem ambigset_chain {keytbl : Table Str} {p : Str} (stored : p ∈ keytbl) :
    ambigset keytbl p = (chain keytbl p).map some := by
  obtain ⟨w, found⟩ := exists_field stored
  rw [ambigset, chain, chainFrom, slot_zero, found]
  rfl

theorem ambiguous_iff {keytbl : Table Str} (wf : WellFormed keytbl) {p : Str} (word : DigitFree p) :
    Ambiguous keytbl p ↔ ∃ n, n ≠ 0 ∧ slot p n ∈ keytbl := by
  constructor
  · rintro ⟨v, w, apart, ⟨first, plain_v⟩, second, plain_w⟩
    have left := (wf.mem_chain word v).mpr ⟨first, plain_v⟩
    have right := (wf.mem_chain word w).mpr ⟨second, plain_w⟩
    obtain ⟨m, here⟩ := List.mem_iff_getElem?.mp left
    obtain ⟨n, there⟩ := List.mem_iff_getElem?.mp right
    have held := field_of_chain keytbl p m v here
    have held' := field_of_chain keytbl p n w there
    by_cases zero : m = 0
    · refine ⟨n, fun same => apart ?_, mem_of_field held'⟩
      rw [zero] at here
      rw [same] at there
      exact Option.some.inj (here.symm.trans there)
    · exact ⟨m, zero, mem_of_field held⟩
  · rintro ⟨n, positive, member⟩
    obtain ⟨w, found⟩ := exists_field member
    have start : slot p 0 ∈ keytbl := wf.filled_below p word 0 n (by rwa [Nat.zero_add])
    obtain ⟨v, first⟩ := exists_field start
    refine ⟨v, w, fun same => ?_, ⟨⟨_, first⟩, wf.demacronises p 0 v word first⟩, ⟨_, found⟩, wf.demacronises p n w word found⟩
    subst same
    exact positive (slot_number_injective p (wf.distinct _ _ _ found first))

theorem Ambiguous.word {keytbl : Table Str} (wf : WellFormed keytbl) {p : Str} (ambiguous : Ambiguous keytbl p) :
    DigitFree p ∧ p ≠ [] ∧ p ∈ keytbl := by
  obtain ⟨v, w, apart, ⟨stored, first⟩, _, second⟩ := ambiguous
  obtain ⟨q, same, word⟩ := wf.plain_of_stored stored
  obtain rfl : p = q := Except.ok.inj (first.symm.trans same)
  refine ⟨word, ?_, ?_⟩
  · rintro rfl
    exact apart ((plain_empty first).trans (plain_empty second).symm)
  · obtain ⟨n, here⟩ := List.mem_iff_getElem?.mp ((wf.mem_chain word v).mpr ⟨stored, first⟩)
    have member := mem_of_field (field_of_chain keytbl p n v here)
    have start := wf.filled_below p word 0 n (by rwa [Nat.zero_add])
    rwa [slot_zero] at start

/-- `analyze` finds all ambiguities just when all words that are ambiguous consist of ASCII letters. -/
theorem ambiguities_iff (keytbl : Table Str) (wf : WellFormed keytbl) : ∃ ambigstbl, ambiguities keytbl = .ok ambigstbl ∧
    (ListsAmbiguities keytbl ambigstbl ↔ ∀ p, Ambiguous keytbl p → ∀ b ∈ p, isAlpha b = true) := by
  obtain ⟨ambigstbl, ran, sets, members⟩ := ambiguities_run keytbl
  refine ⟨ambigstbl, ran, fun lists p ambiguous => ?_, fun letters => ?_⟩
  · obtain ⟨set, stored⟩ := (lists p).1.mpr ambiguous
    obtain ⟨k, _, numbered⟩ := (members p).mp (mem_of_field stored)
    exact numbered.letters
  · -- the key of a number is taken apart into its word and the number
    have found (p : Str) : p ∈ ambigstbl ↔ Ambiguous keytbl p := by
      rw [members]
      constructor
      · rintro ⟨k, member, parnum, matched⟩
        obtain ⟨q, n, word, rfl⟩ := wf.numbered k member
        by_cases zero : n = 0
        · rw [zero, slot_zero, lmatch_digitFree word] at matched
          cases matched
        · have ambiguous := (ambiguous_iff wf word).mpr ⟨n, zero, member⟩
          rw [slot_pos q n zero, lmatch_slot (ambiguous.word wf).2.1 (letters q ambiguous)] at matched
          cases matched
          exact ambiguous
      · intro ambiguous
        obtain ⟨word, filled, _⟩ := ambiguous.word wf
        obtain ⟨n, positive, member⟩ := (ambiguous_iff wf word).mp ambiguous
        refine ⟨slot p n, member, decimal n, ?_⟩
        rw [slot_pos p n positive, lmatch_slot filled (letters p ambiguous)]
    intro p
    constructor
    · rw [← found]
      exact ⟨fun ⟨set, stored⟩ => mem_of_field stored, exists_field⟩
    · intro set stored slot
      obtain ⟨word, _, member⟩ := Ambiguous.word wf ((found p).mp (mem_of_field stored))
      rw [sets p set stored, ambigset_chain member, List.mem_map]
      simp only [wf.mem_chain word]
      constructor
      · rintro ⟨w, form, rfl⟩
        exact ⟨w, rfl, form⟩
      · rintro ⟨w, rfl, form⟩
        exact ⟨w, form, rfl⟩

section

variable {first second p : Str}

theorem twoForms_wellFormed (left : plain first = .ok p) (right : plain second = .ok p) (free : DigitFree first ∧ DigitFree second) :
    WellFormed (learnForm (learnForm ∅ first p) second p) :=
  (wellFormed_empty.learnForm left free.1).learnForm right free.2

theorem twoForms_stored (left : plain first = .ok p) (right : plain second = .ok p) (free : DigitFree first ∧ DigitFree second) (w : Str) :
    Stored (learnForm (learnForm ∅ first p) second p) w ↔ w = first ∨ w = second := by
  have word := plain_digitFree left free.1
  rw [(wellFormed_empty.learnForm left free.1).stored_learnForm right word, wellFormed_empty.stored_learnForm left word]
  have none : ¬ Stored ∅ w := not_stored_empty w
  simp [none]

theorem twoForms_ambiguous (left : plain first = .ok p) (right : plain second = .ok p) (free : DigitFree first ∧ DigitFree second)
    (apart : first ≠ second) (q : Str) : Ambiguous (learnForm (learnForm ∅ first p) second p) q ↔ q = p := by
  constructor
  · rintro ⟨v, _, _, ⟨stored, same⟩, _⟩
    rcases (twoForms_stored left right free v).mp stored with rfl | rfl
    · exact Except.ok.inj (same.symm.trans left)
    · exact Except.ok.inj (same.symm.trans right)
  · rintro rfl
    have both := twoForms_stored left right free
    exact ⟨first, second, apart, ⟨(both first).mpr (.inl rfl), left⟩, (both second).mpr (.inr rfl), right⟩

end

theorem plain_regi : plain (lit "rēgi") = .ok (lit "regi") ∧ plain (lit "rēgī") = .ok (lit "regi") := by
  decide

theorem ambiguities_regi : ∃ ambigstbl, ambiguities (learnForm (learnForm ∅ (lit "rēgi") (lit "regi")) (lit "rēgī")
    (lit "regi")) = .ok ambigstbl ∧ ∃ set, field ambigstbl (lit "regi") = some set := by
  obtain ⟨left, right⟩ := plain_regi
  have free : DigitFree (lit "rēgi") ∧ DigitFree (lit "rēgī") := by decide
  have ambiguous := twoForms_ambiguous left right free (by decide)
  obtain ⟨ambigstbl, ran, lists⟩ := ambiguities_iff _ (twoForms_wellFormed left right free)
  have letters : ∀ b ∈ lit "regi", isAlpha b = true := List.all_eq_true.mp (by decide)
  have all := lists.mpr fun p here => (ambiguous p).mp here ▸ letters
  exact ⟨ambigstbl, ran, (all _).1.mpr ((ambiguous _).mpr rfl)⟩

theorem plain_kal : plain (lit "kal.") = .ok (lit "kal.") ∧ plain (lit "kāl.") = .ok (lit "kal.") := by
  decide

/-- Of an abbreviation with two forms, `kal.` and `kāl.`, nothing is found. -/
theorem ambiguities_kal : ¬ ∀ keytbl, WellFormed keytbl →
    (∀ w, Stored keytbl w → w ≠ [] ∧ ∀ b ∈ w, isLetter b = true) →
    ∃ ambigstbl, ambiguities keytbl = .ok ambigstbl ∧ ListsAmbiguities keytbl ambigstbl := by
  intro claim
  obtain ⟨left, right⟩ := plain_kal
  have free : DigitFree (lit "kal.") ∧ DigitFree (lit "kāl.") := by decide
  have wf := twoForms_wellFormed left right free
  have ambiguous := (twoForms_ambiguous left right free (by decide) (lit "kal.")).mpr rfl
  obtain ⟨ambigstbl, ran, lists⟩ := claim _ wf fun w stored => by
    rcases (twoForms_stored left right free w).mp stored with rfl | rfl
    all_goals decide +kernel
  obtain ⟨set, stored⟩ := (lists _).1.mpr ambiguous
  obtain ⟨ambigstbl', ran', _, members⟩ := ambiguities_run (learnForm (learnForm ∅ (lit "kal.") (lit "kal.")) (lit "kāl.")
    (lit "kal."))
  rw [ran] at ran'
  cases ran'
  obtain ⟨k, _, numbered⟩ := (members _).mp (mem_of_field stored)
  exact absurd (numbered.letters 46 (by decide)) (by decide)

end Maccer
