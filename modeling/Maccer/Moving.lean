import Maccer.Repair

/-! One form of the key moved to another, with what is known about it. -/

namespace Maccer

open Lua

/-- `replaceword` when it is told not to change the sources. -/
def replacewordInKey (key : Key) (orig repl : Str) : Run Key := do
  let origplainw ← plain orig
  let replplainw ← plain repl
  match getpars key.keytbl origplainw false with
  | none => return key
  | some (origpartbl, origparcount, _) =>
      if field origpartbl orig = none then return key
      else do
        let keytbl := addReplacement key.keytbl repl replplainw
        let keytbl := keyremoveAt keytbl orig origplainw origpartbl origparcount
        moveCounts { key with keytbl } orig repl

/-- What `replaceword` does to the key does not depend on the sources. -/
theorem replaceword_key (t : Tables) (fuel : Nat) (s s' : Session) (orig repl : Str)
    (ran : replaceword t fuel s orig repl = .ok s') : replacewordInKey s.key orig repl = .ok s'.key := by
  unfold replaceword at ran
  obtain ⟨p, origPlain, ran⟩ := bind_eq_ok.mp ran
  obtain ⟨q, replPlain, ran⟩ := bind_eq_ok.mp ran
  rw [replacewordInKey, origPlain, run_bind_ok, replPlain, run_bind_ok]
  cases pars : getpars s.key.keytbl p false with
  | none =>
      rw [pars] at ran
      exact congrArg (Session.key <$> ·) ran
  | some result =>
      obtain ⟨partbl, parcount, nextkey⟩ := result
      rw [pars] at ran
      dsimp only at ran ⊢
      split at ran
      case isTrue absent =>
        rw [if_pos absent]
        exact congrArg (Session.key <$> ·) ran
      case isFalse present =>
        obtain ⟨textstbl, _, ran⟩ := bind_eq_ok.mp ran
        obtain ⟨key, moved, ran⟩ := bind_eq_ok.mp ran
        rw [if_neg present, moved, ← Except.ok.inj ran]

theorem mem_merge {ν : Type} (d t : Table ν) (k : Str) : k ∈ merge d t ↔ k ∈ d ∨ k ∈ t := by
  have fold (entries : List (Sigma fun _ : Str => ν)) (d : Table ν) :
      k ∈ entries.foldl (fun d e => if field d e.1 = none then d.insert e.1 e.2 else d) d ↔
        k ∈ d ∨ k ∈ entries.map Sigma.fst := by
    induction entries generalizing d with
    | nil => simp
    | cons e entries ih =>
        rw [List.foldl_cons, ih, List.map_cons, List.mem_cons]
        split
        case isTrue => rw [AList.mem_insert, or_comm (a := k = e.1), or_assoc]
        case isFalse filled =>
          have old : k = e.1 → k ∈ d := fun same => same ▸ not_not.mp fun free =>
            filled ((field_eq_none d e.1).mpr free)
          tauto
  exact fold t.entries d

theorem keyremoveAt_once (keytbl partbl : Table Str) (a p : Str) (i n : Nat) (word : DigitFree p)
    (found : field partbl a = some (slot p i)) (inside : i < n) {w : Str}
    (once : ∀ k k', field keytbl k = some w → field keytbl k' = some w → k = k') {k k' : Str}
    (here : field (keyremoveAt keytbl a p partbl n) k = some w)
    (there : field (keyremoveAt keytbl a p partbl n) k' = some w) : k = k' := by
  obtain ⟨source, value, from'⟩ := keyremoveAt_value keytbl partbl a p i n word found inside here
  obtain ⟨source', value', from''⟩ := keyremoveAt_value keytbl partbl a p i n word found inside there
  have same := once source source' value value'
  rcases from' with ⟨outside, rfl⟩ | ⟨m, rfl, last, rfl⟩ <;>
    rcases from'' with ⟨outside', rfl⟩ | ⟨m', rfl, last', rfl⟩
  · exact same
  · exact absurd same (outside _)
  · exact absurd same.symm (outside' _)
  · have number := slot_number_injective p same
    unfold sourceSlot at number
    congr 1
    split at number <;> split at number <;> omega

theorem replaced_once {keytbl : Table Str} (wf : WellFormed keytbl) {orig repl p q : Str}
    (word : DigitFree p) (replWord : DigitFree repl) (replPlain : plain repl = .ok q)
    (member : orig ∈ chain keytbl p) {w k k' : Str}
    (here : field (replaced keytbl orig repl p q) k = some w)
    (there : field (replaced keytbl orig repl p q) k' = some w) : k = k' := by
  obtain ⟨i, found, inside, _, _⟩ := replaced_slots repl q member
  rw [replaced, addReplacement_eq] at here there
  have learned := wf.learnForm replPlain replWord
  exact keyremoveAt_once _ _ _ _ _ _ word found inside (fun k k' => learned.distinct k k' w) here there

theorem moveCounts_moves (key : Key) (orig repl : Str) (apart : orig ≠ repl) (freq : Nat)
    (headers : Table Unit) (counted : field key.freqtbl orig = some freq)
    (sourced : field key.headerstbl orig = some headers) :
    moveCounts key orig repl = .ok { key with
      freqtbl := assign (key.freqtbl.insert repl (key.freq repl + freq)) orig none
      headerstbl := assign (key.headerstbl.insert repl (merge (key.headers repl) headers)) orig none } := by
  have filled : field (assign (key.headerstbl.insert repl
      (merge ((field key.headerstbl repl).getD ∅) headers)) orig none) repl ≠ none := by
    rw [field_assign_ne _ _ _ _ (Ne.symm apart), field_insert]
    simp
  simp only [moveCounts, sourced, counted, if_neg filled]
  rfl

/-- What a replacement does to the key and to what is known about its forms. -/
structure Moves (key key' : Key) (orig repl : Str) (freq : Nat) (headers : Table Unit) : Prop where
  forms : ∀ w, Stored key'.keytbl w ↔ (Stored key.keytbl w ∧ w ≠ orig) ∨ w = repl
  once : ∀ w k k', field key'.keytbl k = some w → field key'.keytbl k' = some w → k = k'
  frequency : field key'.freqtbl repl = some (key.freq repl + freq)
  headerset : ∃ union, field key'.headerstbl repl = some union ∧
    ∀ h, h ∈ union ↔ h ∈ key.headers repl ∨ h ∈ headers
  cleared : field key'.freqtbl orig = none ∧ field key'.headerstbl orig = none
  others : ∀ w, w ≠ orig → w ≠ repl → field key'.freqtbl w = field key.freqtbl w ∧
    field key'.headerstbl w = field key.headerstbl w
  registered : key'.headersbynumtbl = key.headersbynumtbl

/-- `replaceword` moves one form to another, with its frequency and headers, and nothing
else. A form that is not stored under its plain word is left alone. -/
theorem replacewordInKey_moves (key : Key) (wf : WellFormed key.keytbl) (orig repl p q : Str)
    (origPlain : plain orig = .ok p) (replPlain : plain repl = .ok q) (apart : orig ≠ repl)
    (replWord : DigitFree repl) :
    (∀ freq headers, Stored key.keytbl orig → field key.freqtbl orig = some freq →
      field key.headerstbl orig = some headers →
      ∃ key', replacewordInKey key orig repl = .ok key' ∧ Moves key key' orig repl freq headers) ∧
    (orig ∉ chain key.keytbl p → replacewordInKey key orig repl = .ok key) := by
  constructor
  · intro freq headers stored counted sourced
    obtain ⟨p', i, held⟩ := wf.holds stored
    obtain rfl : p' = p := Except.ok.inj (held.same.symm.trans origPlain)
    have member := held.member
    have present : field (parallels key.keytbl p') orig ≠ none := by
      rw [Ne, field_parallels_none]
      exact fun absent => absent member
    have moves := moveCounts_moves { key with keytbl := replaced key.keytbl orig repl p' q } orig repl
      apart freq headers counted sourced
    have ran : replacewordInKey key orig repl =
        moveCounts { key with keytbl := replaced key.keytbl orig repl p' q } orig repl := by
      simp only [replacewordInKey, origPlain, replPlain, run_bind_ok, getpars_eq,
        if_neg (List.ne_nil_of_mem member), if_neg present]
      rfl
    refine ⟨_, ran.trans moves, ⟨fun w => stored_replaced held apart w, fun w k k' =>
      replaced_once wf held.word replWord replPlain member, ?_, ⟨_, ?_, fun h => mem_merge _ _ h⟩, ⟨?_, ?_⟩,
      fun w other other' => ⟨?_, ?_⟩, rfl⟩⟩
    · exact (field_assign_ne _ _ _ _ (Ne.symm apart)).trans (field_insert _ _ _)
    · exact (field_assign_ne _ _ _ _ (Ne.symm apart)).trans (field_insert _ _ _)
    · exact field_assign _ _ _
    · exact field_assign _ _ _
    · exact (field_assign_ne _ _ _ _ other).trans (field_insert_ne _ _ _ _ other')
    · exact (field_assign_ne _ _ _ _ other).trans (field_insert_ne _ _ _ _ other')
  · intro absent
    have missing := (field_parallels_none key.keytbl p orig).mpr absent
    rw [replacewordInKey, origPlain, run_bind_ok, replPlain, run_bind_ok, getpars_eq]
    by_cases empty : chain key.keytbl p = []
    · rw [if_pos empty]
      rfl
    · rw [if_neg empty]
      exact if_pos missing

/-- A key with two forms of one plain word, each met in a source of its own. -/
def tectaKey : Key where
  keytbl := learnForm (learnForm ∅ (lit "tecta") (lit "tecta")) (lit "tēcta") (lit "tecta")
  freqtbl := AList.insert (lit "tecta") 3 (AList.insert (lit "tēcta") 2 ∅)
  headerstbl := AList.insert (lit "tecta") (AList.insert (lit "Gallia") () ∅)
    (AList.insert (lit "tēcta") (AList.insert (lit "Tacitus") () ∅) ∅)
  headersbynumtbl := [lit "Gallia", lit "Tacitus"]

theorem tectaKey_wellFormed : WellFormed tectaKey.keytbl := by
  have first : WellFormed (learnForm ∅ (lit "tecta") (lit "tecta")) := wellFormed_empty.learnForm (by decide) (by decide)
  have second : plain (lit "tēcta") = .ok (lit "tecta") := by decide
  exact first.learnForm second (by decide)

theorem replacewordInKey_tecta : ∃ key', replacewordInKey tectaKey (lit "tecta") (lit "tēcta") = .ok key' ∧
    Moves tectaKey key' (lit "tecta") (lit "tēcta") 3 (AList.insert (lit "Gallia") () ∅) :=
  (replacewordInKey_moves tectaKey tectaKey_wellFormed (lit "tecta") (lit "tēcta") (lit "tecta") (lit "tecta")
    (by decide) (by decide) (by decide) (by decide)).1 3 _ ⟨lit "tecta", by decide⟩ (field_insert _ _ _) (field_insert _ _ _)

end Maccer
