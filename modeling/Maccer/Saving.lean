import Maccer.KeyRoundTrip

/-! What `macra.savekey` writes: the contents of the key, whatever order its tables are enumerated in. -/

namespace Maccer

open Lua

variable {ν μ : Type}

/-! Sorted enumeration. -/

theorem sortedkeys_congr {t : Table ν} {t' : Table μ} (same : ∀ k, k ∈ t ↔ k ∈ t') :
    (sortedpairs t).map Prod.fst = (sortedpairs t').map Prod.fst := by
  have keys : t.keys.Perm t'.keys := by
    rw [List.perm_ext_iff_of_nodup t.keys_nodup t'.keys_nodup]
    exact same
  rw [sortedpairs, sortedpairs, pairs_fst, pairs_fst]
  apply List.Perm.eq_of_pairwise' (r := (· ≤ ·)) (List.pairwise_insertionSort _ _) (List.pairwise_insertionSort _ _)
  exact (List.perm_insertionSort _ _).trans (keys.trans (List.perm_insertionSort _ _).symm)

theorem sortedpairs_snd (t : Table ν) :
    (sortedpairs t).map (fun e => some e.2) = ((sortedpairs t).map Prod.fst).map (field t) := by
  rw [List.map_map]
  apply List.map_congr_left
  intro e member
  exact ((mem_pairs _ t e.1 e.2).mp member).symm

theorem sortedvalues_congr {t t' : Table ν} (same : ∀ k, field t k = field t' k) :
    (sortedpairs t).map Prod.snd = (sortedpairs t').map Prod.snd := by
  have keys := @sortedkeys_congr ν ν t t' fun k => by
    rw [← AList.lookup_isSome, ← AList.lookup_isSome]
    exact iff_of_eq (congrArg (fun v => v.isSome = true) (same k))
  apply List.map_injective_iff.mpr (Option.some_injective ν)
  rw [List.map_map, List.map_map]
  calc
    (sortedpairs t).map (fun e => some e.2) = ((sortedpairs t).map Prod.fst).map (field t) := sortedpairs_snd t
    _ = ((sortedpairs t').map Prod.fst).map (field t') := by rw [keys]; exact List.map_congr_left fun k _ => same k
    _ = (sortedpairs t').map (fun e => some e.2) := (sortedpairs_snd t').symm

/-! The column of letters. -/

/-- The loop over headers collects the letters of those with a number, unless one has none. -/
theorem addLetter_all (numstbl : Table Nat) (headers : List (Str × Unit)) (tbl : Table Str) :
    (∃ tbl', headers.foldlM (addLetter numstbl) tbl = .ok tbl' ∧ (∀ e ∈ headers, e.1 ∈ numstbl) ∧
      ∀ letter, letter ∈ tbl' ↔ letter ∈ tbl ∨ ∃ e ∈ headers, (field numstbl e.1).map letterkey = some letter) ∨
    headers.foldlM (addLetter numstbl) tbl = .error .raised ∧ ∃ e ∈ headers, e.1 ∉ numstbl := by
  induction headers generalizing tbl with
  | nil => exact .inl ⟨tbl, rfl, by simp, by simp⟩
  | cons e headers ih =>
      rw [List.foldlM_cons, addLetter]
      cases numbered : field numstbl e.1 with
      | none => exact .inr ⟨rfl, e, List.mem_cons_self, (field_eq_none _ _).mp numbered⟩
      | some num =>
          cases ih (tbl.insert (letterkey num) e.1) with
          | inr stopped =>
              obtain ⟨ran, unlisted, member, absent⟩ := stopped
              exact .inr ⟨ran, unlisted, List.mem_cons_of_mem _ member, absent⟩
          | inl finished =>
              obtain ⟨tbl', ran, listed, letters⟩ := finished
              refine .inl ⟨tbl', ran, List.forall_mem_cons.mpr ⟨mem_of_field numbered, listed⟩, fun letter => ?_⟩
              rw [letters, AList.mem_insert, List.exists_mem_cons_iff, numbered, Option.map_some, Option.some_inj,
                eq_comm (b := letter)]
              tauto

theorem lettersOf_congr (hash hash' : HashOrder) (registered : List Str) {headers headers' : Table Unit}
    (same : ∀ h, h ∈ headers ↔ h ∈ headers') :
    lettersOf hash registered headers = lettersOf hash' registered headers' := by
  have entries (h : Str) : (∃ e ∈ pairs hash headers, e.1 = h) ↔ ∃ e ∈ pairs hash' headers', e.1 = h := by
    rw [← List.mem_map, ← List.mem_map, pairs_keys, pairs_keys, same]
  have among (P : Str → Prop) : (∃ e ∈ pairs hash headers, P e.1) ↔ ∃ e ∈ pairs hash' headers', P e.1 := by
    constructor
    · rintro ⟨e, member, holds⟩
      obtain ⟨e', member', key⟩ := (entries e.1).mp ⟨e, member, rfl⟩
      exact ⟨e', member', key ▸ holds⟩
    · rintro ⟨e, member, holds⟩
      obtain ⟨e', member', key⟩ := (entries e.1).mpr ⟨e, member, rfl⟩
      exact ⟨e', member', key ▸ holds⟩
  rw [lettersOf, lettersOf]
  rcases addLetter_all (indexFrom registered 1 ∅) (pairs hash headers) ∅ with ⟨tbl, ran, listed, letters⟩ | ⟨ran, unlisted⟩
  all_goals rcases addLetter_all (indexFrom registered 1 ∅) (pairs hash' headers') ∅ with
    ⟨tbl', ran', listed', letters'⟩ | ⟨ran', unlisted'⟩
  · have keys : (sortedpairs tbl).map Prod.fst = (sortedpairs tbl').map Prod.fst := by
      apply sortedkeys_congr
      intro letter
      rw [letters, letters', among fun h => (field (indexFrom registered 1 ∅) h).map letterkey = some letter]
    rw [ran, ran', run_bind_ok, run_bind_ok, ← List.flatMap_map Prod.fst fun letter => lit "," ++ letter,
      ← List.flatMap_map Prod.fst fun letter => lit "," ++ letter, keys]
  · obtain ⟨e, member, absent⟩ := (among fun h => h ∉ indexFrom registered 1 ∅).mpr unlisted'
    exact absurd (listed e member) absent
  · obtain ⟨e, member, absent⟩ := (among fun h => h ∉ indexFrom registered 1 ∅).mp unlisted
    exact absurd (listed' e member) absent
  · rw [ran, ran']

/-! The file. -/

/-- Two keys with the same forms in the same slots, met as often in the same sources. -/
structure SameKey (key key' : Key) : Prop where
  forms : ∀ k, field key.keytbl k = field key'.keytbl k
  counts : ∀ w, Stored key.keytbl w → key.freq w = key'.freq w
  sourced : ∀ w, Stored key.keytbl w → 0 < key.freq w →
    (w ∈ key.headerstbl ↔ w ∈ key'.headerstbl) ∧ ∀ h, h ∈ key.headers w ↔ h ∈ key'.headers w
  registered : key.headersbynumtbl = key'.headersbynumtbl

theorem wordline_counted (hash : HashOrder) {key : Key} {w : Str} (positive : 0 < key.freq w) :
    wordline hash key w = if w ∈ key.headerstbl then
      (lettersOf hash key.headersbynumtbl (key.headers w)).map fun letters =>
        w ++ lit "\t" ++ decimal (key.freq w) ++ lit "\t" ++ letters
      else .error .raised := by
  rw [wordline]
  cases counted : field key.freqtbl w with
  | none => simp [Key.freq, counted] at positive
  | some freq =>
      have value : key.freq w = freq := by rw [Key.freq, counted, Option.getD_some]
      simp only [if_pos (value ▸ positive : freq > 0)]
      cases sourced : field key.headerstbl w with
      | none => rw [if_neg ((field_eq_none _ _).mp sourced)]; rfl
      | some headers =>
          rw [if_pos (mem_of_field sourced), Key.headers, sourced, Option.getD_some, value]
          rfl

theorem wordline_uncounted (hash : HashOrder) {key : Key} {w : Str} (zero : key.freq w = 0) :
    wordline hash key w = .ok w := by
  rw [wordline]
  cases counted : field key.freqtbl w with
  | none => rfl
  | some freq =>
      have value : freq = 0 := by rw [← zero, Key.freq, counted, Option.getD_some]
      exact if_neg (by omega)

theorem SameKey.wordline {key key' : Key} (same : SameKey key key') (hash hash' : HashOrder) {w : Str}
    (stored : Stored key.keytbl w) : wordline hash key w = Maccer.wordline hash' key' w := by
  have counts := same.counts w stored
  by_cases positive : 0 < key.freq w
  · obtain ⟨present, headers⟩ := same.sourced w stored positive
    rw [wordline_counted hash positive, wordline_counted hash' (counts ▸ positive), counts, same.registered,
      lettersOf_congr hash hash' _ headers]
    simp only [present]
  · rw [wordline_uncounted hash (by omega), wordline_uncounted hash' (by omega)]

theorem mapM_congr {α β : Type} {f g : α → Run β} {l : List α} (same : ∀ a ∈ l, f a = g a) :
    l.mapM f = l.mapM g := by
  induction l with
  | nil => rfl
  | cons a l ih => rw [List.mapM_cons, List.mapM_cons, same a (by simp), ih fun x member => same x (by simp [member])]

/-- The file, or the failure to save it, is the same for two keys with the same contents, in whatever orders their
tables are enumerated. -/
theorem SameKey.savekey {key key' : Key} (same : SameKey key key') (hash hash' : HashOrder) :
    savekey hash key = Maccer.savekey hash' key' := by
  have words := sortedvalues_congr same.forms
  have lines : ((sortedpairs key.keytbl).map Prod.snd).mapM (Maccer.wordline hash key) =
      ((sortedpairs key.keytbl).map Prod.snd).mapM (Maccer.wordline hash' key') := by
    apply mapM_congr
    intro w member
    obtain ⟨e, inside, rfl⟩ := List.mem_map.mp member
    exact same.wordline hash hash' ⟨e.1, (mem_pairs _ _ e.1 e.2).mp inside⟩
  rw [Maccer.savekey, Maccer.savekey, lines, words, same.registered]

end Maccer
