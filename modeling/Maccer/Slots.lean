import Maccer.Saving
import Maccer.Replacing

/-! The slots of a key that is saved and loaded. Forms are loaded in the order of their slots as strings, and there the
number 10 comes before 2. -/

namespace Maccer

open Lua

/-! Slots as strings. -/

def slots (p : Str) (n : Nat) : List Str := (List.range n).map (slot p)

theorem mem_slots {p k : Str} {n : Nat} : k ∈ slots p n ↔ ∃ i < n, slot p i = k := by
  simp [slots]

theorem slots_nodup (p : Str) (n : Nat) : (slots p n).Nodup :=
  List.nodup_range.map fun _ _ => slot_number_injective p

theorem slot_le {p : Str} {i j : Nat} (less : i ≤ j) (small : j < 10) : slot p i ≤ slot p j := by
  by_cases first : i = 0
  · rw [first, slot_zero, slot]
    split
    · exact List.le_refl p
    · exact List.le_append_left
  · have digits : ∀ j < 10, ∀ i ≤ j, [digitByte i] ≤ [digitByte j] := by decide
    rw [slot_pos p i first, slot_pos p j (by omega), decimal_small i (by omega), decimal_small j small]
    exact List.append_left_le (digits j small i less)

theorem slots_sorted (p : Str) (n : Nat) : (slots p n).Pairwise (· ≤ ·) ↔ n ≤ 10 := by
  constructor
  · intro sorted
    by_contra more
    have second : slot p 2 ≤ slot p 10 := by
      have places := List.pairwise_iff_getElem.mp sorted 2 10 (by simp [slots]; omega) (by simp [slots]; omega)
        (by decide)
      simpa [slots] using places
    have tenth : slot p 10 ≤ slot p 2 := by
      rw [slot_pos p 10 (by decide), slot_pos p 2 (by decide)]
      exact List.append_left_le (by decide)
    exact absurd (slot_number_injective p (List.le_antisymm second tenth)) (by decide)
  · intro few
    rw [slots, List.pairwise_map]
    apply List.Pairwise.imp_of_mem _ List.pairwise_lt_range
    intro i j _ inside less
    have bound := List.mem_range.mp inside
    exact slot_le less.le (by omega)

/-! The order of the file. -/

theorem chain_fields (t : Table Str) (p : Str) : (chain t p).map some = (slots p (chain t p).length).map (field t) := by
  apply List.ext_getElem
  · simp [slots]
  · intro i left right
    have inside : i < (chain t p).length := by simpa using left
    simp [slots, field_in_chain t p i inside, List.getElem?_eq_getElem inside]

section

variable {keytbl : Table Str} (wf : WellFormed keytbl) {p : Str} (word : DigitFree p)

include wf word

theorem entry_slot (k w : Str) (found : field keytbl k = some w) :
    plain w = .ok p ↔ k ∈ slots p (chain keytbl p).length := by
  rw [mem_slots]
  constructor
  · intro same
    obtain ⟨q, i, free, rfl⟩ := wf.numbered k (mem_of_field found)
    have words : q = p := Except.ok.inj ((wf.demacronises q i w free found).symm.trans same)
    subst words
    rw [wf.held q i free] at found
    exact ⟨i, (List.getElem?_eq_some_iff.mp found).1, rfl⟩
  · rintro ⟨i, _, rfl⟩
    exact wf.demacronises p i w word found

theorem written_order : (((sortedpairs keytbl).map Prod.snd).filter fun w => plain w = .ok p).map some =
    ((slots p (chain keytbl p).length).insertionSort (· ≤ ·)).map (field keytbl) := by
  have keys : ((sortedpairs keytbl).filter fun e => plain e.2 = .ok p).map Prod.fst =
      (slots p (chain keytbl p).length).insertionSort (· ≤ ·) := by
    have listed := pairs_nodup ⟨List.insertionSort (· ≤ ·), fun ks => List.perm_insertionSort _ ks⟩ keytbl
    have sublist : (((sortedpairs keytbl).filter fun e => plain e.2 = .ok p).map Prod.fst).Sublist
        ((sortedpairs keytbl).map Prod.fst) := List.filter_sublist.map _
    apply List.Perm.eq_of_pairwise' (r := (· ≤ ·))
    · apply List.Pairwise.sublist sublist
      rw [sortedpairs, pairs_fst]
      exact List.pairwise_insertionSort _ _
    · exact List.pairwise_insertionSort _ _
    · apply List.Perm.trans _ (List.perm_insertionSort _ _).symm
      rw [List.perm_ext_iff_of_nodup (sublist.nodup listed) (slots_nodup _ _)]
      intro k
      rw [List.mem_map]
      constructor
      · rintro ⟨e, member, rfl⟩
        obtain ⟨inside, same⟩ := List.mem_filter.mp member
        exact (entry_slot wf word e.1 e.2 ((mem_pairs _ _ e.1 e.2).mp inside)).mp (of_decide_eq_true same)
      · intro member
        obtain ⟨i, bound, rfl⟩ := mem_slots.mp member
        have found : field keytbl (slot p i) = some (chain keytbl p)[i] := by
          rw [field_in_chain _ _ _ bound, List.getElem?_eq_getElem bound]
        refine ⟨(slot p i, (chain keytbl p)[i]), List.mem_filter.mpr ⟨(mem_pairs _ _ _ _).mpr found, ?_⟩, rfl⟩
        exact decide_eq_true ((entry_slot wf word _ _ found).mpr member)
  rw [← keys, List.filter_map, List.map_map, List.map_map]
  apply List.map_congr_left
  intro e member
  exact ((mem_pairs _ keytbl e.1 e.2).mp (List.mem_filter.mp member).1).symm

end

/-! Loading. -/

theorem WellFormed.chain_learnForm {keytbl : Table Str} (wf : WellFormed keytbl) {w q : Str} (same : plain w = .ok q)
    (free : DigitFree q) (fresh : w ∉ chain keytbl q) {p : Str} (word : DigitFree p) :
    chain (Maccer.learnForm keytbl w q) p = chain keytbl p ++ [w].filter fun w => plain w = .ok p := by
  rw [(wf.represents.learnForm same free).chain p word, wf.represents.chain p word, Dictionary.learn]
  rw [wf.represents.chain q free] at fresh
  dsimp only
  by_cases here : p = q
  · subst here
    simp [fresh, same]
  · have other : ¬ q = p := fun equal => here equal.symm
    simp [here, same, other]

theorem loadWords_chain {key : Key} (writable : Writable key) (numstbl : Table Nat)
    (numbered : ∀ i < key.headersbynumtbl.length, field numstbl (letterkey (i + 1)) = some (i + 1))
    {ws lines : List Str} (written : List.Forall₂ (Line key) ws lines) (stored : ∀ w ∈ ws, Stored key.keytbl w)
    (distinct : ws.Nodup) {loaded loaded' : Key} (wf : WellFormed loaded.keytbl)
    (fresh : ∀ w ∈ ws, ¬ Stored loaded.keytbl w)
    (ran : lines.foldlM (loadWord key.headersbynumtbl numstbl) loaded = .ok loaded') {p : Str} (word : DigitFree p) :
    chain loaded'.keytbl p = chain loaded.keytbl p ++ ws.filter fun w => plain w = .ok p := by
  induction written generalizing loaded with
  | nil =>
      cases ran
      rw [List.filter_nil, List.append_nil]
  | @cons w line ws lines here written ih =>
      obtain ⟨absent, distinct⟩ := List.nodup_cons.mp distinct
      have known := stored w (by simp)
      obtain ⟨q, same, free⟩ := writable.wellFormed.plain_of_stored known
      obtain ⟨filled, letters⟩ := writable.letters w known
      have new : w ∉ chain loaded.keytbl q := fun member => fresh w (by simp) (stored_of_chain member)
      obtain ⟨headers, first, _⟩ := loadWord_run loaded numstbl letters filled same numbered
        (fun positive => (writable.counted w known positive).2) (writable.uncounted w known) new here
      have learned := wf.stored_learnForm same free
      rw [List.foldlM_cons, first, run_bind_ok] at ran
      have later := @ih (fun v member => stored v (by simp [member])) distinct _
        (wf.learnForm same (digitFree_of_letters letters)) (fun v member now => by
          cases (learned v).mp now with
          | inl old => exact fresh v (by simp [member]) old
          | inr equal => exact absent (equal ▸ member)) ran
      rw [later, wf.chain_learnForm same free new word, List.append_assoc, ← List.filter_append, List.singleton_append]

structure Recovered (key loaded : Key) : Prop where
  wellFormed : WellFormed loaded.keytbl
  forms : ∀ w, Stored loaded.keytbl w ↔ Stored key.keytbl w
  counts : ∀ w, Stored key.keytbl w → loaded.freq w = key.freq w
  headers : ∀ w, Stored key.keytbl w → ∀ h, h ∈ loaded.headers w ↔ h ∈ key.headers w
  registered : loaded.headersbynumtbl = key.headersbynumtbl
  order : ∀ p, DigitFree p →
    chain loaded.keytbl p = ((sortedpairs key.keytbl).map Prod.snd).filter fun w => plain w = .ok p

theorem Savable.recovered {key : Key} (savable : Savable key) (hash : HashOrder) :
    ∃ file loaded, savekey hash key = .ok (file, (sortedpairs key.keytbl).length) ∧ loadkey file = .ok loaded ∧
      Recovered key loaded := by
  have writable := savable.writable
  obtain ⟨distinct, members⟩ := sortedpairs_words writable.wellFormed
  have stored : ∀ w ∈ (sortedpairs key.keytbl).map Prod.snd, Stored key.keytbl w := fun w member => (members w).mp member
  obtain ⟨lines, ran, written⟩ := mapM_forall₂ (wordline hash key) (Line key) _ fun w member =>
    wordline_run hash key writable w (stored w member)
  obtain ⟨numstbl, numbered, load⟩ := loadkey_savedFile writable (lines_clean writable written stored)
  have fresh : ∀ w ∈ (sortedpairs key.keytbl).map Prod.snd, ¬ Stored Key.empty.keytbl w := fun w _ => not_stored_empty w
  obtain ⟨loaded, loads, wf, forms, counts, _⟩ := loadWords_run writable numstbl numbered _ lines written stored distinct
    Key.empty wellFormed_empty fresh
  have filled : lines ≠ [] := by
    obtain ⟨w, known⟩ := savable.filled
    have positive := List.length_pos_of_mem ((members w).mpr known)
    exact List.ne_nil_of_length_pos (written.length_eq ▸ positive)
  refine ⟨savedFile key.headersbynumtbl lines, { loaded with headersbynumtbl := key.headersbynumtbl }, ?_, ?_,
    wf, fun w => ?_,
    fun w known => (counts w ((members w).mpr known)).1, fun w known => (counts w ((members w).mpr known)).2, rfl,
    fun p word => ?_⟩
  · simp only [savekey, ran, run_bind_ok, run_pure, savedFile, List.length_map]
  · rw [load, if_neg filled, loads]
    rfl
  · rw [forms, members]
    exact or_iff_right (not_stored_empty w)
  · have order := loadWords_chain writable numstbl numbered written stored distinct wellFormed_empty fresh loads word
    have none : chain Key.empty.keytbl p = [] := by
      apply List.eq_nil_iff_forall_not_mem.mpr
      exact fun w member => not_stored_empty w (stored_of_chain member)
    rw [none, List.nil_append] at order
    exact order

def Short (keytbl : Table Str) : Prop := ∀ p, DigitFree p → (chain keytbl p).length ≤ 10

theorem Recovered.chain_eq {key loaded : Key} (recovered : Recovered key loaded) (wf : WellFormed key.keytbl) {p : Str}
    (word : DigitFree p) : (chain loaded.keytbl p).map some =
      ((slots p (chain key.keytbl p).length).insertionSort (· ≤ ·)).map (field key.keytbl) := by
  rw [recovered.order p word]
  exact written_order wf word

theorem Recovered.chain_length {key loaded : Key} (recovered : Recovered key loaded) (wf : WellFormed key.keytbl)
    {p : Str}
    (word : DigitFree p) : (chain loaded.keytbl p).length = (chain key.keytbl p).length := by
  have lengths := congrArg List.length (recovered.chain_eq wf word)
  simpa [slots] using lengths

theorem Recovered.slots_kept {key loaded : Key} (recovered : Recovered key loaded) (wf : WellFormed key.keytbl) :
    (∀ k, field loaded.keytbl k = field key.keytbl k) ↔ Short key.keytbl := by
  constructor
  · intro same p word
    have rows := recovered.chain_eq wf word
    have length := recovered.chain_length wf word
    rw [chain_fields, length, List.map_congr_left fun k _ => same k] at rows
    -- a form is in one slot, so that the slots themselves are in order
    have equal : slots p (chain key.keytbl p).length = (slots p (chain key.keytbl p).length).insertionSort (· ≤ ·) := by
      apply List.ext_getElem (by simp)
      intro i left right
      have values : field key.keytbl (slots p (chain key.keytbl p).length)[i] =
          field key.keytbl ((slots p (chain key.keytbl p).length).insertionSort (· ≤ ·))[i] := by
        have places := congrArg (fun l => l[i]?) rows
        simpa [left, right] using places
      have bound : i < (chain key.keytbl p).length := by simpa [slots] using left
      have found : field key.keytbl (slots p (chain key.keytbl p).length)[i] = some (chain key.keytbl p)[i] := by
        simp [slots, field_in_chain _ _ _ bound]
      exact wf.distinct _ _ _ found (values ▸ found)
    rw [← slots_sorted p, equal]
    exact List.pairwise_insertionSort _ _
  · intro short k
    by_cases slotted : ∃ p n, DigitFree p ∧ k = slot p n
    · obtain ⟨p, n, word, rfl⟩ := slotted
      have rows := recovered.chain_eq wf word
      rw [((slots_sorted p _).mpr (short p word)).insertionSort_eq, ← chain_fields] at rows
      have same := List.map_injective_iff.mpr (Option.some_injective Str) rows
      rw [recovered.wellFormed.held p n word, wf.held p n word, same]
    · have absent {keytbl : Table Str} (wf : WellFormed keytbl) : field keytbl k = none := by
        rw [field_eq_none]
        exact fun stored => slotted (wf.numbered k stored)
      rw [absent recovered.wellFormed, absent wf]

theorem Recovered.savable {key loaded : Key} (recovered : Recovered key loaded) (savable : Savable key) :
    Savable loaded where
  wellFormed := recovered.wellFormed
  filled := savable.filled.imp fun w known => (recovered.forms w).mpr known
  letters w known := savable.letters w ((recovered.forms w).mp known)
  registered := recovered.registered ▸ savable.registered
  distinct := recovered.registered ▸ savable.distinct
  clean := recovered.registered ▸ savable.clean
  counted w known positive := by
    have old := (recovered.forms w).mp known
    rw [recovered.counts w old] at positive
    obtain ⟨⟨h, member⟩, listed⟩ := savable.counted w old positive
    refine ⟨⟨h, (recovered.headers w old h).mpr member⟩, fun h' member' => ?_⟩
    rw [recovered.registered]
    exact listed h' ((recovered.headers w old h').mp member')
  uncounted w known zero h member := by
    have old := (recovered.forms w).mp known
    rw [recovered.counts w old] at zero
    exact savable.uncounted w old zero h ((recovered.headers w old h).mp member)

theorem mem_headerstbl {key : Key} {w h : Str} (member : h ∈ key.headers w) : w ∈ key.headerstbl := by
  by_contra absent
  rw [Key.headers, (field_eq_none _ _).mpr absent] at member
  exact List.not_mem_nil member

theorem Recovered.same {key loaded : Key} (recovered : Recovered key loaded) (savable : Savable key)
    (short : Short key.keytbl) : SameKey loaded key where
  forms := (recovered.slots_kept savable.wellFormed).mpr short
  counts w known := recovered.counts w ((recovered.forms w).mp known)
  sourced w known positive := by
    have old := (recovered.forms w).mp known
    rw [recovered.counts w old] at positive
    obtain ⟨h, member⟩ := (savable.counted w old positive).1
    exact ⟨iff_of_true (mem_headerstbl ((recovered.headers w old h).mpr member)) (mem_headerstbl member),
      recovered.headers w old⟩
  registered := recovered.registered

theorem Recovered.known {key key' loaded : Key} (recovered : Recovered key loaded) (recovered' : Recovered key' loaded)
    (savable : Savable key) (savable' : Savable key') : SameKey key key' where
  forms k := by
    by_cases slotted : ∃ p n, DigitFree p ∧ k = slot p n
    · obtain ⟨p, n, word, rfl⟩ := slotted
      have length : (chain key.keytbl p).length = (chain key'.keytbl p).length := by
        rw [← recovered.chain_length savable.wellFormed word, recovered'.chain_length savable'.wellFormed word]
      by_cases inside : n < (chain key.keytbl p).length
      · have rows :=
          (recovered.chain_eq savable.wellFormed word).symm.trans (recovered'.chain_eq savable'.wellFormed word)
        rw [← length] at rows
        exact List.map_inj_left.mp rows _ ((List.mem_insertionSort _).mpr (mem_slots.mpr ⟨n, inside, rfl⟩))
      · rw [savable.wellFormed.held p n word, savable'.wellFormed.held p n word, List.getElem?_eq_none (by omega),
          List.getElem?_eq_none (by omega)]
    · have absent {keytbl : Table Str} (wf : WellFormed keytbl) : field keytbl k = none := by
        rw [field_eq_none]
        exact fun stored => slotted (wf.numbered k stored)
      rw [absent savable.wellFormed, absent savable'.wellFormed]
  counts w stored := by
    have stored' := (recovered'.forms w).mp ((recovered.forms w).mpr stored)
    rw [← recovered.counts w stored, recovered'.counts w stored']
  sourced w stored positive := by
    have stored' := (recovered'.forms w).mp ((recovered.forms w).mpr stored)
    have headers (h : Str) : h ∈ key.headers w ↔ h ∈ key'.headers w := by
      rw [← recovered.headers w stored h, recovered'.headers w stored' h]
    obtain ⟨h, member⟩ := (savable.counted w stored positive).1
    exact ⟨iff_of_true (mem_headerstbl member) (mem_headerstbl ((headers h).mp member)), headers⟩
  registered := by rw [← recovered.registered, recovered'.registered]

/-- A key that is saved and loaded has its forms in their slots, and is saved again to the same file, just when no
plain word has more than ten forms. -/
theorem resave_same (hash hash' : HashOrder) (key : Key) (savable : Savable key) :
    ∃ file count loaded, savekey hash key = .ok (file, count) ∧ loadkey file = .ok loaded ∧
      ((∀ k, field loaded.keytbl k = field key.keytbl k) ↔ Short key.keytbl) ∧
      (savekey hash' loaded = .ok (file, count) ↔ Short key.keytbl) := by
  obtain ⟨file, loaded, saved, load, recovered⟩ := savable.recovered hash
  have kept := recovered.slots_kept savable.wellFormed
  refine ⟨file, _, loaded, saved, load, kept, fun again => ?_, fun short => ?_⟩
  · obtain ⟨file', loaded', saved', load', recovered'⟩ := (recovered.savable savable).recovered hash'
    -- the file is the same, and so is what is loaded from it
    have sameFile : file = file' := congrArg Prod.fst (Except.ok.inj (again.symm.trans saved'))
    have sameKey : loaded' = loaded := Except.ok.inj (load'.symm.trans (sameFile ▸ load))
    intro p word
    rw [← recovered.chain_length savable.wellFormed word]
    exact (recovered'.slots_kept recovered.wellFormed).mp (fun k => by rw [sameKey]) p word
  · rw [(recovered.same savable short).savekey hash' hash, saved]

theorem hocKey_short : Short hocKey.keytbl := by
  intro p _
  have slots : hocKey.keytbl.keys.length = 1 := by decide
  have bound := chainFrom_length_le_keys hocKey.keytbl p (hocKey.keytbl.keys.length + 1) 0
  rw [chain]
  omega

theorem resave_same_hoc :
    ∃ file count loaded, savekey .stored hocKey = .ok (file, count) ∧ loadkey file = .ok loaded ∧
      field loaded.keytbl (lit "hoc") = some (lit "hōc") ∧ savekey .stored loaded = .ok (file, count) := by
  obtain ⟨file, count, loaded, saved, load, kept, again⟩ := resave_same .stored .stored hocKey hocKey_savable
  exact ⟨file, count, loaded, saved, load, (kept.mpr hocKey_short _).trans (by decide), again.mpr hocKey_short⟩

/-- Two keys have one file just when they have the same forms in the same slots, met as often in the same sources. -/
theorem savekey_eq_iff (hash hash' : HashOrder) (key key' : Key) (printed : Savable key ∧ Printed key)
    (printed' : Savable key' ∧ Printed key') : savekey hash key = savekey hash' key' ↔ SameKey key key' := by
  have savable := printed.1
  have savable' := printed'.1
  constructor
  · intro same
    obtain ⟨file, loaded, saved, load, recovered⟩ := savable.recovered hash
    obtain ⟨file', loaded', saved', load', recovered'⟩ := savable'.recovered hash'
    rw [saved, saved', Except.ok.injEq, Prod.mk.injEq] at same
    rw [same.1, load', Except.ok.injEq] at load
    subst load
    exact recovered.known recovered' savable savable'
  · exact fun same => same.savekey hash hash'

theorem hocKey_small : ∀ e ∈ hocKey.freqtbl.entries, e.2 < 10 ^ 14 := by decide

def hocKeyIn (headers : Table Unit) : Key :=
  { hocKey with
    headerstbl := AList.insert (lit "hōc") headers ∅
    headersbynumtbl := [lit "Gallia", lit "Tacitus"] }

theorem hocKeyIn_headers (headers : Table Unit) : (hocKeyIn headers).headers (lit "hōc") = headers := by
  rw [Key.headers, hocKeyIn, field_insert, Option.getD_some]

theorem hocKeyIn_savable {headers : Table Unit}
    (members : ∀ h, h ∈ headers ↔ h = lit "Gallia" ∨ h = lit "Tacitus") : Savable (hocKeyIn headers) where
  wellFormed := hocKey_wellFormed
  filled := hocKey_savable.filled
  letters := hocKey_savable.letters
  registered := List.cons_ne_nil _ _
  distinct := show [lit "Gallia", lit "Tacitus"].Nodup by decide
  clean h listed := by
    have either : h = lit "Gallia" ∨ h = lit "Tacitus" := by simpa [hocKeyIn] using listed
    cases either with
    | inl first =>
        subst first
        exact ⟨by decide, by decide, by decide, by decide, by decide, by decide, by decide, by decide⟩
    | inr second =>
        subst second
        exact ⟨by decide, by decide, by decide, by decide, by decide, by decide, by decide, by decide⟩
  counted w stored _ := by
    rw [hocKey_stored w stored, hocKeyIn_headers]
    refine ⟨⟨lit "Gallia", (members _).mpr (.inl rfl)⟩, fun h member => ?_⟩
    simpa [hocKeyIn] using (members h).mp member
  uncounted w stored zero := by
    rw [hocKey_stored w stored] at zero
    exact absurd zero (by decide : hocKey.freq (lit "hōc") ≠ 0)

theorem savekey_eq_iff_hoc :
    savekey .stored (hocKeyIn (AList.insert (lit "Gallia") () (AList.insert (lit "Tacitus") () ∅))) =
      savekey .stored (hocKeyIn (AList.insert (lit "Tacitus") () (AList.insert (lit "Gallia") () ∅))) := by
  have members (h : Str) : h ∈ (AList.insert (lit "Gallia") () (AList.insert (lit "Tacitus") () ∅) : Table Unit) ↔
      h = lit "Gallia" ∨ h = lit "Tacitus" := by
    simp only [AList.mem_insert, AList.notMem_empty, or_false]
  have members' (h : Str) : h ∈ (AList.insert (lit "Tacitus") () (AList.insert (lit "Gallia") () ∅) : Table Unit) ↔
      h = lit "Gallia" ∨ h = lit "Tacitus" := by
    rw [or_comm]
    simp only [AList.mem_insert, AList.notMem_empty, or_false]
  have printed (headers : Table Unit) : Printed (hocKeyIn headers) := printed_of_entries hocKey_small
  apply (savekey_eq_iff .stored .stored _ _ ⟨hocKeyIn_savable members, printed _⟩
    ⟨hocKeyIn_savable members', printed _⟩).mpr
  refine ⟨fun k => rfl, fun w _ => rfl, fun w stored _ => ⟨Iff.rfl, fun h => ?_⟩, rfl⟩
  rw [hocKey_stored w stored, hocKeyIn_headers, hocKeyIn_headers, members, members']

end Maccer
