import Maccer.KeyInvariant
import Maccer.KeyRoundTrip

/-! Adding a form to the key and removing it again. -/

namespace Lua

theorem erase_absent {ν : Type} (t : Table ν) (k : Str) (absent : k ∉ t) : t.erase k = t := by
  apply AList.ext
  exact List.kerase_of_notMem_keys absent

theorem erase_insert {ν : Type} (t : Table ν) (k : Str) (v : ν) (absent : k ∉ t) :
    (t.insert k v).erase k = t := by
  apply AList.ext
  show List.kerase k (t.insert k v).entries = t.entries
  calc
    _ = List.kerase k (⟨k, v⟩ :: List.kerase k t.entries) := by rw [AList.entries_insert]
    _ = List.kerase k t.entries := by simp [List.kerase]
    _ = t.entries := List.kerase_of_notMem_keys absent

end Lua

namespace Maccer

open Lua

theorem keyremoveAt_last (keytbl partbl : Table Str) (w p : Str) (n : Nat) (word : DigitFree p)
    (found : field partbl w = some (slot p n)) (free : slot p n ∉ keytbl)
    (after : slot p (n + 1) ∉ keytbl) :
    keyremoveAt (keytbl.insert (slot p n) w) w p partbl (n + 1) = keytbl := by
  have next : p ++ decimal (n + 1) = slot p (n + 1) := (slot_pos p (n + 1) (by omega)).symm
  have ended : field (keytbl.insert (slot p n) w) (slot p (n + 1)) = none := by
    rw [field_insert_ne _ _ _ _ (slot_ne_of_number p (by omega))]
    exact (field_eq_none _ _).mpr after
  have once : n + 1 - n = 1 := by omega
  simp only [keyremoveAt, found, firstNumber_slot p n word, once, shiftDown, next, ended, assign,
    Nat.add_sub_cancel]
  rw [erase_insert _ _ _ free, erase_absent _ _ free]

theorem keyremove_learnForm {keytbl : Table Str} (wf : WellFormed keytbl) {w p : Str}
    (same : plain w = .ok p) (word : DigitFree w) (absent : w ∉ chain keytbl p) :
    keyremove (learnForm keytbl w p) w = .ok keytbl := by
  have plainWord := plain_digitFree same word
  have added : learnForm keytbl w p = keytbl.insert (slot p (chain keytbl p).length) w := if_neg absent
  have longer : chain (learnForm keytbl w p) p = chain keytbl p ++ [w] := by
    apply ((wf.represents.learnForm same plainWord).chain p plainWord).trans
    have row := wf.represents.chain p plainWord
    rw [row] at absent ⊢
    simp [Dictionary.learn, absent]
  obtain ⟨i, here, found⟩ := field_parallels (learnForm keytbl w p) p w (by simp [longer])
  have last : i = (chain keytbl p).length := by
    have bound := (List.getElem?_eq_some_iff.mp here).1
    apply (List.getElem?_inj bound ((wf.learnForm same word).chain_nodup p)).mp
    rw [here, longer, List.getElem?_concat_length]
  have free (n : Nat) (outside : (chain keytbl p).length ≤ n) : slot p n ∉ keytbl := by
    apply (field_eq_none _ _).mp
    rw [wf.held p n plainWord]
    exact List.getElem?_eq_none outside
  rw [keyremove_eq _ same (by simp [longer]), longer, List.length_append, List.length_singleton]
  rw [last] at found
  rw [added] at found ⊢
  apply congrArg Except.ok
  exact keyremoveAt_last keytbl _ w p _ plainWord found (free _ le_rfl) (free _ (by omega))

/-- Adding and removing are inverse, and a form that was there already is removed
from its row, the other rows staying as they are. -/
theorem addword_keyremove (keytbl : Table Str) (wf : WellFormed keytbl) (w p : Str)
    (same : plain w = .ok p) (word : DigitFree w) :
    (¬ Stored keytbl w →
      ∃ added, addword keytbl w = .ok (added, true) ∧ keyremove added w = .ok keytbl) ∧
    (Stored keytbl w → addword keytbl w = .ok (keytbl, false) ∧
      ∃ left, keyremove keytbl w = .ok left ∧ WellFormed left ∧
        (∀ v, Stored left v ↔ Stored keytbl v ∧ v ≠ w) ∧
        chain left p = (chain keytbl p).erase w ∧
        ∀ q, DigitFree q → q ≠ p → chain left q = chain keytbl q) := by
  have plainWord := plain_digitFree same word
  constructor
  · intro absent
    have missing := mt (fun member => ((wf.mem_chain plainWord w).mp member).1) absent
    exact ⟨learnForm keytbl w p, by simp [addword_eq keytbl same, missing],
      keyremove_learnForm wf same word missing⟩
  · intro stored
    have member := (wf.mem_chain plainWord w).mpr ⟨stored, same⟩
    have removed := keyremoveAt_refines wf.represents (w := w) plainWord
    have row (q : Str) (word : DigitFree q) := removed.chain q word
    refine ⟨by simp [addword_eq keytbl same, learnForm, member], _,
      keyremove_eq keytbl same (List.ne_nil_of_mem member), removed.wellFormed, fun v => ?_, ?_, ?_⟩
    · rw [removed.stored_iff, wf.represents.stored_iff]
      simp only [Dictionary.mem_forget]
      constructor
      · rintro ⟨q, held, apart⟩
        refine ⟨⟨q, held⟩, ?_⟩
        rintro rfl
        exact apart (Except.ok.inj ((wf.dictionary.demacronises q v held).symm.trans same)) rfl
      · rintro ⟨⟨q, held⟩, apart⟩
        exact ⟨q, held, fun _ => apart⟩
    · rw [row p plainWord, wf.represents.chain p plainWord]
      exact Function.update_self _ _ _
    · intro q other apart
      rw [row q other, wf.represents.chain q other]
      exact Function.update_of_ne apart _ _

theorem addword_keyremove_tectum : (∃ added,
    addword tectumSession.key.keytbl (lit "tēctum") = .ok (added, true) ∧
      keyremove added (lit "tēctum") = .ok tectumSession.key.keytbl) ∧
    ∃ left, keyremove tectumSession.key.keytbl (lit "tectum") = .ok left ∧ WellFormed left :=
  ⟨(addword_keyremove tectumSession.key.keytbl tectumSession_wellFormed (lit "tēctum") (lit "tectum")
      (by decide) (by decide)).1 (by decide),
    have ⟨_, left, removed, wf, _⟩ := (addword_keyremove tectumSession.key.keytbl
      tectumSession_wellFormed (lit "tectum") (lit "tectum") (by decide) (by decide)).2
        ⟨lit "tectum", by decide⟩
    ⟨left, removed, wf⟩⟩

end Maccer
