import Maccer.Fixkey

/-! The merge of chains of replacements. -/

namespace Maccer

open Lua

def Acyclic (repltbl : Table Str) : Prop :=
  ∀ w, ¬ Relation.TransGen (fun a b => field repltbl a = some b) w w

theorem Acyclic.ne {repltbl : Table Str} (acyclic : Acyclic repltbl) {a b : Str}
    (here : field repltbl a = some b) : a ≠ b := by
  rintro rfl
  exact acyclic a (.single here)

theorem Acyclic.ne_two {repltbl : Table Str} (acyclic : Acyclic repltbl) {a b c : Str}
    (here : field repltbl a = some b) (next : field repltbl b = some c) : a ≠ c := by
  rintro rfl
  exact acyclic a (.tail (.single here) next)

/-- All that an entry of the merge can do: nothing, or it takes over the replacement of
its replacement, whose own entry is deleted. -/
theorem mergeEntry_cases (repltbl : Table Str) (o : Str) :
    (mergeEntry repltbl o = repltbl ∧ ∀ r, field repltbl o = some r → field repltbl r = none) ∨
      ∃ r last, field repltbl o = some r ∧ field repltbl r = some last ∧
        ∀ k, field (mergeEntry repltbl o) k =
          if k = r then none else if k = o then some last else field repltbl k := by
  cases here : field repltbl o with
  | none => exact .inl ⟨by simp [mergeEntry, here], by simp⟩
  | some r =>
      cases next : field repltbl r with
      | none => exact .inl ⟨by simp [mergeEntry, here, next], by simpa using next⟩
      | some last =>
          have changed : mergeEntry repltbl o = assign (repltbl.insert o last) r none := by
            simp [mergeEntry, here, next]
          refine .inr ⟨r, last, rfl, next, fun k => ?_⟩
          rw [changed]
          by_cases deleted : k = r
          · rw [if_pos deleted, deleted, field_assign]
          · rw [if_neg deleted, field_assign_ne _ _ _ _ deleted]
            by_cases own : k = o
            · rw [if_pos own, own, field_insert]
            · rw [if_neg own, field_insert_ne _ _ _ _ own]

theorem mergeEntry_value {repltbl : Table Str} {o k v : Str}
    (found : field (mergeEntry repltbl o) k = some v) : ∃ k', field repltbl k' = some v := by
  rcases mergeEntry_cases repltbl o with ⟨same, _⟩ | ⟨r, last, _, next, fields⟩
  · exact ⟨k, same ▸ found⟩
  · rw [fields] at found
    split at found
    · cases found
    · split at found
      · exact ⟨r, by rw [next, found]⟩
      · exact ⟨k, found⟩

theorem mergeEntry_free {repltbl : Table Str} (o : Str) {k : Str} (free : field repltbl k = none) :
    field (mergeEntry repltbl o) k = none := by
  rcases mergeEntry_cases repltbl o with ⟨same, _⟩ | ⟨r, last, here, _, fields⟩
  · rw [same, free]
  · rw [fields]
    split
    · rfl
    · split
      case isTrue own => rw [own, here] at free; cases free
      case isFalse => exact free

/-! What the whole merge keeps. -/

theorem mergeChains_value {repltbl : Table Str} {order : List Str} {k v : Str}
    (found : field (mergeChains repltbl order) k = some v) : ∃ k', field repltbl k' = some v := by
  induction order generalizing repltbl k with
  | nil => exact ⟨k, found⟩
  | cons o order ih =>
      obtain ⟨k', found'⟩ := @ih (mergeEntry repltbl o) k found
      exact mergeEntry_value found'

theorem mergeChains_free {repltbl : Table Str} (order : List Str) {k : Str}
    (free : field repltbl k = none) : field (mergeChains repltbl order) k = none := by
  induction order generalizing repltbl with
  | nil => exact free
  | cons o order ih => exact ih (mergeEntry_free o free)

structure Settled (repltbl : Table Str) (a z : Str) : Prop where
  here : field repltbl a = some z
  last : field repltbl z = none
  first : ∀ k, field repltbl k ≠ some a

theorem Settled.mergeEntry {repltbl : Table Str} {a z : Str} (settled : Settled repltbl a z) (o : Str) :
    Settled (mergeEntry repltbl o) a z := by
  refine ⟨?_, mergeEntry_free o settled.last, fun k found => ?_⟩
  · rcases mergeEntry_cases repltbl o with ⟨same, _⟩ | ⟨r, last, here, next, fields⟩
    · rw [same, settled.here]
    · have kept : a ≠ r := fun same => settled.first o (same ▸ here)
      rw [fields, if_neg kept]
      split
      case isTrue own =>
          subst own
          rw [settled.here] at here
          cases here
          rw [settled.last] at next
          cases next
      case isFalse => exact settled.here
  · obtain ⟨k', found'⟩ := mergeEntry_value found
    exact settled.first k' found'

theorem Settled.mergeChains {repltbl : Table Str} {a z : Str} (settled : Settled repltbl a z)
    (order : List Str) : Settled (mergeChains repltbl order) a z := by
  induction order generalizing repltbl with
  | nil => exact settled
  | cons o order ih => exact ih (settled.mergeEntry o)

structure Pending (repltbl : Table Str) (a b z : Str) : Prop where
  here : field repltbl a = some b
  next : field repltbl b = some z
  last : field repltbl z = none
  first : ∀ k, field repltbl k ≠ some a
  only : ∀ k, field repltbl k = some b → k = a

theorem Pending.other {repltbl : Table Str} {a b z : Str} (pending : Pending repltbl a b z) (o : Str)
    (apart : o ≠ a) : Pending (mergeEntry repltbl o) a b z := by
  rcases mergeEntry_cases repltbl o with ⟨same, _⟩ | ⟨r, last, here, next, fields⟩
  · rwa [same]
  · have keepFirst : a ≠ r := fun same => pending.first o (same ▸ here)
    have keepNext : b ≠ r := fun same => apart (pending.only o (same ▸ here))
    have ownNext : b ≠ o := by
      rintro rfl
      rw [pending.next] at here
      cases here
      rw [pending.last] at next
      cases next
    refine ⟨?_, ?_, mergeEntry_free o pending.last, fun k found => ?_, fun k found => ?_⟩
    · rw [fields, if_neg keepFirst, if_neg (Ne.symm apart), pending.here]
    · rw [fields, if_neg keepNext, if_neg ownNext, pending.next]
    · obtain ⟨k', found'⟩ := mergeEntry_value found
      exact pending.first k' found'
    · rw [fields] at found
      split at found
      · cases found
      · split at found
        · cases found
          exact absurd ((pending.only r next).symm) keepFirst
        · exact pending.only k found

theorem Pending.settled {repltbl : Table Str} {a b z : Str} (pending : Pending repltbl a b z) :
    Settled (mergeEntry repltbl a) a z := by
  rcases mergeEntry_cases repltbl a with ⟨_, none⟩ | ⟨r, last, here, next, fields⟩
  · have free := none b pending.here
    rw [pending.next] at free
    cases free
  · rw [pending.here] at here
    cases here
    rw [pending.next] at next
    cases next
    have apart : a ≠ b := fun same => pending.first a (by rw [pending.here, same])
    refine ⟨by rw [fields, if_neg apart, if_pos rfl], mergeEntry_free a pending.last, fun k found => ?_⟩
    obtain ⟨k', found'⟩ := mergeEntry_value found
    exact pending.first k' found'

theorem Pending.mergeChains {repltbl : Table Str} {a b z : Str} (pending : Pending repltbl a b z)
    (order : List Str) (visited : a ∈ order) : Settled (mergeChains repltbl order) a z := by
  induction order generalizing repltbl with
  | nil => cases visited
  | cons o order ih =>
      by_cases here : o = a
      · subst here
        exact pending.settled.mergeChains order
      · exact ih (pending.other o here) ((List.mem_cons.mp visited).resolve_left (Ne.symm here))

/-- What is needed of the stored left sides: no word is replaced by one, and a chain
goes on after one for at most one more step, through a word that only it comes to. -/
def Resolvable (repltbl keytbl : Table Str) : Prop :=
  ∀ a b, Stored keytbl a → field repltbl a = some b → (∀ k, field repltbl k ≠ some a) ∧
    ∀ c, field repltbl b = some c → field repltbl c = none ∧ ∀ k, field repltbl k = some b → k = a

def lastWord (repltbl : Table Str) (a : Str) : Option Str :=
  (field repltbl a).map fun b => (field repltbl b).getD b

theorem mergeChains_resolvable {repltbl keytbl : Table Str} (resolvable : Resolvable repltbl keytbl)
    (order : List Str) (all : ∀ k ∈ repltbl, k ∈ order) (a : Str) (stored : Stored keytbl a) :
    field (mergeChains repltbl order) a = lastWord repltbl a ∧
      ∀ z, lastWord repltbl a = some z → field repltbl z = none ∧
        Relation.ReflTransGen (fun a b => field repltbl a = some b) a z := by
  cases here : field repltbl a with
  | none =>
      simp only [lastWord, here, mergeChains_free order here]
      exact ⟨rfl, by simp⟩
  | some b =>
      obtain ⟨first, chained⟩ := resolvable a b stored here
      cases next : field repltbl b with
      | none =>
          have settled : Settled (mergeChains repltbl order) a b :=
            Settled.mergeChains ⟨here, next, first⟩ order
          refine ⟨by simp [lastWord, here, next, settled.here], fun z last => ?_⟩
          have same : b = z := by simpa [lastWord, here, next] using last
          exact same ▸ ⟨next, .single here⟩
      | some c =>
          obtain ⟨last, only⟩ := chained c next
          have settled := Pending.mergeChains ⟨here, next, last, first, only⟩ order
            (all a (mem_of_field here))
          refine ⟨by simp [lastWord, here, next, settled.here], fun z ends => ?_⟩
          have same : c = z := by simpa [lastWord, here, next] using ends
          exact same ▸ ⟨last, .tail (.single here) next⟩

end Maccer
