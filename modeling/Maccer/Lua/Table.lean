import Mathlib.Data.List.AList
import Mathlib.Data.List.Sort
import Maccer.Lua.Str

/-! Tables keyed by strings. -/

namespace Lua

abbrev Table (ν : Type) := AList fun _ : Str => ν

variable {ν : Type}

def field (t : Table ν) (k : Str) : Option ν := t.lookup k

def assign (t : Table ν) (k : Str) : Option ν → Table ν
  | some v => t.insert k v
  | none => t.erase k

@[simp] theorem field_insert (t : Table ν) (k : Str) (v : ν) : field (t.insert k v) k = some v :=
  AList.lookup_insert t

theorem field_insert_ne (t : Table ν) (k other : Str) (v : ν) (apart : other ≠ k) :
    field (t.insert k v) other = field t other :=
  AList.lookup_insert_ne apart

@[simp] theorem field_assign (t : Table ν) (k : Str) (v : Option ν) :
    field (assign t k v) k = v := by
  cases v with
  | none => exact AList.lookup_erase k t
  | some v => exact AList.lookup_insert t

theorem field_assign_ne (t : Table ν) (k other : Str) (v : Option ν) (apart : other ≠ k) :
    field (assign t k v) other = field t other := by
  cases v with
  | none => exact AList.lookup_erase_ne apart
  | some v => exact AList.lookup_insert_ne apart

theorem exists_field {t : Table ν} {k : Str} (stored : k ∈ t) : ∃ v, field t k = some v :=
  Option.isSome_iff_exists.mp (AList.lookup_isSome.mpr stored)

theorem mem_of_field {t : Table ν} {k : Str} {v : ν} (found : field t k = some v) : k ∈ t :=
  AList.lookup_isSome.mp (by rw [show AList.lookup k t = some v from found]; rfl)

structure HashOrder where
  order : List Str → List Str
  perm : ∀ ks, (order ks).Perm ks

def HashOrder.stored : HashOrder := ⟨id, fun _ => .refl _⟩

instance : Inhabited HashOrder := ⟨.stored⟩

theorem exists_order {ks ls : List Str} (perm : ls.Perm ks) : ∃ hash : HashOrder, hash.order ks = ls := by
  refine ⟨⟨fun others => if others = ks then ls else others, fun others => ?_⟩, if_pos rfl⟩
  split
  case isTrue same => rwa [same]
  case isFalse => exact .refl _

def pairs (hash : HashOrder) (t : Table ν) : List (Str × ν) :=
  (hash.order t.keys).filterMap fun k => (field t k).map fun v => (k, v)

theorem mem_pairs (hash : HashOrder) (t : Table ν) (k : Str) (v : ν) :
    (k, v) ∈ pairs hash t ↔ field t k = some v := by
  simp only [pairs, List.mem_filterMap, Option.map_eq_some_iff, Prod.mk.injEq]
  constructor
  · rintro ⟨a, _, b, found, rfl, rfl⟩
    exact found
  · intro found
    have stored : k ∈ t.keys := AList.mem_keys.mp (mem_of_field found)
    exact ⟨k, (hash.perm t.keys).mem_iff.mpr stored, v, found, rfl, rfl⟩

theorem pairs_fst (hash : HashOrder) (t : Table ν) : (pairs hash t).map Prod.fst = hash.order t.keys := by
  have each : ∀ ks : List Str, (∀ k ∈ ks, k ∈ t) →
      (ks.filterMap fun k => (field t k).map fun v => (k, v)).map Prod.fst = ks := by
    intro ks stored
    induction ks with
    | nil => rfl
    | cons k ks ih =>
        obtain ⟨v, found⟩ := exists_field (stored k (by simp))
        simp [found, ih fun k' member => stored k' (by simp [member])]
  exact each _ fun k member => AList.mem_keys.mpr ((hash.perm _).mem_iff.mp member)

theorem pairs_keys (hash : HashOrder) (t : Table ν) (k : Str) : k ∈ (pairs hash t).map Prod.fst ↔ k ∈ t := by
  rw [pairs_fst, (hash.perm _).mem_iff, AList.mem_keys]

theorem pairs_nodup (hash : HashOrder) (t : Table ν) : ((pairs hash t).map Prod.fst).Nodup := by
  rw [pairs_fst]
  exact (hash.perm _).nodup_iff.mpr t.keys_nodup

def sortedpairs (t : Table ν) : List (Str × ν) :=
  pairs ⟨List.insertionSort (· ≤ ·), fun ks => List.perm_insertionSort _ ks⟩ t

end Lua
