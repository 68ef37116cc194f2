import Mathlib.Data.List.SplitBy
import Maccer.Lua.Matching

/-! A string as pieces, in turn inside and outside of a class of bytes, and the runs of the class that are found from a
place on. -/

namespace Lua

variable {inside : UInt8 → Bool}

/-! Runs in a string that is part of another. -/

theorem runFrom_front (front s : Str) (i : Nat) :
    runFrom inside (front ++ s) (front.length + i) =
      (runFrom inside s i).map fun run => (front.length + run.1, front.length + run.2) := by
  have cut (j : Nat) : (front ++ s).drop (front.length + j) = s.drop j := by
    rw [← List.drop_drop, List.drop_left]
  simp only [runFrom, Nat.add_assoc, cut]
  split <;> rfl

theorem runFrom_drop (s : Str) (i : Nat) :
    runFrom inside s i =
      if ((s.drop i).dropWhile fun b => !inside b).takeWhile inside = [] then none
      else some (i + ((s.drop i).takeWhile fun b => !inside b).length,
        i + ((s.drop i).takeWhile fun b => !inside b).length +
          (((s.drop i).dropWhile fun b => !inside b).takeWhile inside).length) := by
  have rest :
      (s.drop i).drop ((s.drop i).takeWhile fun b => !inside b).length = (s.drop i).dropWhile fun b => !inside b := by
    have whole := List.takeWhile_append_dropWhile (p := fun b => !inside b) (l := s.drop i)
    calc
      (s.drop i).drop ((s.drop i).takeWhile fun b => !inside b).length
        = (((s.drop i).takeWhile fun b => !inside b) ++ (s.drop i).dropWhile fun b => !inside b).drop
            ((s.drop i).takeWhile fun b => !inside b).length := by rw [whole]
      _ = (s.drop i).dropWhile fun b => !inside b := List.drop_left
  simp only [runFrom, ← List.drop_drop, rest, List.length_eq_zero_iff]

theorem runFrom_none_iff (s : Str) (i : Nat) : runFrom inside s i = none ↔ ∀ b ∈ s.drop i, inside b = false := by
  rw [runFrom_drop]
  constructor
  · intro missing
    have none' : ((s.drop i).dropWhile fun b => !inside b).takeWhile inside = [] := by
      by_contra some
      rw [if_neg some] at missing
      cases missing
    cases left : (s.drop i).dropWhile fun b => !inside b with
    | nil => simpa using List.dropWhile_eq_nil_iff.mp left
    | cons b later =>
        have first := List.head?_dropWhile_not (fun b => !inside b) (s.drop i)
        rw [left] at first none'
        simp only [List.head?_cons, Bool.not_eq_false'] at first
        rw [List.takeWhile_cons_of_pos (by simpa using first)] at none'
        cases none'
  · intro outside
    rw [List.dropWhile_eq_nil_iff.mpr (by simpa using outside)]
    rfl

theorem runFrom_inner {s : Str} {i start stop : Nat} (found : runFrom inside s i = some (start, stop)) {rest : Str}
    (ended : ∀ b ∈ rest.head?, inside b = false) : runFrom inside (s ++ rest) i = some (start, stop) := by
  have before : i ≤ s.length := by
    by_contra beyond
    rw [runFrom_beyond inside s i (by omega)] at found
    cases found
  have stopped : rest.takeWhile inside = [] := by
    cases rest with
    | nil => rfl
    | cons b rest => rw [List.takeWhile_cons_of_neg (by simp [ended b rfl])]
  rw [runFrom_drop] at found ⊢
  rw [List.drop_append_of_le_length before]
  generalize s.drop i = d at found ⊢
  have here : (d.dropWhile fun b => !inside b) ≠ [] := by
    intro empty
    rw [empty] at found
    cases found
  have gap : ((d ++ rest).takeWhile fun b => !inside b) = d.takeWhile fun b => !inside b := by
    rw [List.takeWhile_append, if_neg]
    intro whole
    apply here
    have all := List.takeWhile_append_dropWhile (p := fun b => !inside b) (l := d)
    have lengths := congrArg List.length all
    rw [List.length_append] at lengths
    exact List.length_eq_zero_iff.mp (by omega)
  have after : ((d ++ rest).dropWhile fun b => !inside b) = (d.dropWhile fun b => !inside b) ++ rest := by
    rw [List.dropWhile_append, if_neg (by simpa using here)]
  have run :
      ((d.dropWhile fun b => !inside b) ++ rest).takeWhile inside = (d.dropWhile fun b => !inside b).takeWhile inside := by
    rw [List.takeWhile_append, stopped, List.append_nil]
    split
    · rename_i whole
      have all := List.takeWhile_append_dropWhile (p := inside) (l := d.dropWhile fun b => !inside b)
      have lengths := congrArg List.length all
      rw [List.length_append] at lengths
      rw [List.length_eq_zero_iff.mp (show ((d.dropWhile fun b => !inside b).dropWhile inside).length = 0 by omega),
        List.append_nil] at all
      exact all.symm
    · rfl
  rw [gap, after, run]
  exact found

theorem runFrom_past {s : Str} {i : Nat} (missing : runFrom inside s i = none) (rest : Str) {j : Nat} (before : i ≤ j)
    (within : j ≤ s.length) : runFrom inside (s ++ rest) i = runFrom inside (s ++ rest) j := by
  rw [runFrom_none_iff] at missing
  induction j, before using Nat.le_induction with
  | base => rfl
  | succ j before ih =>
      rw [ih (by omega), runFrom_later]
      have inner : j < s.length := by omega
      have member : s[j] ∈ s.drop i := by
        rw [List.mem_drop_iff_getElem]
        exact ⟨j - i, by omega, by simp [Nat.add_sub_cancel' before]⟩
      simp [List.getElem?_append_left inner, List.getElem?_eq_getElem inner, missing _ member]

/-! Pieces. -/

def pieces (inside : UInt8 → Bool) (s : Str) : List Str := s.splitBy fun a b => inside a == inside b

theorem pieces_flatten (s : Str) : (pieces inside s).flatten = s := List.flatten_splitBy _ s

inductive Pieced (inside : UInt8 → Bool) : List Str → Prop
  | nil : Pieced inside []
  | gap (piece : Str) (later : List Str) (outside : ∀ b ∈ piece, inside b = false) (pieced : Pieced inside later) :
      Pieced inside (piece :: later)
  | run (piece : Str) (later : List Str) (filled : piece ≠ []) (within : ∀ b ∈ piece, inside b = true)
      (ended : ∀ b ∈ later.flatten.head?, inside b = false) (pieced : Pieced inside later) :
      Pieced inside (piece :: later)

theorem chain_same {piece : Str} (uniform : piece.IsChain fun a b => (inside a == inside b) = true) :
    ∀ b ∈ piece, ∀ c ∈ piece, inside b = inside c := by
  induction piece with
  | nil => simp
  | cons a piece ih =>
      have later := ih uniform.tail
      have first : ∀ b ∈ piece, inside a = inside b := by
        cases piece with
        | nil => simp
        | cons c piece =>
            intro b member
            have next : inside a = inside c := by simpa using (List.isChain_cons_cons.mp uniform).1
            exact next.trans (later c List.mem_cons_self b member)
      intro b member c member'
      rcases List.mem_cons.mp member with rfl | old
      · rcases List.mem_cons.mp member' with rfl | old'
        · rfl
        · exact first c old'
      · rcases List.mem_cons.mp member' with rfl | old'
        · exact (first b old).symm
        · exact later b old c old'

theorem pieced_of_chain (ps : List Str) (filled : ∀ piece ∈ ps, piece ≠ [])
    (uniform : ∀ piece ∈ ps, piece.IsChain fun a b => (inside a == inside b) = true)
    (turns : ps.IsChain fun a b => ∃ ha hb, (inside (a.getLast ha) == inside (b.head hb)) = false) :
    Pieced inside ps := by
  induction ps with
  | nil => exact .nil
  | cons piece later ih =>
      have pieced := ih (fun piece member => filled piece (by simp [member]))
        (fun piece member => uniform piece (by simp [member])) turns.tail
      have whole := filled piece List.mem_cons_self
      have same := chain_same (uniform piece List.mem_cons_self)
      have last := List.getLast_mem whole
      cases here : inside (piece.getLast whole) with
      | false => exact .gap piece later (fun b member => (same b member _ last).trans here) pieced
      | true =>
          refine .run piece later whole (fun b member => (same b member _ last).trans here) ?_ pieced
          cases later with
          | nil => simp
          | cons next later =>
              obtain ⟨_, more, other⟩ := (List.isChain_cons_cons.mp turns).1
              obtain ⟨b, next, rfl⟩ := List.exists_cons_of_ne_nil more
              intro c first
              obtain rfl := Option.some.inj (show some b = some c from first)
              rw [here, List.head_cons] at other
              simpa using other

theorem pieces_pieced (s : Str) : Pieced inside (pieces inside s) :=
  pieced_of_chain _ (fun _ member => List.ne_nil_of_mem_splitBy member)
    (fun _ member => List.isChain_of_mem_splitBy member)
    (List.isChain_getLast_head_splitBy (fun a b => inside a == inside b) s)

section

variable {f : Str → Str} {cut : List Str}

theorem Pieced.map_head (pieced : Pieced inside cut)
    (gaps : ∀ piece ∈ cut, (∀ b ∈ piece, inside b = false) → f piece = piece)
    (ended : ∀ b ∈ cut.flatten.head?, inside b = false) : ∀ b ∈ (cut.map f).flatten.head?, inside b = false := by
  induction pieced with
  | nil => simp
  | gap piece later outside pieced ih =>
      rw [List.map_cons, gaps piece List.mem_cons_self outside]
      cases piece with
      | nil => exact ih (fun piece member => gaps piece (List.mem_cons_of_mem _ member)) ended
      | cons b piece => exact ended
  | run piece later filled within _ pieced _ =>
      obtain ⟨b, piece, rfl⟩ := List.exists_cons_of_ne_nil filled
      have first := within b (by simp)
      rw [ended b (by simp)] at first
      cases first

theorem Pieced.map (pieced : Pieced inside cut) (gaps : ∀ piece ∈ cut, (∀ b ∈ piece, inside b = false) → f piece = piece)
    (runs : ∀ piece ∈ cut, piece ≠ [] → (∀ b ∈ piece, inside b = true) →
      f piece ≠ [] ∧ ∀ b ∈ f piece, inside b = true) : Pieced inside (cut.map f) := by
  induction pieced with
  | nil => exact .nil
  | gap piece later outside pieced ih =>
      have still := ih (fun piece member => gaps piece (List.mem_cons_of_mem _ member))
        fun piece member => runs piece (List.mem_cons_of_mem _ member)
      rw [List.map_cons, gaps piece List.mem_cons_self outside]
      exact .gap piece _ outside still
  | run piece later filled within ended pieced ih =>
      have still := ih (fun piece member => gaps piece (List.mem_cons_of_mem _ member))
        fun piece member => runs piece (List.mem_cons_of_mem _ member)
      obtain ⟨filled', within'⟩ := runs piece List.mem_cons_self filled within
      exact .run _ _ filled' within'
        (pieced.map_head (fun piece member => gaps piece (List.mem_cons_of_mem _ member)) ended) still

end

end Lua
