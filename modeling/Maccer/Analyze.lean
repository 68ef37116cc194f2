import Mathlib.Data.Finset.Basic
import Mathlib.Data.List.Nodup
import Mathlib.Data.List.ReduceOption
import Maccer.Lua.Table

/-! `add`, `tomulti` and `delete`: where a word that `analyze` has found is recorded. -/

namespace Maccer

open Lua

inductive Section where
  | ABV | ENC | PRF | HID | ORTH
  deriving DecidableEq, Repr

inductive Place where
  | single (sect : Section)
  | MULTI
  deriving DecidableEq, Repr

/-- The arrays of the sections, the words with several issues, each with its sections, and the
place of each word. -/
structure Analysis where
  arrays : Section → List Str
  multi : Table (Finset Section)
  wsections : Table Place

def Analysis.start : Analysis := ⟨fun _ => [], ∅, ∅⟩

def border (slots : List (Option Str)) : Nat := (slots.takeWhile Option.isSome).length

/-- The body of the loop in `delete` at the word: it is emptied, those after it move down, and
the last one is emptied, whose place is read off the array as it is by then. -/
def removeAt (array : List Str) (i : Nat) : List Str :=
  let sectlen := array.length
  let slots := (array.map some).set i none
  let slots := (List.range' i (sectlen - 1 - i)).foldl
    (fun slots j => slots.set j (slots.getD (j + 1) none)) slots
  (slots.set (border slots - 1) none).reduceOption

/-- The loop in `delete`, whose bound is read once. -/
def deleteFrom (w : Str) : Nat → Nat → List Str → List Str
  | 0, _, array => array
  | count + 1, i, array =>
      deleteFrom w count (i + 1) (if array[i]? = some w then removeAt array i else array)

namespace Analysis

/-- `delete`, where the word is in a section. -/
def delete (a : Analysis) (oldsection : Section) (w : Str) : Analysis :=
  { a with
    arrays := Function.update a.arrays oldsection
      (deleteFrom w (a.arrays oldsection).length 0 (a.arrays oldsection))
    wsections := assign a.wsections w none }

def tomulti (a : Analysis) (w : Str) : Bool × Analysis :=
  match field a.wsections w with
  | some (.single oldsection) =>
      let a := a.delete oldsection w
      (true, { a with multi := a.multi.insert w {oldsection}, wsections := a.wsections.insert w .MULTI })
  | some .MULTI => (true, a)
  | none => (false, a)

def replToMulti (a : Analysis) : Option Str → Bool × Analysis
  | some repl => a.tomulti repl
  | none => (false, a)

def add (a : Analysis) (sect : Section) (w : Str) (repl : Option Str) : Analysis :=
  let (inmulti, a) := a.tomulti w
  let (replinmulti, a) := a.replToMulti repl
  if inmulti || replinmulti then
    { a with multi := a.multi.insert w (insert sect ((field a.multi w).getD ∅)) }
  else
    { a with
      arrays := Function.update a.arrays sect (a.arrays sect ++ [w])
      wsections := a.wsections.insert w (.single sect) }

end Analysis

/-- A call of `add`. -/
structure Call where
  sect : Section
  w : Str
  repl : Option Str
  deriving DecidableEq, Repr

def runCalls (calls : List Call) : Analysis :=
  calls.foldl (fun a call => a.add call.sect call.w call.repl) Analysis.start

/-! What `delete` does to an array. -/

theorem shift_loop (before : List (Option Str)) (first : Option Str) (after : List Str) :
    (List.range' before.length after.length).foldl
        (fun slots j => slots.set j (slots.getD (j + 1) none)) (before ++ first :: after.map some) =
      before ++ after.map some ++ (first :: after.map some).getLast?.toList := by
  induction after generalizing before first with
  | nil => simp
  | cons x after ih =>
      rw [List.length_cons, List.range'_succ, List.foldl_cons]
      have step : (before ++ first :: (x :: after).map some).set before.length
          ((before ++ first :: (x :: after).map some).getD (before.length + 1) none) =
          (before ++ [some x]) ++ some x :: after.map some := by
        simp [List.getD]
      rw [step, show before.length + 1 = (before ++ [some x]).length by simp, ih]
      simp [List.getLast?_cons_cons]

theorem border_full (array : List Str) (rest : List (Option Str)) (ends : ∀ slot ∈ rest.head?, slot = none) :
    border (array.map some ++ rest) = array.length := by
  induction array with
  | nil =>
      cases rest with
      | nil => rfl
      | cons slot rest => simp [border, ends slot rfl]
  | cons x array ih => simpa [border] using ih

theorem reduceOption_map_some (array : List Str) : (array.map some).reduceOption = array := by
  induction array with
  | nil => rfl
  | cons x array ih => rw [List.map_cons, List.reduceOption_cons_of_some, ih]

theorem set_border (array : List Str) (rest : List (Option Str)) (empty : ∀ slot ∈ rest, slot = none) :
    ((array.map some ++ rest).set (border (array.map some ++ rest) - 1) none).reduceOption = array.dropLast := by
  have gone : rest.reduceOption = [] := by
    rw [List.reduceOption, List.filterMap_eq_nil_iff]
    exact empty
  rw [border_full array rest fun slot member => empty slot (List.mem_of_mem_head? member)]
  cases array using List.reverseRecOn with
  | nil =>
      cases rest with
      | nil => rfl
      | cons slot rest =>
          rw [empty slot List.mem_cons_self] at gone ⊢
          exact gone
  | append_singleton array x =>
      rw [List.map_append, List.map_singleton, List.length_append, List.length_singleton, Nat.add_sub_cancel,
        List.append_assoc, List.set_append_right _ _ (by simp), List.length_map, Nat.sub_self,
        List.singleton_append, List.set_cons_zero, List.reduceOption_append, reduceOption_map_some,
        List.reduceOption_cons_of_none, gone, List.append_nil, List.dropLast_concat]

theorem removeAt_eq (before : List Str) (w : Str) (after : List Str) :
    removeAt (before ++ w :: after) before.length = if after = [] then before.dropLast else before ++ after := by
  have emptied : ((before ++ w :: after).map some).set before.length none =
      before.map some ++ none :: after.map some := by simp
  have shifted := shift_loop (before.map some) none after
  rw [List.length_map] at shifted
  rw [removeAt, emptied, show (before ++ w :: after).length - 1 - before.length = after.length by simp, shifted]
  cases List.eq_nil_or_concat' after with
  | inl last =>
      subst last
      simpa using set_border before [none] (by simp)
  | inr more =>
      obtain ⟨after, x, rfl⟩ := more
      have full : before.map some ++ (after ++ [x]).map some ++
          (none :: (after ++ [x]).map some).getLast?.toList = (before ++ (after ++ [x]) ++ [x]).map some ++ [] := by
        simp [List.getLast?_cons]
      rw [full, set_border _ [] (by simp), List.dropLast_concat, if_neg (by simp)]

theorem deleteFrom_absent (w : Str) (count i : Nat) {array : List Str} (absent : w ∉ array) :
    deleteFrom w count i array = array := by
  induction count generalizing i with
  | zero => rfl
  | succ count ih =>
      rw [deleteFrom, if_neg fun here => absent (List.mem_of_getElem? here)]
      exact ih (i + 1)

theorem deleteFrom_present {before after : List Str} {w : Str} (first : w ∉ before) (last : w ∉ after)
    (skip i count : Nat) (upto : i + skip = before.length) (enough : skip < count) :
    deleteFrom w count i (before ++ w :: after) = if after = [] then before.dropLast else before ++ after := by
  induction count generalizing skip i with
  | zero => exact absurd enough (Nat.not_lt_zero skip)
  | succ count ih =>
      rw [deleteFrom]
      cases skip with
      | zero =>
          obtain rfl : i = before.length := upto
          rw [if_pos (by simp), removeAt_eq]
          apply deleteFrom_absent
          split
          case isTrue => exact fun member => first (List.mem_of_mem_dropLast member)
          case isFalse => exact fun member => (List.mem_append.mp member).elim first last
      | succ skip =>
          have inside : i < before.length := by omega
          rw [if_neg]
          · exact ih skip (i + 1) (by omega) (by omega)
          · rw [List.getElem?_append_left inside]
            exact fun here => first (List.mem_of_getElem? here)

theorem deleteFrom_erase {w : Str} {array : List Str} (nodup : array.Nodup)
    (inner : ¬ (2 ≤ array.length ∧ array.getLast? = some w)) :
    deleteFrom w array.length 0 array = array.erase w := by
  by_cases member : w ∈ array
  case neg => rw [deleteFrom_absent w _ _ member, List.erase_of_not_mem member]
  case pos =>
    obtain ⟨before, after, rfl⟩ := List.append_of_mem member
    obtain ⟨_, rest, apart⟩ := List.nodup_append.mp nodup
    have first : w ∉ before := fun here => apart w here w List.mem_cons_self rfl
    have last : w ∉ after := (List.nodup_cons.mp rest).1
    rw [deleteFrom_present first last before.length 0 _ (Nat.zero_add _) (by simp),
      List.erase_append_right _ first, List.erase_cons_head]
    split
    case isFalse => rfl
    case isTrue single =>
      subst single
      cases before with
      | nil => rfl
      | cons x before => exact absurd ⟨by simp, List.getLast?_concat⟩ inner

/-! The moves. -/

namespace Analysis

def Movable (a : Analysis) (w : Str) : Prop :=
  ∀ oldsection, field a.wsections w = some (.single oldsection) →
    ¬ (2 ≤ (a.arrays oldsection).length ∧ (a.arrays oldsection).getLast? = some w)

def Keeps (a : Analysis) (w : Str) : Prop :=
  ∀ sect x, x ≠ w → ((a.tomulti w).2.arrays sect).count x = (a.arrays sect).count x

structure Inv (calls : List Call) (a : Analysis) : Prop where
  placed : ∀ sect w, w ∈ a.arrays sect ↔ field a.wsections w = some (.single sect)
  once : ∀ sect, (a.arrays sect).Nodup
  unlisted : ∀ sect w, field a.wsections w = some (.single sect) → field a.multi w = none
  found : ∀ call ∈ calls, field a.wsections call.w = some (.single call.sect) ∨
    ∃ sections, field a.multi call.w = some sections ∧ call.sect ∈ sections

/-- What `tomulti` does to a word and to the others. -/
structure Moved (a : Analysis) (w : Str) (moved : Bool) (a' : Analysis) : Prop where
  known : moved = true ↔ (field a.wsections w).isSome
  gone : ∀ sect, field a'.wsections w ≠ some (.single sect)
  still : moved = false → a' = a
  others : ∀ x, x ≠ w → field a'.wsections x = field a.wsections x

theorem delete_arrays {calls : List Call} {a : Analysis} {w : Str} {oldsection : Section} (inv : Inv calls a)
    (movable : a.Movable w) (single : field a.wsections w = some (.single oldsection)) (sect : Section) :
    (a.delete oldsection w).arrays sect = (a.arrays sect).erase w := by
  dsimp only [delete]
  by_cases here : sect = oldsection
  · subst here
    rw [Function.update_self, deleteFrom_erase (inv.once sect) (movable sect single)]
  · rw [Function.update_of_ne here, List.erase_of_not_mem]
    intro member
    rw [inv.placed, single] at member
    exact here (Place.single.inj (Option.some.inj member)).symm

theorem tomulti_moved (a : Analysis) (w : Str) : Moved a w (a.tomulti w).1 (a.tomulti w).2 := by
  rw [tomulti]
  split
  case h_1 oldsection single =>
    refine ⟨iff_of_true rfl (by rw [single]; rfl), fun sect => ?_, fun same => Bool.noConfusion same, ?_⟩
    · simp
    · intro x apart
      exact (field_insert_ne _ _ _ _ apart).trans (field_assign_ne _ _ _ _ apart)
  case h_2 listed =>
    exact ⟨iff_of_true rfl (by rw [listed]; rfl), fun sect => by simp [listed], fun _ => rfl, fun _ _ => rfl⟩
  case h_3 unknown =>
    exact ⟨iff_of_false Bool.false_ne_true (by simp [unknown]), fun sect => by simp [unknown], fun _ => rfl,
      fun _ _ => rfl⟩

theorem tomulti_keeps {calls : List Call} {a : Analysis} {w : Str} (inv : Inv calls a) (movable : a.Movable w) :
    a.Keeps w := by
  intro sect x apart
  rw [tomulti]
  split
  case h_1 oldsection single =>
    rw [delete_arrays inv movable single, List.count_erase_of_ne apart]
  case h_2 => rfl
  case h_3 => rfl

theorem tomulti_inv {calls : List Call} {a : Analysis} {w : Str} (inv : Inv calls a) (movable : a.Movable w) :
    Inv calls (a.tomulti w).2 := by
  rw [tomulti]
  split
  case h_2 => exact inv
  case h_3 => exact inv
  case h_1 oldsection single =>
    have arrays := delete_arrays inv movable single
    have others (x : Str) (apart : x ≠ w) :
        field ((assign a.wsections w none).insert w .MULTI) x = field a.wsections x :=
      (field_insert_ne _ _ _ _ apart).trans (field_assign_ne _ _ _ _ apart)
    constructor
    · intro sect x
      rw [arrays, (inv.once sect).mem_erase_iff, inv.placed]
      by_cases same : x = w
      · subst same
        simp [delete]
      · rw [← others x same]
        exact and_iff_right same
    · intro sect
      rw [arrays]
      exact (inv.once sect).erase w
    · intro sect x placed
      by_cases same : x = w
      · subst same
        simp [delete] at placed
      · rw [field_insert_ne _ _ _ _ same]
        exact inv.unlisted sect x ((others x same).symm.trans placed)
    · intro call member
      by_cases same : call.w = w
      · refine .inr ⟨{oldsection}, by rw [same]; exact field_insert _ _ _, ?_⟩
        cases inv.found call member with
        | inl placed =>
            rw [same, single] at placed
            exact Finset.mem_singleton.mpr (Place.single.inj (Option.some.inj placed)).symm
        | inr listed =>
            obtain ⟨sections, listed, _⟩ := listed
            rw [same, inv.unlisted oldsection w single] at listed
            cases listed
      · cases inv.found call member with
        | inl placed => exact .inl ((others call.w same).trans placed)
        | inr listed =>
            obtain ⟨sections, listed, named⟩ := listed
            exact .inr ⟨sections, (field_insert_ne _ _ _ _ same).trans listed, named⟩

/-- The condition on a call: what is moved is not the last of several, and a word that has an
entry under MULTI, but no place, comes with a replacement that has one. -/
structure Allowed (a : Analysis) (call : Call) : Prop where
  word : a.Movable call.w
  repl : ∀ repl ∈ call.repl, (a.tomulti call.w).2.Movable repl
  placed : (field a.multi call.w).isSome → (field a.wsections call.w).isSome ∨
    ∃ repl ∈ call.repl, (field a.wsections repl).isSome

theorem replToMulti_inv {calls : List Call} {a : Analysis} {repl : Option Str} (inv : Inv calls a)
    (movable : ∀ repl' ∈ repl, a.Movable repl') : Inv calls (a.replToMulti repl).2 := by
  cases repl with
  | none => exact inv
  | some repl => exact tomulti_inv inv (movable repl rfl)

theorem replToMulti_gone {a : Analysis} {w : Str} (gone : ∀ sect, field a.wsections w ≠ some (.single sect))
    (repl : Option Str) (sect : Section) : field (a.replToMulti repl).2.wsections w ≠ some (.single sect) := by
  cases repl with
  | none => exact gone sect
  | some repl =>
      by_cases same : w = repl
      · subst same
        exact (tomulti_moved a w).gone sect
      · rw [replToMulti, (tomulti_moved a repl).others w same]
        exact gone sect

theorem replToMulti_still {a : Analysis} {repl : Option Str} (still : (a.replToMulti repl).1 = false) :
    (a.replToMulti repl).2 = a ∧ ∀ repl' ∈ repl, (field a.wsections repl').isSome = false := by
  cases repl with
  | none => exact ⟨rfl, fun _ member => nomatch member⟩
  | some repl =>
      refine ⟨(tomulti_moved a repl).still still, fun repl' member => ?_⟩
      obtain rfl := Option.mem_some_iff.mp member
      rw [← Bool.not_eq_true, ← (tomulti_moved a repl).known]
      exact Bool.eq_false_iff.mp still

theorem mem_calls {calls : List Call} {call other : Call} (member : other ∈ calls ++ [call])
    (apart : other.w ≠ call.w) : other ∈ calls := by
  refine (List.mem_append.mp member).resolve_right fun new => ?_
  exact apart (congrArg Call.w (List.mem_singleton.mp new))

theorem Inv.listed {calls : List Call} {a : Analysis} {call : Call} (after : Inv calls a)
    (gone : ∀ sect, field a.wsections call.w ≠ some (.single sect)) :
    Inv (calls ++ [call]) { a with
      multi := a.multi.insert call.w (insert call.sect ((field a.multi call.w).getD ∅)) } := by
  refine ⟨after.placed, after.once, fun sect x placed => ?_, fun other member => ?_⟩
  · by_cases same : x = call.w
    · subst same
      exact absurd placed (gone sect)
    · rw [field_insert_ne _ _ _ _ same]
      exact after.unlisted sect x placed
  · by_cases same : other.w = call.w
    · rw [same]
      refine .inr ⟨_, field_insert _ _ _, ?_⟩
      cases List.mem_append.mp member with
      | inr new =>
          rw [List.mem_singleton.mp new]
          exact Finset.mem_insert_self _ _
      | inl old =>
          cases after.found other old with
          | inl placed =>
              rw [same] at placed
              exact absurd placed (gone _)
          | inr listed =>
              obtain ⟨sections, listed, named⟩ := listed
              rw [same] at listed
              rw [listed]
              exact Finset.mem_insert_of_mem named
    · rw [field_insert_ne _ _ _ _ same]
      exact after.found other (mem_calls member same)

theorem Inv.recorded {calls : List Call} {a : Analysis} {call : Call} (inv : Inv calls a)
    (unknown : field a.wsections call.w = none) (unlisted : field a.multi call.w = none) :
    Inv (calls ++ [call]) { a with
      arrays := Function.update a.arrays call.sect (a.arrays call.sect ++ [call.w])
      wsections := a.wsections.insert call.w (.single call.sect) } := by
  have absent (sect : Section) : call.w ∉ a.arrays sect := by
    rw [inv.placed, unknown]
    exact fun same => nomatch same
  refine ⟨fun sect x => ?_, fun sect => ?_, fun sect x placed => ?_, fun other member => ?_⟩
  · by_cases same : x = call.w
    · subst same
      rw [field_insert]
      by_cases here : sect = call.sect
      · subst here
        simp
      · simp [Function.update_of_ne here, absent, Ne.symm here]
    · rw [field_insert_ne _ _ _ _ same, ← inv.placed]
      by_cases here : sect = call.sect
      · subst here
        simp [same]
      · simp [Function.update_of_ne here]
  · by_cases here : sect = call.sect
    · subst here
      simpa [List.nodup_append, inv.once] using fun x member same => absent _ (same ▸ member)
    · simpa [Function.update_of_ne here] using inv.once sect
  · by_cases same : x = call.w
    · rw [same]
      exact unlisted
    · rw [field_insert_ne _ _ _ _ same] at placed
      exact inv.unlisted sect x placed
  · by_cases same : other.w = call.w
    · refine .inl ?_
      rw [same, field_insert]
      cases List.mem_append.mp member with
      | inr new => rw [List.mem_singleton.mp new]
      | inl old =>
          cases inv.found other old with
          | inl placed => rw [same, unknown] at placed; cases placed
          | inr listed =>
              obtain ⟨sections, listed, _⟩ := listed
              rw [same, unlisted] at listed
              cases listed
    · rw [field_insert_ne _ _ _ _ same]
      exact inv.found other (mem_calls member same)

theorem add_inv {calls : List Call} {a : Analysis} {call : Call} (inv : Inv calls a) (allowed : Allowed a call) :
    Inv (calls ++ [call]) (a.add call.sect call.w call.repl) := by
  have moved := tomulti_moved a call.w
  have after := replToMulti_inv (tomulti_inv inv allowed.word) allowed.repl
  have gone := replToMulti_gone moved.gone call.repl
  dsimp only [add]
  split
  case isTrue => exact after.listed gone
  case isFalse neither =>
    rw [Bool.not_eq_true, Bool.or_eq_false_iff] at neither
    obtain ⟨still, still'⟩ := neither
    obtain ⟨same', unknown'⟩ := replToMulti_still still'
    rw [same', moved.still still]
    rw [moved.still still] at unknown'
    have unknown : field a.wsections call.w = none := by
      rw [← Option.not_isSome_iff_eq_none, ← moved.known]
      exact Bool.eq_false_iff.mp still
    have unlisted : field a.multi call.w = none := by
      rw [← Option.not_isSome_iff_eq_none]
      intro listed
      cases allowed.placed listed with
      | inl placed => rw [unknown] at placed; cases placed
      | inr placed =>
          obtain ⟨repl, member, placed⟩ := placed
          rw [unknown' repl member] at placed
          cases placed
    exact inv.recorded unknown unlisted

theorem start_inv : Inv [] start :=
  ⟨fun _ _ => iff_of_false List.not_mem_nil (fun same => nomatch same), fun _ => List.nodup_nil, fun _ _ _ => rfl,
    fun _ member => absurd member List.not_mem_nil⟩

end Analysis

open Analysis

theorem runCalls_append (calls : List Call) (call : Call) :
    runCalls (calls ++ [call]) = (runCalls calls).add call.sect call.w call.repl := by
  rw [runCalls, List.foldl_append, List.foldl_cons, List.foldl_nil, runCalls]

theorem runCalls_inv (calls : List Call)
    (allowed : ∀ pre call post, calls = pre ++ call :: post → Allowed (runCalls pre) call) :
    Inv calls (runCalls calls) := by
  induction calls using List.reverseRecOn with
  | nil => exact start_inv
  | append_singleton calls call ih =>
      rw [runCalls_append]
      apply add_inv
      · apply ih
        intro pre other post same
        exact allowed pre other (post ++ [call]) (by rw [same, List.append_assoc, List.cons_append])
      · exact allowed calls call [] rfl

/-- The word is recorded once: in the array of the section that it was added under, or under
MULTI with every section that it was added under. -/
inductive Recorded (calls : List Call) (a : Analysis) (w : Str) : Prop
  | single (sect : Section) (named : field a.wsections w = some (.single sect))
      (once : ∀ other, (a.arrays other).count w = if other = sect then 1 else 0)
      (unlisted : field a.multi w = none) (all : ∀ call ∈ calls, call.w = w → call.sect = sect)
  | multi (sections : Finset Section) (listed : field a.multi w = some sections)
      (nowhere : ∀ other, w ∉ a.arrays other) (all : ∀ call ∈ calls, call.w = w → call.sect ∈ sections)

theorem Analysis.Inv.listedWord {calls : List Call} {a : Analysis} (inv : Inv calls a) {call : Call}
    (member : call ∈ calls) (gone : ∀ sect, field a.wsections call.w ≠ some (.single sect)) :
    Recorded calls a call.w := by
  have listed {other : Call} (member : other ∈ calls) (same : other.w = call.w) :
      ∃ sections, field a.multi call.w = some sections ∧ other.sect ∈ sections := by
    cases inv.found other member with
    | inl placed =>
        rw [same] at placed
        exact absurd placed (gone _)
    | inr listed =>
        rw [same] at listed
        exact listed
  obtain ⟨sections, here, _⟩ := listed member rfl
  refine .multi sections here (fun other => ?_) fun other member same => ?_
  · rw [inv.placed]
    exact gone other
  · obtain ⟨sections', here', named⟩ := listed member same
    obtain rfl := Option.some.inj (here.symm.trans here')
    exact named

theorem Analysis.Inv.word {calls : List Call} {a : Analysis} (inv : Inv calls a) {call : Call} (member : call ∈ calls) :
    Recorded calls a call.w := by
  cases found : field a.wsections call.w with
  | some place =>
      cases place with
      | single sect =>
          have unlisted := inv.unlisted sect call.w found
          refine .single sect found (fun other => ?_) unlisted fun other member' same => ?_
          · split
            case isTrue here =>
              exact List.count_eq_one_of_mem (inv.once other) ((inv.placed other call.w).mpr (here ▸ found))
            case isFalse apart =>
              rw [List.count_eq_zero, inv.placed, found]
              exact fun same => apart (Place.single.inj (Option.some.inj same)).symm
          · cases inv.found other member' with
            | inl placed =>
                rw [same, found] at placed
                exact (Place.single.inj (Option.some.inj placed)).symm
            | inr listed =>
                obtain ⟨sections, listed, _⟩ := listed
                rw [same, unlisted] at listed
                cases listed
      | MULTI => exact inv.listedWord member fun sect => by simp [found]
  | none => exact inv.listedWord member fun sect => by simp [found]

/-- In a run in which no call moves the last of several words, or places a word that has an entry
under MULTI, every word is recorded once, and no move takes another word out of an array. -/
theorem runCalls_recorded (calls : List Call)
    (allowed : ∀ pre call post, calls = pre ++ call :: post → Allowed (runCalls pre) call) :
    (∀ call ∈ calls, Recorded calls (runCalls calls) call.w) ∧
    ∀ pre call post, calls = pre ++ call :: post → (runCalls pre).Keeps call.w ∧
      ∀ repl ∈ call.repl, ((runCalls pre).tomulti call.w).2.Keeps repl := by
  refine ⟨fun call member => (runCalls_inv calls allowed).word member, fun pre call post same => ?_⟩
  have before : Inv pre (runCalls pre) := by
    apply runCalls_inv
    intro pre' other post' same'
    exact allowed pre' other (post' ++ call :: post) (by rw [same, same', List.append_assoc, List.cons_append])
  have here := allowed pre call post same
  exact ⟨tomulti_keeps before here.word,
    fun repl member => tomulti_keeps (tomulti_inv before here.word) (here.repl repl member)⟩

def quoCalls : List Call := [⟨.ABV, lit "quō", none⟩, ⟨.HID, lit "quō", some (lit "qvō")⟩]

theorem runCalls_recorded_quo :
    (∀ call ∈ quoCalls, Recorded quoCalls (runCalls quoCalls) call.w) ∧
    ∀ pre call post, quoCalls = pre ++ call :: post → (runCalls pre).Keeps call.w ∧
      ∀ repl ∈ call.repl, ((runCalls pre).tomulti call.w).2.Keeps repl := by
  apply runCalls_recorded quoCalls
  intro pre call post same
  have known : (pre = [] ∧ call = ⟨.ABV, lit "quō", none⟩) ∨
      (pre = [⟨.ABV, lit "quō", none⟩] ∧ call = ⟨.HID, lit "quō", some (lit "qvō")⟩) := by
    cases pre with
    | nil => exact .inl ⟨rfl, (List.cons.inj same).1.symm⟩
    | cons first pre =>
        obtain ⟨here, rest⟩ := List.cons.inj same
        cases pre with
        | nil => exact .inr ⟨by rw [here], (List.cons.inj rest).1.symm⟩
        | cons second pre => exact absurd (List.cons.inj rest).2 (by simp)
  cases known with
  | inl first =>
      obtain ⟨rfl, rfl⟩ := first
      refine ⟨fun sect placed => ?_, fun repl member => ?_, fun listed => ?_⟩
      · cases placed
      · cases member
      · cases listed
  | inr second =>
      obtain ⟨rfl, rfl⟩ := second
      refine ⟨fun sect placed => ?_, fun repl member sect placed => ?_, fun _ => .inl (by decide)⟩
      · cases sect <;> decide
      · cases member
        cases sect <;> exact absurd placed (by decide)

/-- `b` is the last of `a` and `b`; when it is moved, `a` is lost. -/
theorem runCalls_lost :
    ¬ ∀ calls : List Call, (calls.map fun call => (call.sect, call.w)).Nodup →
      (∀ call ∈ calls, Recorded calls (runCalls calls) call.w) ∧
      ∀ pre call post, calls = pre ++ call :: post → (runCalls pre).Keeps call.w ∧
        ∀ repl ∈ call.repl, ((runCalls pre).tomulti call.w).2.Keeps repl := by
  intro claim
  have recorded := (claim [⟨.ABV, lit "a", none⟩, ⟨.ABV, lit "b", none⟩, ⟨.ENC, lit "b", none⟩] (by decide)).1
    ⟨.ABV, lit "a", none⟩ (by decide)
  cases recorded with
  | single sect _ once =>
      have here := once sect
      rw [if_pos rfl] at here
      cases sect <;> exact absurd here (by decide)
  | multi sections listed => exact absurd listed (by decide +revert)

end Maccer
