import Mathlib.Data.List.GetD
import Maccer.Lua.Cuts
import Maccer.Lua.Literals
import Maccer.Lines
import Maccer.Comments

/-! What `macra.decomment` deletes and what `macra.getcommentset` marks, byte by byte. -/

namespace Maccer

open Lua

inductive Reading where
  | code | line | block
  deriving DecidableEq, Repr

def comments : Reading → Str → List Bool
  | _, [] => []
  | .line, b :: rest => if b = 10 then false :: comments .code rest else true :: comments .line rest
  | .block, [_] => [true]
  | .block, b :: c :: rest =>
      if b = 42 ∧ c = 47 then true :: true :: comments .code rest else true :: comments .block (c :: rest)
  | .code, [_] => [false]
  | .code, b :: c :: rest =>
      if b = 47 ∧ c = 47 then true :: true :: comments .line rest
      else if b = 47 ∧ c = 42 ∧ lit "*/" <:+: rest then true :: true :: comments .block rest
      else false :: comments .code (c :: rest)

def lineMarks (opens : Str → Bool) : Bool → Str → List Bool
  | _, [] => []
  | true, b :: rest => if b = 10 then false :: lineMarks opens false rest else true :: lineMarks opens true rest
  | false, [_] => [false]
  | false, b :: c :: rest =>
      if b = 47 ∧ c = 47 ∧ opens rest = true then true :: true :: lineMarks opens true rest
      else false :: lineMarks opens false (c :: rest)

/-- In `decomment` any two slashes do. -/
def lineComments : Str → List Bool := lineMarks (fun _ => true) false

/-- In `getcommentset` something has to follow them on their line. -/
def singleComments : Str → List Bool := lineMarks (fun rest => rest.head?.any (· ≠ 10)) false

/-- The bytes that `macra.decomment` deletes. -/
def decommentCuts (text : Str) : Run (List Bool) := do
  let block ← cuts text (lit "/%*.+%*/")
  let line ← cuts (keep block text) (lit "//[^\n]*")
  return overlay block line

theorem decomment_cuts (text : Str) :
    decomment text = (decommentCuts text).map fun marks => keep marks text := by
  rw [decomment, decommentCuts, gsubAll_cuts]
  cases cuts text (lit "/%*.+%*/") with
  | error fault => rfl
  | ok block =>
      refine (gsubAll_cuts (keep block text) (lit "//[^\n]*")).trans ?_
      show _ = ((cuts (keep block text) (lit "//[^\n]*")).map (overlay block ·)).map fun marks => keep marks text
      cases cuts (keep block text) (lit "//[^\n]*") with
      | error fault => rfl
      | ok line => exact congrArg Except.ok (keep_overlay block line text).symm

/-- The bytes at the positions that `macra.getcommentset` sets. -/
def commentMarks (commentstbl : List (Int × Int)) (text : Str) : List Bool :=
  (List.range text.length).map (inComment commentstbl)

/-! Comments to the end of the line. -/

section

variable {opens : Str → Bool}

theorem lineMarks_length (opens : Str → Bool) (within : Bool) (s : Str) :
    (lineMarks opens within s).length = s.length := by
  induction within, s using lineMarks.induct opens with
  | case1 => rfl
  | case2 rest ih => simp [lineMarks, ih]
  | case3 b rest newline ih => simp [lineMarks, newline, ih]
  | case4 => rfl
  | case5 b c rest here ih => simp [lineMarks, here, ih]
  | case6 b c rest here ih => simp [lineMarks, here, ih]

theorem lineMarks_newline (keeps : ∀ r t, opens (r ++ 10 :: t) = opens r) (within : Bool) (w t : Str) :
    lineMarks opens within (w ++ 10 :: t) = lineMarks opens within w ++ false :: lineMarks opens false t := by
  induction within, w using lineMarks.induct opens with
  | case1 within => cases within <;> cases t <;> simp [lineMarks]
  | case2 rest ih => simpa [lineMarks] using ih
  | case3 b rest newline ih => simpa [lineMarks, newline] using ih
  | case4 b => cases t <;> simp [lineMarks]
  | case5 b c rest here ih => simpa [lineMarks, here, keeps] using ih
  | case6 b c rest here ih => simpa [lineMarks, here, keeps] using ih

theorem lineMarks_within (s : Str) :
    lineMarks opens true s = List.replicate (s.takeWhile (· ≠ 10)).length true ++
      lineMarks opens false (s.drop (s.takeWhile (· ≠ 10)).length) := by
  induction s with
  | nil => rfl
  | cons b s ih =>
      by_cases newline : b = 10
      · subst newline
        cases s <;> simp [lineMarks]
      · simp [lineMarks, newline, ih, List.replicate_succ]

theorem lineMarks_skip (opens : Str → Bool) (skip : Nat) (s : Str)
    (absent : ∀ j < skip, ∀ r, s.drop j = 47 :: 47 :: r → opens r = false) :
    lineMarks opens false s = List.replicate (min skip s.length) false ++ lineMarks opens false (s.drop skip) := by
  induction skip generalizing s with
  | zero => simp
  | succ skip ih =>
      have later (b : UInt8) (s : Str)
          (absent : ∀ j < skip + 1, ∀ r, (b :: s).drop j = 47 :: 47 :: r → opens r = false) :=
        ih s fun j less r here => absent (j + 1) (by omega) r here
      cases s with
      | nil => rfl
      | cons b s =>
          have rest := later b s absent
          have first : lineMarks opens false (b :: s) = false :: lineMarks opens false s := by
            cases s with
            | nil => rfl
            | cons c s =>
                rw [lineMarks, if_neg]
                intro here
                obtain ⟨rfl, rfl, opened⟩ := here
                rw [absent 0 (by omega) s rfl] at opened
                cases opened
          rw [first, rest, List.length_cons, Nat.succ_min_succ, List.replicate_succ]
          rfl

end

theorem keeps_single (r t : Str) :
    (r ++ 10 :: t).head?.any (fun b => decide (b ≠ 10)) = r.head?.any (fun b => decide (b ≠ 10)) := by
  cases r <;> simp

/-! The comments to the end of a line that `getcommentset` finds. -/

def Opens (text : Str) (i : Nat) : Prop :=
  text[i]? = some 47 ∧ text[i + 1]? = some 47 ∧ (text[i + 2]?).any (· ≠ 10) = true

instance (text : Str) (i : Nat) : Decidable (Opens text i) := by unfold Opens; infer_instance

theorem matchAt_single (text : Str) (i : Nat) :
    matchAt text (lit "//([^\n]+)") i =
      if Opens text i then
        .ok (some (i + 3 + repeated text (i + 3) (· ≠ 10),
          [⟨i + 2, .closed (i + 3 + repeated text (i + 3) (· ≠ 10) - (i + 2))⟩]))
      else .ok none := by
  have shape : lit "//([^\n]+)" = 47 :: 47 :: 40 :: 91 :: [94, 10, 93, 43, 41] := by decide
  have single (b : UInt8) : singleMatch b (91 :: [94, 10, 93, 43, 41]) [43, 41] = decide (b ≠ 10) :=
    single_except b 10 [43, 41]
  have plus := matchHere_plus text 6 (i + 2) ([] ++ [⟨i + 2, .unfinished⟩]) (fun b => decide (b ≠ 10)) 91
    [94, 10, 93, 43, 41] [41] (by decide) (by decide) single
  have longest := maxExpand_longest (fun j => matchHere text 6 [41] j ([] ++ [⟨i + 2, .unfinished⟩])) (i + 2 + 1)
    (repeated text (i + 2 + 1) fun b => decide (b ≠ 10)) _
    (some (i + 3 + repeated text (i + 3) (· ≠ 10),
      [⟨i + 2, .closed (i + 3 + repeated text (i + 3) (· ≠ 10) - (i + 2))⟩])) le_rfl
    (by rw [matchHere_close, matchHere_nil]; rfl) (by simp) fun k above bound => by omega
  rw [matchAt, shape, matchHere_literal _ _ _ _ _ _ (by decide) (by decide)]
  by_cases first : text[i]? = some 47
  case neg => rw [if_neg first, if_neg fun opens => first opens.1]
  case pos =>
    rw [if_pos first, List.length_cons, matchHere_literal _ _ _ _ _ _ (by decide) (by decide)]
    by_cases second : text[i + 1]? = some 47
    case neg => rw [if_neg second, if_neg fun opens => second opens.2.1]
    case pos =>
      rw [if_pos second, List.length_cons, matchHere_open _ _ _ _ _ (by decide)]
      refine plus.trans ?_
      by_cases third : (text[i + 2]?).any (· ≠ 10) = true
      case neg => rw [if_neg third, if_neg fun opens => third opens.2.2]
      case pos =>
        rw [if_pos third, if_pos ⟨first, second, third⟩]
        exact longest

theorem Opens.drop {text : Str} {i : Nat} (opens : Opens text i) :
    ∃ b r, text.drop i = 47 :: 47 :: b :: r ∧ b ≠ 10 ∧ r = text.drop (i + 3) := by
  obtain ⟨first, second, third⟩ := opens
  obtain ⟨inside, first⟩ := List.getElem?_eq_some_iff.mp first
  obtain ⟨inside', second⟩ := List.getElem?_eq_some_iff.mp second
  obtain ⟨b, here, apart⟩ := (Option.any_eq_true _ _).mp third
  obtain ⟨inside₃, here⟩ := List.getElem?_eq_some_iff.mp here
  refine ⟨b, text.drop (i + 3), ?_, of_decide_eq_true apart, rfl⟩
  rw [List.drop_eq_getElem_cons inside, List.drop_eq_getElem_cons inside', List.drop_eq_getElem_cons inside₃, first,
    second, here]

theorem opens_of_drop {text : Str} {i : Nat} {r : Str} (here : text.drop i = 47 :: 47 :: r)
    (follows : r.head?.any (fun b => decide (b ≠ 10)) = true) : Opens text i := by
  have at' (k : Nat) : text[i + k]? = (47 :: 47 :: r)[k]? := by rw [← here, List.getElem?_drop]
  refine ⟨at' 0, at' 1, ?_⟩
  rw [at' 2]
  cases r with
  | nil => cases follows
  | cons b r => exact follows

theorem singleComments_none {text : Str} {i : Nat} (absent : ∀ j, i ≤ j → ¬ Opens text j) :
    singleComments (text.drop i) = List.replicate (text.length - i) false := by
  have skipped := lineMarks_skip (fun rest => rest.head?.any (fun b => decide (b ≠ 10)))
    (text.length - i) (text.drop i) fun j _ r here => by
      rw [List.drop_drop] at here
      exact Bool.eq_false_iff.mpr fun follows => absent (i + j) (by omega) (opens_of_drop here follows)
  have rest : (text.drop i).drop (text.length - i) = [] := List.drop_eq_nil_of_le (by rw [List.length_drop])
  rw [List.length_drop, min_self, rest, lineMarks, List.append_nil] at skipped
  exact skipped

theorem singleComments_first {text : Str} {i j : Nat} (after : i ≤ j) (opens : Opens text j)
    (absent : ∀ k, i ≤ k → k < j → ¬ Opens text k) :
    singleComments (text.drop i) = List.replicate (j - i) false ++
      (List.replicate (3 + repeated text (j + 3) (· ≠ 10)) true ++
        singleComments (text.drop (j + 3 + repeated text (j + 3) (· ≠ 10)))) := by
  have inside : j < text.length := (List.getElem?_eq_some_iff.mp opens.1).1
  have skipped := lineMarks_skip (fun rest => rest.head?.any (fun b => decide (b ≠ 10)))
    (j - i) (text.drop i) fun k less r here => by
      rw [List.drop_drop] at here
      exact Bool.eq_false_iff.mpr fun follows => absent (i + k) (by omega) (by omega) (opens_of_drop here follows)
  rw [List.length_drop, min_eq_left (by omega), List.drop_drop, Nat.add_sub_cancel' after] at skipped
  obtain ⟨b, r, shape, apart, rfl⟩ := opens.drop
  have run : (b :: text.drop (j + 3)).takeWhile (fun b => decide (b ≠ 10)) =
      b :: (text.drop (j + 3)).takeWhile (fun b => decide (b ≠ 10)) := List.takeWhile_cons_of_pos (decide_eq_true apart)
  rw [singleComments, skipped, shape, lineMarks, if_pos (by simp [apart]), lineMarks_within, run, List.length_cons,
    List.drop_succ_cons, List.drop_drop, repeated, Nat.add_comm 3, List.replicate_succ, List.replicate_succ,
    List.replicate_succ]
  rfl

theorem unmarked_getD (count k : Nat) : (List.replicate count false).getD k false = false := by
  rw [List.getD_eq_getElem?_getD]
  exact List.getElem?_getD_replicate_default_eq false count k

theorem marked_getD {count k : Nat} (less : k < count) : (List.replicate count true).getD k false = true :=
  List.getD_replicate true less

/-- The positions found from a place on are those that `singleComments` marks from there on. -/
theorem findAll_single {text : Str} (fuel i : Nat) (inside : i ≤ text.length) (enough : text.length - i < fuel) :
    ∃ commentstbl, findAll text (lit "//([^\n]+)") fuel (i + 1) = .ok commentstbl ∧
      ∀ p, inComment commentstbl p = (decide (i ≤ p) && (singleComments (text.drop i)).getD (p - i) false) := by
  have magic : hasPattern (lit "//([^\n]+)") = true := by decide
  have free : (lit "//([^\n]+)").head? ≠ some 94 := by decide
  have misses {k : Nat} (closed : ¬ Opens text k) : matchAt text (lit "//([^\n]+)") k = .ok none := by
    rw [matchAt_single, if_neg closed]
  induction fuel generalizing i with
  | zero => omega
  | succ fuel ih =>
      by_cases some : ∃ j, i ≤ j ∧ Opens text j
      case neg =>
        have absent (j : Nat) (after : i ≤ j) : ¬ Opens text j := fun opens => some ⟨j, after, opens⟩
        refine ⟨[], ?_, fun p => ?_⟩
        · rw [findAll, find_none magic free inside fun j after => misses (absent j after)]
          rfl
        · rw [singleComments_none absent]
          rw [unmarked_getD, Bool.and_false]
          rfl
      case pos =>
        obtain ⟨after, opens⟩ := Nat.find_spec some
        have absent (k : Nat) (within : i ≤ k) (less : k < Nat.find some) : ¬ Opens text k :=
          fun opens => Nat.find_min some less ⟨within, opens⟩
        generalize Nat.find some = j at after opens absent
        have bound : j + 3 + repeated text (j + 3) (· ≠ 10) ≤ text.length := by
          have inside' : j + 2 < text.length := by
            obtain ⟨b, here, _⟩ := (Option.any_eq_true _ _).mp opens.2.2
            exact (List.getElem?_eq_some_iff.mp here).1
          exact repeated_le text (j + 3) _ (by omega)
        obtain ⟨later, ran, covers⟩ := ih (j + 3 + repeated text (j + 3) (· ≠ 10)) bound (by omega)
        have hit := matchAt_single text j
        rw [if_pos opens] at hit
        refine ⟨((j : Int) + 1, ((j + 3 + repeated text (j + 3) (· ≠ 10) : Nat) : Int)) :: later, ?_, fun p => ?_⟩
        · rw [findAll, find_first magic free after (by omega) hit rfl fun k within less => misses (absent k within less),
            run_bind_ok]
          dsimp only
          rw [ran]
          rfl
        · have first : inComment (((j : Int) + 1, ((j + 3 + repeated text (j + 3) (· ≠ 10) : Nat) : Int)) :: later) p =
              (decide (j ≤ p ∧ p < j + 3 + repeated text (j + 3) (· ≠ 10)) || inComment later p) := by
            rw [inComment, List.any_cons, ← inComment]
            congr 1
            rw [← Bool.decide_and]
            exact decide_eq_decide.mpr (by omega)
          rw [first, covers, singleComments_first after opens absent]
          generalize repeated text (j + 3) (· ≠ 10) = n at bound
          by_cases start : i ≤ p
          case neg => simp [start, show ¬ j ≤ p by omega, show ¬ j + 3 + n ≤ p by omega]
          by_cases before : p < j
          case pos =>
            rw [List.getD_append _ _ _ _ (by rw [List.length_replicate]; omega), unmarked_getD]
            simp [show ¬ j ≤ p by omega, show ¬ j + 3 + n ≤ p by omega]
          case neg =>
            rw [List.getD_append_right _ _ _ _ (by rw [List.length_replicate]; omega), List.length_replicate]
            by_cases within : p < j + 3 + n
            case pos =>
              rw [List.getD_append _ _ _ _ (by rw [List.length_replicate]; omega), marked_getD (by omega)]
              simp [show j ≤ p by omega, within, show i ≤ p by omega]
            case neg =>
              rw [List.getD_append_right _ _ _ _ (by rw [List.length_replicate]; omega), List.length_replicate,
                show p - i - (j - i) - (3 + n) = p - (j + 3 + n) by omega]
              simp [within, show j + 3 + n ≤ p by omega, show i ≤ p by omega]

/-! The comments to the end of a line that `decomment` deletes. -/

theorem cutsFrom_line (text : Str) (fuel count i : Nat) (enough : text.length - i < fuel)
    (many : text.length - i < count) :
    cutsFrom text (lit "//[^\n]*") fuel count i = .ok (lineComments (text.drop i)) := by
  induction fuel generalizing count i with
  | zero => omega
  | succ fuel ih =>
      have positive : count ≠ 0 := by omega
      rw [cutsFrom, if_neg positive, matchAt_line]
      by_cases here : text[i]? = some 47 ∧ text[i + 1]? = some 47
      case pos =>
        obtain ⟨inside, first⟩ := List.getElem?_eq_some_iff.mp here.1
        obtain ⟨inside', second⟩ := List.getElem?_eq_some_iff.mp here.2
        have front : text.drop i = 47 :: 47 :: text.drop (i + 2) := by
          rw [List.drop_eq_getElem_cons inside, List.drop_eq_getElem_cons inside', first, second]
        rw [if_pos here]
        dsimp only
        rw [if_pos (by omega), ih (count - 1) _ (by omega) (by omega), front, lineComments, lineMarks,
          if_pos ⟨rfl, rfl, rfl⟩, lineMarks_within, List.drop_drop, ← repeated,
          show i + 2 + repeated text (i + 2) (fun b => decide (b ≠ 10)) - i =
            repeated text (i + 2) (fun b => decide (b ≠ 10)) + 1 + 1 by omega, List.replicate_succ, List.replicate_succ]
        rfl
      case neg =>
        rw [if_neg here]
        dsimp only
        split
        case isTrue inside =>
          rw [ih count (i + 1) (by omega) (by omega)]
          have passed := lineMarks_skip (fun _ => true) 1 (text.drop i) fun j less r shape => by
            obtain rfl : j = 0 := by omega
            rw [List.drop_zero] at shape
            refine absurd ⟨?_, ?_⟩ here
            · rw [← List.head?_drop, shape]; rfl
            · rw [← List.head?_drop, ← List.drop_drop, shape]; rfl
          rw [List.drop_drop, List.length_drop, min_eq_left (by omega)] at passed
          exact congrArg Except.ok passed.symm
        case isFalse beyond => rw [List.drop_eq_nil_of_le (by omega)]; rfl

theorem cuts_line (text : Str) : cuts text (lit "//[^\n]*") = .ok (lineComments text) :=
  cutsFrom_line text _ _ 0 (by omega) (by omega)

/-! Comments between `/*` and `*/`. -/

def BlockOpens (text : Str) (i : Nat) : Prop := text[i]? = some 47 ∧ text[i + 1]? = some 42

def BlockCloses (text : Str) (i : Nat) : Prop := text[i]? = some 42 ∧ text[i + 1]? = some 47

instance (text : Str) (i : Nat) : Decidable (BlockOpens text i) := by unfold BlockOpens; infer_instance

instance (text : Str) (i : Nat) : Decidable (BlockCloses text i) := by unfold BlockCloses; infer_instance

theorem BlockCloses.inside {text : Str} {i : Nat} (closes : BlockCloses text i) : i + 1 < text.length :=
  (List.getElem?_eq_some_iff.mp closes.2).1

theorem maxExpand_last {text : Str} {next : Nat → Outcome} {captures : Nat → List Capture}
    (ends : ∀ j, next j = if BlockCloses text j then .ok (some (j + 2, captures j)) else .ok none)
    (start : Nat) :
    (∀ q, start ≤ q → BlockCloses text q → (∀ q', q < q' → ¬ BlockCloses text q') →
      maxExpand next start (text.length - start) = .ok (some (q + 2, captures q))) ∧
    ((∀ q, start ≤ q → ¬ BlockCloses text q) → maxExpand next start (text.length - start) = .ok none) := by
  constructor
  · intro q after closes last
    have inside := closes.inside
    refine maxExpand_longest next start _ (q - start) _ (by omega) ?_ (by simp) fun k above _ => ?_
    · rw [Nat.add_sub_cancel' after, ends, if_pos closes]
    · rw [ends, if_neg (last (start + k) (by omega))]
  · intro absent
    refine maxExpand_none next start _ fun k _ => ?_
    rw [ends, if_neg (absent (start + k) (Nat.le_add_right start k))]

theorem closes_here (text : Str) (fuel j : Nat) (captures : List Capture) :
    matchHere text (fuel + 3) [37, 42, 47] j captures =
      if BlockCloses text j then .ok (some (j + 2, captures)) else .ok none := by
  rw [matchHere_escape text (fuel + 2) j captures 42 [47] (by decide) (by decide)]
  by_cases star : text[j]? = some 42
  case neg => rw [if_neg star, if_neg fun closes => star closes.1]
  case pos =>
    rw [if_pos star, matchHere_literal text (fuel + 1) (j + 1) captures 47 [] (by decide) (by decide)]
    by_cases slash : text[j + 1]? = some 47
    case neg => rw [if_neg slash, if_neg fun closes => slash closes.2]
    case pos => rw [if_pos slash, if_pos ⟨star, slash⟩, matchHere_nil]

theorem opens_here (text : Str) (fuel i : Nat) (rest : Str) (once : isMark rest.head? = false) :
    matchHere text (fuel + 2) (47 :: 37 :: 42 :: rest) i [] =
      if BlockOpens text i then matchHere text fuel rest (i + 2) [] else .ok none := by
  rw [matchHere_literal text (fuel + 1) i [] 47 _ (by decide) rfl]
  by_cases slash : text[i]? = some 47
  case neg => rw [if_neg slash, if_neg fun opens => slash opens.1]
  case pos =>
    rw [if_pos slash, matchHere_escape text fuel (i + 1) [] 42 rest (by decide) once]
    by_cases star : text[i + 1]? = some 42
    case neg => rw [if_neg star, if_neg fun opens => star opens.2]
    case pos => rw [if_pos star, if_pos ⟨slash, star⟩]

/-- The pattern of `getcommentset`. -/
theorem matchAt_multi_mark (text : Str) (p : Nat) :
    (∀ q, BlockOpens text p → p + 2 ≤ q → BlockCloses text q → (∀ q', q < q' → ¬ BlockCloses text q') →
      matchAt text (lit "/%*(.*)%*/") p = .ok (some (q + 2, [⟨p + 2, .closed (q - (p + 2))⟩]))) ∧
    ((BlockOpens text p → ∀ q, p + 2 ≤ q → ¬ BlockCloses text q) →
      matchAt text (lit "/%*(.*)%*/") p = .ok none) := by
  have expand : matchAt text (lit "/%*(.*)%*/") p = if BlockOpens text p then
      maxExpand (fun j => matchHere text 7 [41, 37, 42, 47] j ([] ++ [⟨p + 2, .unfinished⟩])) (p + 2)
        (text.length - (p + 2)) else .ok none := by
    rw [matchAt, show (lit "/%*(.*)%*/").length = 10 by decide,
      show lit "/%*(.*)%*/" = 47 :: 37 :: 42 :: [40, 46, 42, 41, 37, 42, 47] by decide,
      opens_here text 9 p [40, 46, 42, 41, 37, 42, 47] (by decide)]
    split
    case isFalse => rfl
    case isTrue =>
      rw [matchHere_open text 8 _ _ _ (by decide), matchHere_star text 7 (p + 2) _ (fun _ => true) 46
        [42, 41, 37, 42, 47] [41, 37, 42, 47] (by decide) (by decide) (fun _ => rfl), repeated_all]
  have last := @maxExpand_last text (fun j => matchHere text 7 [41, 37, 42, 47] j ([] ++ [⟨p + 2, .unfinished⟩]))
    (fun j => [⟨p + 2, .closed (j - (p + 2))⟩])
    (fun j => by rw [matchHere_close text 6 j [] (p + 2)]; exact closes_here text 3 j _) (p + 2)
  rw [expand]
  constructor
  · intro q opens after closes final
    rw [if_pos opens]
    exact last.1 q after closes final
  · intro absent
    split
    case isTrue opens => exact last.2 (absent opens)
    case isFalse => rfl

/-- The pattern of `decomment`. -/
theorem matchAt_multi_cut (text : Str) (p : Nat) :
    (∀ q, BlockOpens text p → p + 3 ≤ q → BlockCloses text q → (∀ q', q < q' → ¬ BlockCloses text q') →
      matchAt text (lit "/%*.+%*/") p = .ok (some (q + 2, []))) ∧
    ((BlockOpens text p → ∀ q, p + 3 ≤ q → ¬ BlockCloses text q) →
      matchAt text (lit "/%*.+%*/") p = .ok none) := by
  have expand : matchAt text (lit "/%*.+%*/") p = if BlockOpens text p then
      if (text[p + 2]?).any (fun _ => true) = true then
        maxExpand (fun j => matchHere text 6 [37, 42, 47] j []) (p + 2 + 1) (text.length - (p + 2 + 1))
      else .ok none else .ok none := by
    rw [matchAt, show (lit "/%*.+%*/").length = 8 by decide,
      show lit "/%*.+%*/" = 47 :: 37 :: 42 :: [46, 43, 37, 42, 47] by decide,
      opens_here text 7 p [46, 43, 37, 42, 47] (by decide)]
    split
    case isFalse => rfl
    case isTrue =>
      rw [matchHere_plus text 6 (p + 2) _ (fun _ => true) 46 [43, 37, 42, 47] [37, 42, 47] (by decide) (by decide)
        (fun _ => rfl), repeated_all]
  have last := @maxExpand_last text (fun j => matchHere text 6 [37, 42, 47] j []) (fun _ => [])
    (fun j => closes_here text 3 j []) (p + 3)
  rw [expand]
  constructor
  · intro q opens after closes final
    have inside := closes.inside
    rw [if_pos opens, if_pos (by rw [List.getElem?_eq_getElem (by omega)]; rfl)]
    exact last.1 q after closes final
  · intro absent
    split
    case isTrue opens =>
      split
      case isTrue => exact last.2 (absent opens)
      case isFalse => rfl
    case isFalse => rfl

/-! Texts with and without a comment up to `*/`. -/

structure Span (text : Str) (p q : Nat) : Prop where
  opens : BlockOpens text p
  first : ∀ p', p' < p → ¬ BlockOpens text p'
  closes : BlockCloses text q
  last : ∀ q', q < q' → ¬ BlockCloses text q'
  order : p + 2 ≤ q

def Spanless (text : Str) : Prop := ∀ p q, BlockOpens text p → p + 2 ≤ q → ¬ BlockCloses text q

theorem span_or_none (text : Str) : (∃ p q, Span text p q) ∨ Spanless text := by
  by_cases some : ∃ p q, BlockOpens text p ∧ p + 2 ≤ q ∧ BlockCloses text q
  case neg => exact .inr fun p q opens after closes => some ⟨p, q, opens, after, closes⟩
  case pos =>
    obtain ⟨p, q, opens, after, closes⟩ := some
    have begins : ∃ p, BlockOpens text p := ⟨p, opens⟩
    have inside := closes.inside
    have least := Nat.find_min' begins opens
    have most := Nat.le_findGreatest (P := BlockCloses text) (show q ≤ text.length by omega) closes
    refine .inl ⟨Nat.find begins, Nat.findGreatest (BlockCloses text) text.length, Nat.find_spec begins,
      fun p' less => Nat.find_min begins less, Nat.findGreatest_spec (show q ≤ text.length by omega) closes,
      fun q' more closes' => ?_, by omega⟩
    have inside' := closes'.inside
    exact Nat.findGreatest_is_greatest more (by omega) closes'

theorem marks_lines (marks : List Bool) : (List.range marks.length).map (fun i => marks.getD i false) = marks := by
  apply List.ext_getElem
  · rw [List.length_map, List.length_range]
  · intro i inside inside'
    rw [List.getElem_map, List.getElem_range, List.getD_eq_getElem _ _ inside']

theorem marks_span (marks : List Bool) (p e : Nat) (order : p ≤ e) (inside : e ≤ marks.length) :
    (List.range marks.length).map (fun i => marks.getD i false || decide (p ≤ i ∧ i < e)) =
      marks.take p ++ (List.replicate (e - p) true ++ marks.drop e) := by
  apply List.ext_getElem
  · simp only [List.length_map, List.length_range, List.length_append, List.length_take, List.length_replicate,
      List.length_drop]
    omega
  · intro i bound bound'
    rw [List.length_map, List.length_range] at bound
    rw [List.getElem_map, List.getElem_range, List.getD_eq_getElem _ _ bound]
    by_cases before : i < p
    case pos =>
      rw [List.getElem_append_left (by rw [List.length_take]; omega), List.getElem_take]
      simp [show ¬ p ≤ i by omega]
    case neg =>
      rw [List.getElem_append_right (by rw [List.length_take]; omega)]
      by_cases within : i < e
      case pos =>
        rw [List.getElem_append_left (by rw [List.length_take, List.length_replicate]; omega), List.getElem_replicate]
        simp [show p ≤ i by omega, within]
      case neg =>
        rw [List.getElem_append_right (by rw [List.length_take, List.length_replicate]; omega), List.getElem_drop]
        simp only [List.length_take, List.length_replicate, within, and_false, decide_false, Bool.or_false]
        congr 1
        omega

theorem singleComments_length (s : Str) : (singleComments s).length = s.length := lineMarks_length _ false s

theorem lineComments_length (s : Str) : (lineComments s).length = s.length := lineMarks_length _ false s

theorem getcommentset_spanless {text : Str} (spanless : Spanless text) :
    ∃ commentstbl, getcommentset text = .ok commentstbl ∧ commentMarks commentstbl text = singleComments text := by
  obtain ⟨single, ran, covers⟩ := findAll_single (text.length + 1) 0 (Nat.zero_le text.length) (by omega)
  have multi : findAll text (lit "/%*(.*)%*/") (text.length + 1) 1 = .ok [] := by
    have none := @find_none text (lit "/%*(.*)%*/") (by decide) (by decide) 0 (Nat.zero_le text.length)
      fun j _ => (matchAt_multi_mark text j).2 fun opens q after => spanless j q opens after
    rw [findAll, show (1 : Int) = ((0 : Nat) : Int) + 1 by decide, none]
    rfl
  refine ⟨single ++ [], ?_, ?_⟩
  · rw [getcommentset, show (1 : Int) = ((0 : Nat) : Int) + 1 by decide, ran, run_bind_ok]
    rw [show (1 : Int) = ((0 : Nat) : Int) + 1 by decide] at multi
    rw [multi]
    rfl
  · rw [List.append_nil, commentMarks, ← singleComments_length, ← marks_lines (singleComments text)]
    simp [covers]

theorem getcommentset_span {text : Str} {p q : Nat} (span : Span text p q) :
    ∃ commentstbl, getcommentset text = .ok commentstbl ∧ commentMarks commentstbl text =
      (singleComments text).take p ++ (List.replicate (q + 2 - p) true ++ (singleComments text).drop (q + 2)) := by
  have inside := span.closes.inside
  have order := span.order
  obtain ⟨single, ran, covers⟩ := findAll_single (text.length + 1) 0 (Nat.zero_le text.length) (by omega)
  have hit := (matchAt_multi_mark text p).1 q span.opens order span.closes span.last
  have multi : findAll text (lit "/%*(.*)%*/") (text.length + 1) ((0 : Nat) + 1) =
      .ok [((p : Int) + 1, ((q + 2 : Nat) : Int))] := by
    have first := @find_first text (lit "/%*(.*)%*/") (by decide) (by decide) 0 _ _ _
      (Nat.zero_le p) (by omega) hit rfl fun k _ less =>
        (matchAt_multi_mark text k).2 fun opens => absurd opens (span.first k less)
    have none := @find_none text (lit "/%*(.*)%*/") (by decide) (by decide) (q + 2) (by omega)
      fun j after => (matchAt_multi_mark text j).2 fun _ q' more => span.last q' (by omega)
    rw [show text.length + 1 = text.length - 1 + 1 + 1 by omega, findAll, first, run_bind_ok]
    dsimp only
    rw [findAll, none]
    rfl
  refine ⟨single ++ [((p : Int) + 1, ((q + 2 : Nat) : Int))], ?_, ?_⟩
  · rw [getcommentset, show (1 : Int) = ((0 : Nat) : Int) + 1 by decide, ran, run_bind_ok, multi]
    rfl
  · rw [← marks_span (singleComments text) p (q + 2) (by omega) (by rw [singleComments_length]; omega), commentMarks,
      singleComments_length]
    refine List.map_congr_left fun i _ => ?_
    have later : inComment [((p : Int) + 1, ((q + 2 : Nat) : Int))] i = decide (p ≤ i ∧ i < q + 2) := by
      rw [inComment, List.any_cons, List.any_nil, Bool.or_false, ← Bool.decide_and]
      exact decide_eq_decide.mpr (by omega)
    have joined : inComment (single ++ [((p : Int) + 1, ((q + 2 : Nat) : Int))]) i =
        (inComment single i || inComment [((p : Int) + 1, ((q + 2 : Nat) : Int))] i) := List.any_append
    rw [joined, later, covers]
    simp

theorem cuts_block_none {text : Str} (none : ∀ p q, BlockOpens text p → p + 3 ≤ q → ¬ BlockCloses text q) :
    cuts text (lit "/%*.+%*/") = .ok (List.replicate text.length false) :=
  cutsFrom_none text _ _ _ 0 (fun j _ => (matchAt_multi_cut text j).2 fun opens q after => none j q opens after)
    (by omega)

/-- What `decomment` deletes, where it deletes nothing between `/*` and `*/`. -/
theorem decommentCuts_lines {text : Str} (none : ∀ p q, BlockOpens text p → p + 3 ≤ q → ¬ BlockCloses text q) :
    decommentCuts text = .ok (lineComments text) := by
  rw [decommentCuts, cuts_block_none none, run_bind_ok, keep_none, cuts_line, run_bind_ok, run_pure,
    ← lineComments_length text, overlay_none]

theorem cuts_block_span {text : Str} {p q : Nat} (span : Span text p q) (filled : p + 3 ≤ q) :
    cuts text (lit "/%*.+%*/") = .ok (List.replicate p false ++
      (List.replicate (q + 2 - p) true ++ List.replicate (text.length - (q + 2)) false)) := by
  have inside := span.closes.inside
  have skipped := cutsFrom_skip text (lit "/%*.+%*/") (text.length + 2 - p) (text.length + 1) 0 p (by omega)
    (fun j _ less => (matchAt_multi_cut text j).2 fun opens => absurd opens (span.first j (by omega))) (by omega)
  have rest := cutsFrom_none text (lit "/%*.+%*/") (text.length + 1 - p) (text.length + 1 - 1) (q + 2)
    (fun j after => (matchAt_multi_cut text j).2 fun _ q' more => span.last q' (by omega)) (by omega)
  have hit : cutsFrom text (lit "/%*.+%*/") (text.length + 1 - p + 1) (text.length + 1) p =
      .ok (List.replicate (q + 2 - p) true ++ List.replicate (text.length - (q + 2)) false) := by
    rw [cutsFrom, if_neg (by omega), (matchAt_multi_cut text p).1 q span.opens filled span.closes span.last]
    dsimp only
    rw [if_pos (by omega), rest]
    rfl
  rw [Nat.zero_add, show text.length + 2 - p = text.length + 1 - p + 1 by omega, hit] at skipped
  rw [cuts, show text.length + 2 = text.length + 1 - p + 1 + p by omega, skipped]
  rfl

theorem keep_span {text : Str} {p q : Nat} (span : Span text p q) :
    keep (List.replicate p false ++
      (List.replicate (q + 2 - p) true ++ List.replicate (text.length - (q + 2)) false)) text =
      text.take p ++ text.drop (q + 2) := by
  have order := span.order
  rw [keep_front, keep_cut, List.drop_drop, Nat.add_sub_cancel' (by omega), ← List.length_drop, keep_none]

/-- It deletes from the first `/*` to the last `*/`, and then the comments to the end of a line in
the text that is left. -/
theorem decommentCuts_span {text : Str} {p q : Nat} (span : Span text p q) (filled : p + 3 ≤ q) :
    decommentCuts text = .ok ((lineComments (text.take p ++ text.drop (q + 2))).take p ++
      (List.replicate (q + 2 - p) true ++ (lineComments (text.take p ++ text.drop (q + 2))).drop p)) := by
  have inside := span.closes.inside
  have length : (lineComments (text.take p ++ text.drop (q + 2))).length = p + (text.length - (q + 2)) := by
    rw [lineComments_length, List.length_append, List.length_take, List.length_drop]
    omega
  have rest : text.length - (q + 2) = ((lineComments (text.take p ++ text.drop (q + 2))).drop p).length := by
    rw [List.length_drop, length]
    omega
  rw [decommentCuts, cuts_block_span span filled, run_bind_ok, keep_span span, cuts_line, run_bind_ok, run_pure,
    overlay_front _ _ _ (by omega), overlay_cut, rest, overlay_none]

/-! What is left of UTF-8. -/

theorem encoded_newline {r : Str} (encoded : Utf8.Encoded r) :
    Utf8.Encoded (r.drop (r.takeWhile (· ≠ 10)).length) := by
  have cut := List.takeWhile_append_dropWhile (p := (· ≠ 10)) (l := r)
  have rest : r.drop (r.takeWhile (· ≠ 10)).length = r.dropWhile (· ≠ 10) := by
    calc
      r.drop (r.takeWhile (· ≠ 10)).length
        = (r.takeWhile (· ≠ 10) ++ r.dropWhile (· ≠ 10)).drop (r.takeWhile (· ≠ 10)).length := by rw [cut]
      _ = r.dropWhile (· ≠ 10) := List.drop_left
  rw [rest]
  cases later : r.dropWhile (· ≠ 10) with
  | nil => exact Utf8.encoded_nil
  | cons b t =>
      have newline : b = 10 := by
        have kept := List.head?_dropWhile_not (· ≠ 10) r
        rw [later] at kept
        simpa using kept
      subst newline
      rw [later] at cut
      have newline : Utf8.Encoded [10] := ⟨[[10]], by decide, rfl⟩
      exact newline.append (Utf8.Encoded.split (by decide) (cut.symm ▸ encoded)).2

/-- Line comments begin at a slash and end before a newline, so that no character is cut. -/
theorem keep_lines_encoded {s : Str} (encoded : Utf8.Encoded s) : Utf8.Encoded (keep (lineComments s) s) := by
  induction size : s.length using Nat.strong_induction_on generalizing s with
  | _ n ih =>
      by_cases begun : ∃ j r, s.drop j = 47 :: 47 :: r
      · obtain ⟨j, ⟨r, here⟩, first⟩ :
            ∃ j, (∃ r, s.drop j = 47 :: 47 :: r) ∧ ∀ k < j, ∀ r, s.drop k ≠ 47 :: 47 :: r := by
          classical
          exact ⟨Nat.find begun, Nat.find_spec begun, fun k less r there => Nat.find_min begun less ⟨r, there⟩⟩
        have shape : s = s.take j ++ 47 :: 47 :: r := by rw [← here, List.take_append_drop]
        have shorter : r.length < s.length := by
          rw [shape, List.length_append, List.length_cons, List.length_cons]
          omega
        have inside : j < s.length := by
          by_contra beyond
          rw [List.drop_eq_nil_of_le (by omega)] at here
          cases here
        have marks := lineMarks_skip (fun _ => true) j s fun k less r there => absurd there (first k less r)
        rw [here, lineMarks, if_pos ⟨rfl, rfl, rfl⟩, lineMarks_within, min_eq_left inside.le] at marks
        have kept : keep (lineComments s) s = s.take j ++
            keep (lineComments (r.drop (r.takeWhile (· ≠ 10)).length)) (r.drop (r.takeWhile (· ≠ 10)).length) := by
          rw [lineComments, marks, keep_front, here]
          exact congrArg (s.take j ++ ·) (keep_cut _ _ r)
        obtain ⟨before, after⟩ := Utf8.Encoded.split (by decide) (shape ▸ encoded)
        have rest := @Utf8.Encoded.split [] r 47 (by decide) after
        rw [kept]
        refine before.append (ih _ ?_ (encoded_newline rest.2) rfl)
        rw [List.length_drop]
        omega
      · have none' := lineMarks_skip (fun _ => true) s.length s fun j _ r here => absurd ⟨j, r, here⟩ begun
        rw [List.drop_length, min_self] at none'
        have kept : keep (lineComments s) s = s := by
          rw [lineComments, none']
          exact (keep_front s.length [] s).trans (by rw [List.take_length, List.drop_length, keep_nil, List.append_nil])
        rwa [kept]

theorem decomment_encoded {text d : Str} (encoded : Utf8.Encoded text) (bare : decomment text = .ok d) :
    Utf8.Encoded d ∧ d.length ≤ text.length := by
  have lines (u : Str) : gsubAll u (lit "//[^\n]*") [] = .ok (keep (lineComments u) u) := by
    rw [gsubAll_cuts, cuts_line]
    rfl
  rw [decomment, gsubAll_cuts] at bare
  have without (none' : ∀ p q, BlockOpens text p → p + 3 ≤ q → ¬ BlockCloses text q) :
      Utf8.Encoded d ∧ d.length ≤ text.length := by
    rw [cuts_block_none none'] at bare
    simp only [Except.map, run_bind_ok, keep_none, lines] at bare
    obtain rfl := Except.ok.inj bare
    exact ⟨keep_lines_encoded encoded, keep_length_le _ _⟩
  rcases span_or_none text with ⟨p, q, span⟩ | spanless
  · by_cases filled : p + 3 ≤ q
    · rw [cuts_block_span span filled] at bare
      simp only [Except.map, run_bind_ok, keep_span span, lines] at bare
      obtain rfl := Except.ok.inj bare
      obtain ⟨inside, slash⟩ := List.getElem?_eq_some_iff.mp span.closes.2
      obtain ⟨inside', slash'⟩ := List.getElem?_eq_some_iff.mp span.opens.1
      have opened : text = text.take p ++ 47 :: text.drop (p + 1) := by
        rw [← slash', ← List.drop_eq_getElem_cons, List.take_append_drop]
      have closed : text = text.take (q + 1) ++ 47 :: text.drop (q + 2) := by
        rw [← slash, ← List.drop_eq_getElem_cons, List.take_append_drop]
      have front := (Utf8.Encoded.split (by decide) (opened ▸ encoded)).1
      have back := (Utf8.Encoded.split (by decide) (closed ▸ encoded)).2
      refine ⟨keep_lines_encoded (front.append back), (keep_length_le _ _).trans ?_⟩
      rw [List.length_append, List.length_take, List.length_drop]
      omega
    · refine without fun p' q' opens after closes => ?_
      have order := span.order
      have least : p ≤ p' := by
        by_contra before
        exact span.first p' (by omega) opens
      have most : q' ≤ q := by
        by_contra beyond
        exact span.last q' (by omega) closes
      omega
  · exact without fun p q opens after => spanless p q opens (by omega)

end Maccer
