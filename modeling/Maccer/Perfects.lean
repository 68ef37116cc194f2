import Maccer.Analyze
import Maccer.History
import Maccer.Lua.Runs
import Maccer.Restoring

/-! Perfect subjunctives: step 3 of `analyze` and `fixprf`. -/

namespace Maccer

open Lua

def shorttbl : List Str := [lit "eris", lit "erimus", lit "eritis"]

def longtbl : List Str := [lit "erīs", lit "erīmus", lit "erītis"]

def preferredtbl (LONG_PERF_SUBJ : Bool) : List Str := if LONG_PERF_SUBJ then longtbl else shorttbl

def opptbl (LONG_PERF_SUBJ : Bool) : List Str := if LONG_PERF_SUBJ then shorttbl else longtbl

structure Ending where
  endlen : Nat
  preferred : Str
  opp : Str

/-- What the loops over `preferredtbl` have at each place of it. -/
def endings (LONG_PERF_SUBJ : Bool) : List Ending :=
  ((preferredtbl LONG_PERF_SUBJ).zip (opptbl LONG_PERF_SUBJ)).mapIdx fun i e => ⟨if i = 0 then 4 else 6, e.1, e.2⟩

/-- `utf8.sub(w, wlen - endlen + 1) == ending`. -/
def endsIn (w : Str) (wlen endlen : Nat) (ending : Str) : Run Bool := do
  let tail ← Utf8.sub w (wlen - endlen + 1) (-1)
  return decide (tail = ending)

/-- What step 3 has found: the words of the history and the calls of `add`. -/
structure Perfects where
  autotbl : Table Str
  PRF_OK : List Str
  PRF_AUTO : List Str
  calls : List Call

def findEnding (oktbl : Table Unit) (wlen : Nat) (w : Str) (f : Perfects) (e : Ending) : Run Perfects := do
  if ← endsIn w wlen e.endlen e.preferred then
    let root ← Utf8.sub w 1 (wlen - e.endlen)
    let oppw := root ++ e.opp
    let calls := f.calls ++ [⟨.PRF, w, none⟩]
    if w ∈ oktbl then return { f with PRF_OK := f.PRF_OK ++ [w] }
    else if oppw ∈ oktbl then return { f with autotbl := assign f.autotbl oppw none, calls }
    else if w ∈ f.autotbl then return { f with PRF_AUTO := f.PRF_AUTO ++ [w] }
    else if oppw ∈ f.autotbl then return { f with autotbl := assign f.autotbl oppw none, calls }
    else return { f with calls }
  else return f

def findPerfect (LONG_PERF_SUBJ : Bool) (oktbl : Table Unit) (f : Perfects) (e : Str × Str) : Run Perfects := do
  match ← lmatch e.1 (lit "(%a+)") with
  | some [plainw] => (endings LONG_PERF_SUBJ).foldlM (findEnding oktbl plainw.length e.2) f
  | _ => throw .raised

def findPerfects (LONG_PERF_SUBJ : Bool) (autotbl : Table Str) (oktbl : Table Unit) (keytbl : Table Str) : Run Perfects :=
  (sortedpairs keytbl).foldlM (findPerfect LONG_PERF_SUBJ oktbl) ⟨autotbl, [], [], []⟩

/-- The word with an ending put in, in the loop of `fixprf`. -/
def putEnding (w : Str) (origwlen : Nat) (replw : Str) (e : Ending) : Run Str := do
  if ← endsIn w origwlen e.endlen e.opp then
    let root ← Utf8.sub w 1 (origwlen - e.endlen)
    return root ++ e.preferred
  else return replw

def fixprf (LONG_PERF_SUBJ : Bool) (w : Str) : Run Str := do
  let origwlen ← Utf8.len w
  (endings LONG_PERF_SUBJ).foldlM (putEnding w origwlen) w

example : fixprf false (lit "cēperīs") = .ok (lit "cēperis") := by decide

/-! Words whose plain words are of ASCII letters. -/

theorem alpha_readable (b : UInt8) (letter : isAlpha b = true) : Utf8.Readable [b] ∧ Utf8.charbytes b = some 1 := by
  have apart : 65 ≤ b ∧ b ≤ 90 ∨ 97 ≤ b ∧ b ≤ 122 := by grind [isAlpha, isUpper, isLower, inRange]
  have one : Utf8.charbytes b = some 1 := by grind [Utf8.charbytes]
  refine ⟨?_, one⟩
  simp only [Utf8.Readable, Utf8.isChar, decide_eq_true_eq, ne_eq, List.cons.injEq, and_true]
  grind

theorem char_of_alpha {last : Prop} {c : Str} (char : Utf8.Char last c) (letters : ∀ b ∈ c, isAlpha b = true) :
    Utf8.Readable c ∧ c.length = 1 := by
  obtain ⟨b, tail, n, rfl, size, long⟩ := char.lead
  obtain ⟨readable, single⟩ := alpha_readable b (letters b List.mem_cons_self)
  obtain rfl : 1 = n := Option.some.inj (single.symm.trans size)
  have one : (b :: tail).length = 1 := by
    rw [List.length_cons] at long ⊢
    omega
  obtain rfl : tail = [] := List.eq_nil_of_length_eq_zero (by simpa using one)
  exact ⟨readable, rfl⟩

theorem letters_chars {ps : List Str} (decodes : Utf8.Decodes ps) (letters : ∀ b ∈ ps.flatten, isAlpha b = true) :
    (∀ c ∈ ps, Utf8.Readable c) ∧ ps.flatten.length = ps.length := by
  induction ps with
  | nil => simp
  | cons c ps ih =>
      rw [List.flatten_cons] at letters
      obtain ⟨char, later⟩ := decodes
      obtain ⟨readable, one⟩ := char_of_alpha char fun b member => letters b (List.mem_append_left _ member)
      obtain ⟨all, length⟩ := ih later fun b member => letters b (List.mem_append_right _ member)
      refine ⟨List.forall_mem_cons.mpr ⟨readable, all⟩, ?_⟩
      rw [List.flatten_cons, List.length_append, one, length, List.length_cons, Nat.add_comm]

theorem letters_readable {w p : Str} (same : plain w = .ok p) (letters : ∀ b ∈ p, isAlpha b = true) :
    ∃ cs : List Str, (∀ c ∈ cs, Utf8.Readable c) ∧ w = cs.flatten ∧ p.length = cs.length := by
  obtain ⟨ws, _, rfl, decodes, rfl⟩ := plain_chars same
  obtain ⟨readable, length⟩ := letters_chars decodes letters
  refine ⟨ws, fun c member => plainChar_readable.mp (readable _ (List.mem_map_of_mem member)), rfl, ?_⟩
  rw [length, List.length_map]

/-! Endings. -/

theorem flatten_injective {cs ds : List Str} (readable : ∀ c ∈ cs, Utf8.Readable c) (readable' : ∀ d ∈ ds, Utf8.Readable d) :
    cs.flatten = ds.flatten ↔ cs = ds := by
  refine ⟨fun same => ?_, fun same => same ▸ rfl⟩
  have left := Utf8.chars_flatten cs readable
  rw [same, Utf8.chars_flatten ds readable'] at left
  exact (Prod.mk.inj left).1.symm

structure EndingChars (ending : Str) (es : List Str) : Prop where
  readable : ∀ c ∈ es, Utf8.Readable c
  joined : es.flatten = ending
  first : ∃ b tail, Utf8.Readable [b] ∧ ending = b :: tail

theorem suffix_chars {cs es : List Str} {ending : Str} (readable : ∀ c ∈ cs, Utf8.Readable c)
    (chars : EndingChars ending es) : ending <:+ cs.flatten ↔ ∃ front, cs = front ++ es := by
  obtain ⟨readable', rfl, b, tail, low, shape⟩ := chars
  constructor
  · rintro ⟨front, joined⟩
    rw [shape] at joined
    obtain ⟨before, after, rfl, _, rest⟩ := Utf8.flatten_split (fun c member => (readable c member).1) low joined.symm
    have same : ([b] :: after).flatten = es.flatten := by
      rw [shape, ← rest]
      rfl
    rw [flatten_injective (fun c member => readable c (List.mem_append_right before member)) readable'] at same
    exact ⟨before, by rw [same]⟩
  · rintro ⟨front, rfl⟩
    rw [List.flatten_append]
    exact List.suffix_append _ _

theorem endsIn_iff {cs es : List Str} {ending : Str} (readable : ∀ c ∈ cs, Utf8.Readable c) (chars : EndingChars ending es) :
    ∃ found, endsIn cs.flatten cs.length es.length ending = .ok found ∧ (found = true ↔ ending <:+ cs.flatten) := by
  have decodes := Utf8.decodes_of_readable readable
  have same (k : Nat) : (cs.drop k).flatten = ending ↔ cs.drop k = es := by
    rw [← chars.joined]
    exact flatten_injective (fun c member => readable c (List.mem_of_mem_drop member)) chars.readable
  rw [suffix_chars readable chars]
  by_cases room : es.length ≤ cs.length
  · have place : (cs.length : Int) - es.length + 1 = (cs.length - es.length : Nat) + 1 := by omega
    refine ⟨decide ((cs.drop (cs.length - es.length)).flatten = ending), ?_, ?_⟩
    · rw [endsIn, place, Utf8.sub_from decodes]
      rfl
    · rw [decide_eq_true_iff, same]
      constructor
      · intro rest
        have parts := List.take_append_drop (cs.length - es.length) cs
        rw [rest] at parts
        exact ⟨_, parts.symm⟩
      · rintro ⟨front, rfl⟩
        rw [List.length_append, Nat.add_sub_cancel, List.drop_left]
  · obtain ⟨k, cut⟩ := Utf8.sub_before decodes ((cs.length : Int) - es.length + 1) (by omega)
    refine ⟨decide ((cs.drop k).flatten = ending), ?_, ?_⟩
    · rw [endsIn, cut]
      rfl
    · rw [decide_eq_true_iff, same]
      constructor
      · intro rest
        have short := List.length_drop (i := k) (l := cs)
        rw [rest] at short
        omega
      · rintro ⟨front, rfl⟩
        rw [List.length_append] at room
        omega

theorem endings_chars (LONG_PERF_SUBJ : Bool) : ∀ e ∈ endings LONG_PERF_SUBJ,
    (∃ es : List Str, EndingChars e.preferred es ∧ es.length = e.endlen) ∧
      ∃ es : List Str, EndingChars e.opp es ∧ es.length = e.endlen := by
  have checked : ∀ long : Bool, ∀ e ∈ endings long, ∀ ending ∈ [e.preferred, e.opp],
      (∀ c ∈ (Utf8.chars ending).1, Utf8.Readable c) ∧ (Utf8.chars ending).1.flatten = ending ∧
      ending.head? = some 101 ∧ (Utf8.chars ending).1.length = e.endlen := by
    decide
  intro e member
  have each (ending : Str) (one : ending ∈ [e.preferred, e.opp]) :
      ∃ es : List Str, EndingChars ending es ∧ es.length = e.endlen := by
    obtain ⟨readable, joined, first, length⟩ := checked LONG_PERF_SUBJ e member ending one
    obtain ⟨tail, shape⟩ := List.head?_eq_some_iff.mp first
    exact ⟨_, ⟨readable, joined, 101, tail, by decide, shape⟩, length⟩
  exact ⟨each _ (by simp), each _ (by simp)⟩

/-! The word of a key. -/

theorem lmatch_letters {p rest : Str} (filled : p ≠ []) (letters : ∀ b ∈ p, isAlpha b = true)
    (ended : ∀ b ∈ rest.head?, isAlpha b = false) : lmatch (p ++ rest) (lit "(%a+)") = .ok (some [p]) := by
  obtain ⟨c, p, rfl⟩ := List.exists_cons_of_ne_nil filled
  have shape : lit "(%a+)" = 40 :: 37 :: 97 :: 43 :: [41] := by decide
  generalize whole : c :: p ++ rest = s
  have front : s.drop 1 = p ++ rest := by
    rw [← whole]
    rfl
  have run : repeated s 1 isAlpha = p.length := by
    have stopped : rest.takeWhile isAlpha = [] := by
      cases rest with
      | nil => rfl
      | cons d rest => rw [List.takeWhile_cons, ended d rfl, if_neg Bool.false_ne_true]
    rw [repeated, front, List.takeWhile_append_of_pos fun b member => letters b (by simp [member]), stopped,
      List.append_nil]
  have first : (s[0]?).any isAlpha = true := by
    rw [← whole]
    exact letters c (by simp)
  have found : matchAt s (lit "(%a+)") 0 = .ok (.some (1 + p.length, [⟨0, .closed (1 + p.length)⟩])) := by
    have alpha (b : UInt8) : matchClass b 97 = isAlpha b := rfl
    have step := matchHere_class_plus (s := s) 4 0 ([] ++ [⟨0, .unfinished⟩]) 97 [41] (by decide) (by decide) (by decide)
    rw [matchAt, shape, matchHere_open _ _ _ _ _ (by decide)]
    refine step.trans ?_
    simp only [alpha]
    rw [if_pos first, run]
    apply maxExpand_longest _ _ _ p.length _ le_rfl
    · rw [Nat.zero_add, matchHere_close, matchHere_nil]
      rfl
    · simp
    · intro k above bound
      omega
  rw [lmatch_of_first s _ 0 _ _ (by decide) (Nat.zero_le _) found (by simp)]
  have word : (s.drop 0).take (1 + p.length) = c :: p := by
    rw [List.drop_zero, ← whole, Nat.add_comm, ← List.length_cons, List.take_left]
  simp only [captured, List.map_cons, List.map_nil, word]
  rfl

theorem lmatch_key {p : Str} (filled : p ≠ []) (letters : ∀ b ∈ p, isAlpha b = true) (n : Nat) :
    lmatch (slot p n) (lit "(%a+)") = .ok (some [p]) := by
  by_cases zero : n = 0
  · rw [zero, slot_zero]
    have alone := lmatch_letters filled letters (by simp : ∀ b ∈ ([] : Str).head?, isAlpha b = false)
    rwa [List.append_nil] at alone
  · rw [slot_pos p n zero]
    apply lmatch_letters filled letters
    intro b first
    have digit := decimal_digits n b (List.mem_of_mem_head? first)
    exact digit_not_alpha b digit

/-! What step 3 reports. -/

def Reported (f : Perfects) (w : Str) : Prop := (⟨.PRF, w, none⟩ : Call) ∈ f.calls

instance (f : Perfects) (w : Str) : Decidable (Reported f w) :=
  inferInstanceAs (Decidable ((⟨.PRF, w, none⟩ : Call) ∈ f.calls))

structure Turn (w : Str) (f f' : Perfects) : Prop where
  auto : ∀ v ∈ f'.autotbl, v ∈ f.autotbl
  others : ∀ v, v ≠ w → (Reported f' v ↔ Reported f v)

theorem Turn.refl (w : Str) (f : Perfects) : Turn w f f := ⟨fun _ member => member, fun _ _ => Iff.rfl⟩

theorem Turn.trans {w : Str} {f g f' : Perfects} (first : Turn w f g) (later : Turn w g f') : Turn w f f' :=
  ⟨fun v member => first.auto v (later.auto v member), fun v apart => (later.others v apart).trans (first.others v apart)⟩

theorem reported_call (f : Perfects) (w v : Str) :
    (⟨.PRF, v, none⟩ : Call) ∈ f.calls ++ [⟨.PRF, w, none⟩] ↔ Reported f v ∨ v = w := by
  rw [List.mem_append, List.mem_singleton, Call.mk.injEq, Reported]
  simp

theorem findEnding_turn {oktbl : Table Unit} {wlen : Nat} {w : Str} {f f' : Perfects} {e : Ending}
    (ran : findEnding oktbl wlen w f e = .ok f') : Turn w f f' := by
  rw [findEnding] at ran
  obtain ⟨found, _, ran⟩ := bind_eq_ok.mp ran
  cases found with
  | false =>
      cases ran
      exact .refl w f
  | true =>
      rw [if_pos rfl] at ran
      obtain ⟨root, _, ran⟩ := bind_eq_ok.mp ran
      have fewer (k : Str) : ∀ v ∈ assign f.autotbl k none, v ∈ f.autotbl :=
        fun v member => ((mem_assign_none f.autotbl k v).mp member).1
      have more (v : Str) (apart : v ≠ w) : (⟨.PRF, v, none⟩ : Call) ∈ f.calls ++ [⟨.PRF, w, none⟩] ↔ Reported f v := by
        rw [reported_call, or_iff_left apart]
      simp only [] at ran
      split at ran
      case isTrue =>
        cases ran
        exact ⟨fun _ member => member, fun _ _ => Iff.rfl⟩
      case isFalse =>
        split at ran
        case isTrue =>
          cases ran
          exact ⟨fewer _, more⟩
        case isFalse =>
          split at ran
          case isTrue =>
            cases ran
            exact ⟨fun _ member => member, fun _ _ => Iff.rfl⟩
          case isFalse =>
            split at ran
            case isTrue =>
              cases ran
              exact ⟨fewer _, more⟩
            case isFalse =>
              cases ran
              exact ⟨fun _ member => member, more⟩

theorem root_run {cs es : List Str} {ending : Str} (readable : ∀ c ∈ cs, Utf8.Readable c) (chars : EndingChars ending es)
    (ends : ending <:+ cs.flatten) : ∃ root, Utf8.sub cs.flatten 1 (cs.length - es.length) = .ok root ∧
      cs.flatten = root ++ ending := by
  obtain ⟨front, rfl⟩ := (suffix_chars readable chars).mp ends
  have place : ((front ++ es).length : Int) - es.length = front.length := by
    rw [List.length_append]
    omega
  have cut := Utf8.sub_upto (Utf8.decodes_of_readable readable) front.length (by simp)
  rw [List.take_left] at cut
  exact ⟨front.flatten, by rw [place, cut], by rw [List.flatten_append, chars.joined]⟩

section

variable {LONG_PERF_SUBJ : Bool} {oktbl : Table Unit} {cs : List Str} (readable : ∀ c ∈ cs, Utf8.Readable c)
  (notOk : cs.flatten ∉ oktbl)
include readable notOk

theorem findEnding_run {e : Ending} (member : e ∈ endings LONG_PERF_SUBJ) {f : Perfects} (notAuto : cs.flatten ∉ f.autotbl) :
    ∃ f', findEnding oktbl cs.length cs.flatten f e = .ok f' ∧
      (Reported f' cs.flatten ↔ Reported f cs.flatten ∨ e.preferred <:+ cs.flatten) := by
  obtain ⟨⟨es, chars, length⟩, _⟩ := endings_chars LONG_PERF_SUBJ e member
  obtain ⟨found, ran, ends⟩ := endsIn_iff readable chars
  rw [length] at ran
  rw [findEnding, ran, run_bind_ok, ← ends]
  cases found with
  | false => exact ⟨f, rfl, by simp⟩
  | true =>
      obtain ⟨root, cut, _⟩ := root_run readable chars (ends.mp rfl)
      rw [length] at cut
      have now : Reported ⟨f.autotbl, f.PRF_OK, f.PRF_AUTO, f.calls ++ [⟨.PRF, cs.flatten, none⟩]⟩ cs.flatten :=
        (reported_call f _ _).mpr (.inr rfl)
      rw [if_pos rfl, cut, run_bind_ok, if_neg notOk, if_neg notAuto]
      split
      case isTrue => exact ⟨_, rfl, iff_of_true now (.inr rfl)⟩
      case isFalse =>
        split
        case isTrue => exact ⟨_, rfl, iff_of_true now (.inr rfl)⟩
        case isFalse => exact ⟨_, rfl, iff_of_true now (.inr rfl)⟩

theorem findEndings_run (list : List Ending) (members : ∀ e ∈ list, e ∈ endings LONG_PERF_SUBJ) {f : Perfects}
    (notAuto : cs.flatten ∉ f.autotbl) : ∃ f', list.foldlM (findEnding oktbl cs.length cs.flatten) f = .ok f' ∧
      Turn cs.flatten f f' ∧ (Reported f' cs.flatten ↔ Reported f cs.flatten ∨ ∃ e ∈ list, e.preferred <:+ cs.flatten) := by
  induction list generalizing f with
  | nil => exact ⟨f, rfl, .refl _ f, by simp⟩
  | cons e list ih =>
      obtain ⟨next, ran, reported⟩ := findEnding_run readable notOk (members e List.mem_cons_self) notAuto
      have turn := findEnding_turn ran
      obtain ⟨last, ran', turn', reported'⟩ := ih (fun e' member => members e' (List.mem_cons_of_mem e member))
        fun listed => notAuto (turn.auto _ listed)
      refine ⟨last, ?_, turn.trans turn', ?_⟩
      · rw [List.foldlM_cons, ran]
        exact ran'
      · rw [reported', reported, List.exists_mem_cons_iff, or_assoc]

end

theorem findEndings_turn {oktbl : Table Unit} {wlen : Nat} {w : Str} (list : List Ending) {f f' : Perfects}
    (ran : list.foldlM (findEnding oktbl wlen w) f = .ok f') : Turn w f f' := by
  induction list generalizing f with
  | nil =>
      cases ran
      exact .refl w _
  | cons e list ih =>
      rw [List.foldlM_cons] at ran
      obtain ⟨next, step, ran⟩ := bind_eq_ok.mp ran
      exact (findEnding_turn step).trans (ih ran)

theorem findPerfect_turn {LONG_PERF_SUBJ : Bool} {oktbl : Table Unit} {f f' : Perfects} {e : Str × Str}
    (ran : findPerfect LONG_PERF_SUBJ oktbl f e = .ok f') : Turn e.2 f f' := by
  rw [findPerfect] at ran
  obtain ⟨found, _, ran⟩ := bind_eq_ok.mp ran
  split at ran
  · exact findEndings_turn _ ran
  · cases ran

/-- Among the entries of the key, those of a word report it just when it ends in a preferred ending. -/
theorem findPerfects_run {LONG_PERF_SUBJ : Bool} {oktbl : Table Unit} {w p : Str} (same : plain w = .ok p) (filled : p ≠ [])
    (letters : ∀ b ∈ p, isAlpha b = true) (notOk : w ∉ oktbl) (entries : List (Str × Str))
    (keyed : ∀ e ∈ entries, e.2 = w → ∃ n, e.1 = slot p n) {f f' : Perfects} (notAuto : w ∉ f.autotbl)
    (ran : entries.foldlM (findPerfect LONG_PERF_SUBJ oktbl) f = .ok f') :
    Reported f' w ↔ Reported f w ∨ (∃ e ∈ entries, e.2 = w) ∧ ∃ e ∈ endings LONG_PERF_SUBJ, e.preferred <:+ w := by
  induction entries generalizing f with
  | nil =>
      cases ran
      simp
  | cons e entries ih =>
      rw [List.foldlM_cons] at ran
      obtain ⟨next, step, ran⟩ := bind_eq_ok.mp ran
      have turn := findPerfect_turn step
      rw [ih (fun e' member => keyed e' (List.mem_cons_of_mem e member)) (fun listed => notAuto (turn.auto _ listed)) ran,
        List.exists_mem_cons_iff]
      by_cases here : e.2 = w
      · obtain ⟨n, key⟩ := keyed e List.mem_cons_self here
        obtain ⟨cs, readable, rfl, length⟩ := letters_readable same letters
        rw [findPerfect, key, here, lmatch_key filled letters, run_bind_ok] at step
        obtain ⟨next', ran', _, reported⟩ := findEndings_run readable notOk _ (fun e member => member) notAuto
        simp only [length] at step
        rw [ran'] at step
        cases step
        rw [reported]
        simp only [here, true_or, true_and]
        exact or_iff_left_of_imp fun both => .inr both.2
      · rw [turn.others w (Ne.symm here)]
        simp only [here, false_or]

/-! What `fixprf` gives. -/

section

variable {LONG_PERF_SUBJ : Bool} {cs : List Str} (readable : ∀ c ∈ cs, Utf8.Readable c)
include readable

theorem putEnding_run {e : Ending} (member : e ∈ endings LONG_PERF_SUBJ) (replw : Str) :
    ∃ replw', putEnding cs.flatten cs.length replw e = .ok replw' ∧
      (¬ e.opp <:+ cs.flatten → replw' = replw) ∧
      (e.opp <:+ cs.flatten → ∃ root, cs.flatten = root ++ e.opp ∧ replw' = root ++ e.preferred) := by
  obtain ⟨_, es, chars, length⟩ := endings_chars LONG_PERF_SUBJ e member
  obtain ⟨found, ran, ends⟩ := endsIn_iff readable chars
  rw [length] at ran
  rw [putEnding, ran, run_bind_ok, ← ends]
  cases found with
  | false => exact ⟨replw, rfl, by simp, by simp⟩
  | true =>
      obtain ⟨root, cut, joined⟩ := root_run readable chars (ends.mp rfl)
      rw [length] at cut
      rw [if_pos rfl, cut]
      exact ⟨root ++ e.preferred, rfl, by simp, fun _ => ⟨root, joined, rfl⟩⟩

/-- A word that ends in none of the other endings stays; one that does becomes another word. -/
theorem putEndings_run (list : List Ending) (members : ∀ e ∈ list, e ∈ endings LONG_PERF_SUBJ) (replw : Str) :
    ∃ replw', list.foldlM (putEnding cs.flatten cs.length) replw = .ok replw' ∧
      ((∀ e ∈ list, ¬ e.opp <:+ cs.flatten) → replw' = replw) ∧
      ((∃ e ∈ list, e.opp <:+ cs.flatten) → replw' ≠ cs.flatten) := by
  induction list generalizing replw with
  | nil => exact ⟨replw, rfl, fun _ => rfl, by simp⟩
  | cons e list ih =>
      have member := members e List.mem_cons_self
      obtain ⟨next, ran, same, changed⟩ := putEnding_run readable member replw
      obtain ⟨last, ran', same', changed'⟩ := ih (fun e' listed => members e' (List.mem_cons_of_mem e listed)) next
      refine ⟨last, ?_, fun none => ?_, fun some => ?_⟩
      · rw [List.foldlM_cons, ran]
        exact ran'
      · obtain ⟨here, later⟩ := List.forall_mem_cons.mp none
        exact (same' later).trans (same here)
      · by_cases later : ∃ e' ∈ list, e'.opp <:+ cs.flatten
        · exact changed' later
        · have here := ((List.exists_mem_cons_iff _ _ _).mp some).resolve_right later
          obtain ⟨root, joined, result⟩ := changed here
          rw [same' fun e' listed ends => later ⟨e', listed, ends⟩, result, joined]
          intro equal
          have apart : ∀ long : Bool, ∀ e ∈ endings long, e.preferred ≠ e.opp := by decide
          exact apart LONG_PERF_SUBJ e member (List.append_cancel_left equal)

theorem fixprf_run : ∃ replw, fixprf LONG_PERF_SUBJ cs.flatten = .ok replw ∧
    (replw ≠ cs.flatten ↔ ∃ e ∈ endings LONG_PERF_SUBJ, e.opp <:+ cs.flatten) := by
  obtain ⟨replw, ran, same, changed⟩ :=
    putEndings_run readable (endings LONG_PERF_SUBJ) (fun e member => member) cs.flatten
  refine ⟨replw, ?_, fun apart => ?_, changed⟩
  · rw [fixprf, Utf8.len_decodes (Utf8.decodes_of_readable readable)]
    exact ran
  · by_contra none
    exact apart (same fun e member ends => none ⟨e, member, ends⟩)

end

theorem endings_preferred (LONG_PERF_SUBJ : Bool) (w : Str) : (∃ e ∈ endings LONG_PERF_SUBJ, e.preferred <:+ w) ↔
    ∃ ending ∈ preferredtbl LONG_PERF_SUBJ, ending <:+ w := by
  have same : (endings LONG_PERF_SUBJ).map Ending.preferred = preferredtbl LONG_PERF_SUBJ := by
    cases LONG_PERF_SUBJ <;> rfl
  rw [← same]
  simp

theorem endings_opp (LONG_PERF_SUBJ : Bool) (w : Str) : (∃ e ∈ endings LONG_PERF_SUBJ, e.opp <:+ w) ↔
    ∃ ending ∈ opptbl LONG_PERF_SUBJ, ending <:+ w := by
  have same : (endings LONG_PERF_SUBJ).map Ending.opp = opptbl LONG_PERF_SUBJ := by
    cases LONG_PERF_SUBJ <;> rfl
  rw [← same]
  simp

theorem endings_apart {LONG_PERF_SUBJ : Bool} {w : Str} (preferred : ∃ ending ∈ preferredtbl LONG_PERF_SUBJ, ending <:+ w) :
    ¬ ∃ ending ∈ opptbl LONG_PERF_SUBJ, ending <:+ w := by
  obtain ⟨x, listed, ends⟩ := preferred
  rintro ⟨y, other, ends'⟩
  have apart : ∀ long : Bool, ∀ x ∈ preferredtbl long, ∀ y ∈ opptbl long, ¬ x <:+ y ∧ ¬ y <:+ x := by decide
  obtain ⟨left, right⟩ := apart LONG_PERF_SUBJ x listed y other
  exact (List.suffix_or_suffix_of_suffix ends ends').elim left right

/-- Step 3 and `fixprf` agree on a word: it is reported when it is changed, and the word that it is changed
to ends in a preferred ending, has the same plain word and is not reported. -/
structure Agrees (LONG_PERF_SUBJ : Bool) (f : Perfects) (w p replw : Str) : Prop where
  reported : Reported f w ↔ replw ≠ w
  preferred : Reported f w → ∃ ending ∈ preferredtbl LONG_PERF_SUBJ, ending <:+ replw
  plain : Reported f w → plain replw = .ok p
  settled : Reported f w → ∀ e ∈ endings LONG_PERF_SUBJ, endsIn replw p.length e.endlen e.preferred = .ok false

/-- They agree on a word just when it ends in no ending of either table. -/
theorem agrees_iff (LONG_PERF_SUBJ : Bool) (autotbl : Table Str) (oktbl : Table Unit) (keytbl : Table Str)
    (wf : WellFormed keytbl) (f : Perfects) (ran : findPerfects LONG_PERF_SUBJ autotbl oktbl keytbl = .ok f) (w p : Str)
    (stored : Stored keytbl w) (same : plain w = .ok p) (filled : p ≠ []) (letters : ∀ b ∈ p, isAlpha b = true)
    (new : w ∉ autotbl ∧ w ∉ oktbl) :
    ∃ replw, fixprf LONG_PERF_SUBJ w = .ok replw ∧
      (Agrees LONG_PERF_SUBJ f w p replw ↔ ∀ ending ∈ preferredtbl LONG_PERF_SUBJ ++ opptbl LONG_PERF_SUBJ, ¬ ending <:+ w) := by
  have key (k v : Str) : (k, v) ∈ sortedpairs keytbl ↔ field keytbl k = some v := mem_pairs _ keytbl k v
  have keyed : ∀ e ∈ sortedpairs keytbl, e.2 = w → ∃ n, e.1 = slot p n := by
    rintro ⟨k, v⟩ member rfl
    have found := (key k v).mp member
    obtain ⟨q, n, word, rfl⟩ := wf.numbered k (mem_of_field found)
    have plains := wf.demacronises q n v word found
    obtain rfl : p = q := Except.ok.inj (same.symm.trans plains)
    exact ⟨n, rfl⟩
  have present : ∃ e ∈ sortedpairs keytbl, e.2 = w := by
    obtain ⟨k, found⟩ := stored
    exact ⟨(k, w), (key k w).mpr found, rfl⟩
  have reported := findPerfects_run same filled letters new.2 _ keyed new.1 ran
  have start : ¬ Reported ⟨autotbl, [], [], []⟩ w := List.not_mem_nil
  rw [or_iff_right start, and_iff_right present, endings_preferred] at reported
  obtain ⟨cs, readable, rfl, _⟩ := letters_readable same letters
  obtain ⟨replw, fixed, changed⟩ := @fixprf_run LONG_PERF_SUBJ cs readable
  rw [endings_opp] at changed
  refine ⟨replw, fixed, fun agrees ending member ends => ?_, fun none => ?_⟩
  · have both := agrees.reported
    rw [reported, changed] at both
    cases List.mem_append.mp member with
    | inl preferred =>
        have here : ∃ ending ∈ preferredtbl LONG_PERF_SUBJ, ending <:+ cs.flatten := ⟨ending, preferred, ends⟩
        exact endings_apart here (both.mp here)
    | inr opp =>
        have here : ∃ ending ∈ opptbl LONG_PERF_SUBJ, ending <:+ cs.flatten := ⟨ending, opp, ends⟩
        exact endings_apart (both.mpr here) here
  · have unreported : ¬ Reported f cs.flatten := by
      rw [reported]
      rintro ⟨ending, member, ends⟩
      exact none ending (List.mem_append_left _ member) ends
    have unchanged : ¬ replw ≠ cs.flatten := by
      rw [changed]
      rintro ⟨ending, member, ends⟩
      exact none ending (List.mem_append_right _ member) ends
    exact ⟨iff_of_false unreported unchanged, fun here => absurd here unreported, fun here => absurd here unreported,
      fun here => absurd here unreported⟩

theorem agrees_amo : ∃ f replw, findPerfects false ∅ ∅ (learnForm ∅ (lit "amō") (lit "amo")) = .ok f ∧
    fixprf false (lit "amō") = .ok replw ∧ Agrees false f (lit "amō") (lit "amo") replw := by
  have same : plain (lit "amō") = .ok (lit "amo") := by decide
  have wf := wellFormed_empty.learnForm same (by decide)
  have returns : (findPerfects false ∅ ∅ (learnForm ∅ (lit "amō") (lit "amo"))).toBool = true := by decide
  obtain ⟨f, ran⟩ := exists_ok returns
  obtain ⟨replw, fixed, agrees⟩ := agrees_iff false ∅ ∅ _ wf f ran (lit "amō") (lit "amo") ⟨lit "amo", by decide⟩ same
    (by decide) (List.all_eq_true.mp (by decide)) ⟨by decide, by decide⟩
  exact ⟨f, replw, ran, fixed, agrees.mpr (by decide)⟩

/-- Where short endings are preferred, `cēperis` is reported, and not changed. -/
theorem agrees_ceperis : ¬ ∀ (LONG_PERF_SUBJ : Bool) (h : History) (keytbl : Table Str) (f : Perfects) (w p : Str),
    WellFormed keytbl → findPerfects LONG_PERF_SUBJ h.autotbl h.oktbl keytbl = .ok f → Stored keytbl w →
    plain w = .ok p → p ≠ [] → (∀ b ∈ p, isAlpha b = true) →
    w ∉ h.abvtbl → w ∉ h.enctbl → w ∉ h.autotbl → w ∉ h.oktbl →
    ∃ replw, fixprf LONG_PERF_SUBJ w = .ok replw ∧ Agrees LONG_PERF_SUBJ f w p replw := by
  intro claim
  have same : plain (lit "cēperis") = .ok (lit "ceperis") := by decide
  have wf := wellFormed_empty.learnForm same (by decide)
  have run : (do
      let f ← findPerfects false ∅ ∅ (learnForm ∅ (lit "cēperis") (lit "ceperis"))
      let replw ← fixprf false (lit "cēperis")
      return (decide (Reported f (lit "cēperis")), replw)) = .ok (true, lit "cēperis") := by
    decide
  obtain ⟨f, ran, run⟩ := bind_eq_ok.mp run
  obtain ⟨replw, fixed, run⟩ := bind_eq_ok.mp run
  obtain ⟨reported, unchanged⟩ := Prod.mk.inj (Except.ok.inj run)
  obtain ⟨replw', fixed', agrees⟩ := claim false .empty _ f (lit "cēperis") (lit "ceperis") wf ran
    ⟨lit "ceperis", by decide⟩ same (by decide) (List.all_eq_true.mp (by decide)) (by decide) (by decide) (by decide) (by decide)
  obtain rfl : replw = replw' := Except.ok.inj (fixed.symm.trans fixed')
  exact agrees.reported.mp (of_decide_eq_true reported) unchanged

end Maccer
