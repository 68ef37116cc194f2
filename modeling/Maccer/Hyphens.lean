import Maccer.Characters
import Maccer.Lua.Exchange
import Maccer.Mac

/-! The formatting functions that both versions of the program have: hyphens to macrons,
and flags and macrons removed. -/

namespace Maccer

open Lua

/-- The substitutions of `macra.hyphens2macs`, in their order: what a hyphen follows and
what is put in for both. -/
def hyphenPairs : List (Str × Str) :=
  [(lit "a", lit "ā"), (lit "e", lit "ē"), (lit "i", lit "ī"), (lit "o", lit "ō"), (lit "u", lit "ū"), (lit "y", lit "ȳ"),
    (lit "ã", lit "ā"), (lit "ẽ", lit "ē"), (lit "ĩ", lit "ī"), (lit "õ", lit "ō"), (lit "ũ", lit "ū"), (lit "ỹ", lit "ȳ"),
    (lit "A", lit "Ā"), (lit "E", lit "Ē"), (lit "I", lit "Ī"), (lit "O", lit "Ō"), (lit "U", lit "Ū"), (lit "Y", lit "Ȳ"),
    (lit "Ã", lit "Ā"), (lit "Ẽ", lit "Ē"), (lit "Ĩ", lit "Ī"), (lit "Õ", lit "Ō"), (lit "Ũ", lit "Ū"), (lit "Ỹ", lit "Ȳ")]

/-- A chain of `gsub(letter.."%-", macron)`. -/
def putMacrons (pairs : List (Str × Str)) (text : Str) : Run Str :=
  pairs.foldlM (fun text pair => gsubAll text (pair.1 ++ lit "%-") pair.2) text

/-- `macra.hyphens2macs`; an escaped hyphen is a hyphen in the end. -/
def hyphens2macs (text : Str) : Run Str := do
  let text ← putMacrons hyphenPairs text
  gsubAll text (lit "\\%-") (lit "-")

/-! One substitution. -/

theorem prefix_hyphen (v s : Str) (i : Nat) :
    v ++ [45] <+: s.drop i ↔ v <+: s.drop i ∧ s[i + v.length]? = some 45 := by
  constructor
  · rintro ⟨rest, joined⟩
    rw [List.append_assoc] at joined
    refine ⟨⟨_, joined⟩, ?_⟩
    rw [← List.getElem?_drop, ← joined, List.getElem?_append_right le_rfl, Nat.sub_self]
    rfl
  · rintro ⟨⟨rest, joined⟩, hyphen⟩
    rw [← List.getElem?_drop, ← joined, List.getElem?_append_right le_rfl, Nat.sub_self,
      ← List.head?_eq_getElem?] at hyphen
    obtain ⟨rest, rfl⟩ := List.head?_eq_some_iff.mp hyphen
    exact ⟨rest, by rw [← joined, List.append_assoc]; rfl⟩

theorem means_hyphen {v : Str} (plain : ∀ b ∈ v, isMagic b = false ∧ isMark (some b) = false) :
    MeansWord (v ++ lit "%-") (v ++ [45]) := by
  intro s i
  have escape : lit "%-" = [37, 45] := by decide
  have fuel : (v ++ [37, 45]).length + 1 = 3 + v.length := by
    simp only [List.length_append, List.length_cons, List.length_nil]
    omega
  rw [escape, matchAt, fuel, matchHere_literals s 3 i [] v [37, 45] plain rfl]
  by_cases here : v <+: s.drop i
  · rw [if_pos here, matchHere_escape s 2 _ [] 45 [] (by decide) rfl, matchHere_nil]
    by_cases hyphen : s[i + v.length]? = some 45
    · rw [if_pos hyphen, if_pos ((prefix_hyphen v s i).mpr ⟨here, hyphen⟩), List.length_append, Nat.add_assoc]
      rfl
    · rw [if_neg hyphen, if_neg fun both => hyphen ((prefix_hyphen v s i).mp both).2]
  · rw [if_neg here, if_neg fun both => here ((prefix_hyphen v s i).mp both).1]

structure Marks (v m : Str) : Prop where
  letter : Utf8.Readable v
  macron : Utf8.Readable m
  literal : ∀ b ∈ v, isMagic b = false ∧ isMark (some b) = false
  other : 45 ∉ v ∧ 92 ∉ v
  other' : 37 ∉ m ∧ 45 ∉ m ∧ 92 ∉ m

theorem hyphenPairs_marks : ∀ pair ∈ hyphenPairs, Marks pair.1 pair.2 := by
  have checked : ∀ pair ∈ hyphenPairs, Utf8.Readable pair.1 ∧ Utf8.Readable pair.2 ∧
      (∀ b ∈ pair.1, isMagic b = false ∧ isMark (some b) = false) ∧ (45 ∉ pair.1 ∧ 92 ∉ pair.1) ∧
      37 ∉ pair.2 ∧ 45 ∉ pair.2 ∧ 92 ∉ pair.2 := by
    decide +kernel
  intro pair member
  obtain ⟨letter, macron, literal, other, other'⟩ := checked pair member
  exact ⟨letter, macron, literal, other, other'⟩

theorem gsub_hyphen {v m : Str} (marks : Marks v m) (text : Str) :
    gsubAll text (v ++ lit "%-") m = .ok (exchange (v ++ [45]) m 0 text) :=
  gsubAll_exchange (means_hyphen marks.literal) (by simp) marks.other'.1 text

theorem gsub_escaped (text : Str) : gsubAll text (lit "\\%-") (lit "-") = .ok (exchange [92, 45] [45] 0 text) := by
  have backslash : ∀ b ∈ [(92 : UInt8)], isMagic b = false ∧ isMark (some b) = false := by
    intro b member
    rw [List.mem_singleton.mp member]
    decide
  have means : MeansWord (lit "\\%-") [92, 45] := means_hyphen backslash
  exact gsubAll_exchange means (List.cons_ne_nil _ _) (by decide) text

/-! The text as a whole, and its lines. -/

def withMacrons (pairs : List (Str × Str)) (text : Str) : Str :=
  pairs.foldl (fun text pair => exchange (pair.1 ++ [45]) pair.2 0 text) text

theorem putMacrons_eq {pairs : List (Str × Str)} (marks : ∀ pair ∈ pairs, Marks pair.1 pair.2) (text : Str) :
    putMacrons pairs text = .ok (withMacrons pairs text) := by
  induction pairs generalizing text with
  | nil => rfl
  | cons pair pairs ih =>
      have each : ∀ other ∈ pairs, Marks other.1 other.2 := fun other member => marks other (List.mem_cons_of_mem _ member)
      have first := ih each (exchange (pair.1 ++ [45]) pair.2 0 text)
      rw [putMacrons] at first ⊢
      rw [List.foldlM_cons, gsub_hyphen (marks pair List.mem_cons_self), run_bind_ok, first]
      rfl

def hyphened (text : Str) : Str := exchange [92, 45] [45] 0 (withMacrons hyphenPairs text)

theorem hyphens2macs_eq (text : Str) : hyphens2macs text = .ok (hyphened text) := by
  rw [hyphens2macs, putMacrons_eq hyphenPairs_marks, run_bind_ok, gsub_escaped, hyphened]

theorem withMacrons_apart {b : UInt8} {pairs : List (Str × Str)} (absent : ∀ pair ∈ pairs, b ∉ pair.1 ++ [45])
    (s rest : Str) : withMacrons pairs (s ++ b :: rest) = withMacrons pairs s ++ b :: withMacrons pairs rest := by
  induction pairs generalizing s rest with
  | nil => rfl
  | cons pair pairs ih =>
      have each : ∀ other ∈ pairs, b ∉ other.1 ++ [45] := fun other member => absent other (List.mem_cons_of_mem _ member)
      have first := ih each (exchange (pair.1 ++ [45]) pair.2 0 s) (exchange (pair.1 ++ [45]) pair.2 0 rest)
      rw [← exchange_apart (absent pair List.mem_cons_self) (by simp)] at first
      exact first

theorem hyphened_newline (line rest : Str) : hyphened (line ++ 10 :: rest) = hyphened line ++ 10 :: hyphened rest := by
  have absent : ∀ pair ∈ hyphenPairs, 10 ∉ pair.1 ++ [45] := by decide
  rw [hyphened, withMacrons_apart absent, exchange_apart (by decide) (List.cons_ne_nil _ _)]
  rfl

theorem mem_withMacrons {b : UInt8} {pairs : List (Str × Str)} (absent : ∀ pair ∈ pairs, b ∉ pair.2) {text : Str}
    (inside : b ∈ withMacrons pairs text) : b ∈ text := by
  induction pairs generalizing text with
  | nil => exact inside
  | cons pair pairs ih =>
      have later := ih (fun other member => absent other (List.mem_cons_of_mem _ member)) inside
      exact (mem_exchange later).resolve_right (absent pair List.mem_cons_self)

theorem mem_hyphened {b : UInt8} (other : b ≠ 45) (absent : ∀ pair ∈ hyphenPairs, b ∉ pair.2) {text : Str}
    (inside : b ∈ hyphened text) : b ∈ text :=
  mem_withMacrons absent ((mem_exchange inside).resolve_right (by simpa using other))

theorem hyphened_plain {text : Str} (plain : 45 ∉ text) : hyphened text = text := by
  have apart (word : Str) (hyphen : 45 ∈ word) : ¬ word <:+: text := fun within => plain (within.subset hyphen)
  have same : withMacrons hyphenPairs text = text := by
    rw [withMacrons]
    generalize hyphenPairs = pairs
    induction pairs with
    | nil => rfl
    | cons pair pairs ih => rw [List.foldl_cons, exchange_absent (apart _ (by simp)), ih]
  rw [hyphened, same, exchange_absent (apart _ (by simp))]

/-! A letter in front of a hyphen, in a text of characters. -/

theorem exchange_char {v m c : Str} (marks : Marks v m) (char : Utf8.isChar c = true) (rest : Str)
    (free : v = c → rest.head? ≠ some 45) :
    exchange (v ++ [45]) m 0 (c ++ rest) = c ++ exchange (v ++ [45]) m 0 rest := by
  apply exchange_front
  intro k inside here
  cases k with
  | zero =>
      obtain ⟨same, hyphen⟩ := Utf8.char_begins marks.letter char _ here
      obtain ⟨last, rfl⟩ := hyphen
      exact free same rfl
  | succ k =>
      -- a later byte of a character begins no letter
      obtain ⟨b, tail, rfl, size⟩ := Utf8.charbytes_of_readable v marks.letter
      cases c with
      | nil => cases inside
      | cons d ctail =>
          rw [List.length_cons] at inside
          have within : k < ctail.length := by omega
          rw [List.cons_append, List.cons_append, List.drop_succ_cons, List.drop_append_of_le_length within.le,
            List.drop_eq_getElem_cons within] at here
          have same : b = ctail[k] := (List.cons_prefix_cons.mp here).1
          exact (Utf8.lead_byte size).2 (same ▸ Utf8.tail_bytes char _ (List.getElem_mem within))

/-! A text of which some of the vowels are marked. -/

def vowelRows : List (Str × Str × Str) :=
  [(lit "a", lit "ã", lit "ā"), (lit "e", lit "ẽ", lit "ē"), (lit "i", lit "ĩ", lit "ī"), (lit "o", lit "õ", lit "ō"),
    (lit "u", lit "ũ", lit "ū"), (lit "y", lit "ỹ", lit "ȳ"), (lit "A", lit "Ã", lit "Ā"), (lit "E", lit "Ẽ", lit "Ē"),
    (lit "I", lit "Ĩ", lit "Ī"), (lit "O", lit "Õ", lit "Ō"), (lit "U", lit "Ũ", lit "Ū"), (lit "Y", lit "Ỹ", lit "Ȳ")]

def macron (c : Str) : Option Str :=
  (vowelRows.flatMap fun row => [(row.1, row.2.2), (row.2.1, row.2.2)]).lookup c

def escapeHyphens : List (Str × Bool) → List (Str × Bool)
  | e :: d :: text =>
      if (macron e.1).isSome ∧ d.1 = lit "-" then e :: (lit "\\", false) :: escapeHyphens (d :: text)
      else e :: escapeHyphens (d :: text)
  | text => text

def insertHyphens (text : List (Str × Bool)) : Str :=
  text.flatMap fun e => if e.2 then e.1 ++ lit "-" else e.1

theorem macron_lookup (c : Str) : hyphenPairs.lookup c = macron c := by
  have keys : (hyphenPairs.map Prod.fst).Perm
      ((vowelRows.flatMap fun row => [(row.1, row.2.2), (row.2.1, row.2.2)]).map Prod.fst) := by
    decide
  by_cases known : c ∈ hyphenPairs.map Prod.fst
  · have each : ∀ c ∈ hyphenPairs.map Prod.fst, hyphenPairs.lookup c = macron c := by decide
    exact each c known
  · have unknown := (keys.mem_iff (a := c)).not.mp known
    have outside (rows : List (Str × Str)) (absent : c ∉ rows.map Prod.fst) : rows.lookup c = none := by
      rw [List.lookup_eq_none_iff]
      intro pair member
      rw [bne_iff_ne]
      rintro rfl
      exact absent (List.mem_map_of_mem member)
    rw [macron, outside _ known, outside _ unknown]

theorem escapeHyphens_head (e : Str × Bool) (text : List (Str × Bool)) :
    ∃ rest, escapeHyphens (e :: text) = e :: rest := by
  cases text with
  | nil => exact ⟨[], rfl⟩
  | cons d text =>
      rw [escapeHyphens]
      split <;> exact ⟨_, rfl⟩

theorem mem_escapeHyphens {text : List (Str × Bool)} {e : Str × Bool} (member : e ∈ escapeHyphens text) :
    e ∈ text ∨ e = (lit "\\", false) := by
  fun_induction escapeHyphens text with
  | case1 d d' text both ih =>
      simp only [List.mem_cons] at member ih ⊢
      tauto
  | case2 d d' text free ih =>
      simp only [List.mem_cons] at member ih ⊢
      tauto
  | case3 text single => exact .inl member

def shown (done : List (Str × Str)) (e : Str × Bool) : Str :=
  if e.2 then (done.lookup e.1).getD (e.1 ++ [45]) else e.1

def Escaped (text : List (Str × Bool)) : Prop :=
  text.IsChain fun e d => ¬ ((macron e.1).isSome = true ∧ d.1 = [45])

theorem escapeHyphens_escaped (text : List (Str × Bool)) : Escaped (escapeHyphens text) := by
  have backslash : macron (lit "\\") = none := by decide
  have apart : lit "\\" ≠ [45] := by decide
  fun_induction escapeHyphens text with
  | case1 e d text both ih =>
      refine List.isChain_cons_cons.mpr ⟨fun h => apart h.2, List.isChain_cons.mpr ⟨fun d' _ h => ?_, ih⟩⟩
      have vowel := h.1
      rw [backslash] at vowel
      cases vowel
  | case2 e d text free ih =>
      refine List.isChain_cons.mpr ⟨fun d' next => ?_, ih⟩
      obtain ⟨rest, shape⟩ := escapeHyphens_head d text
      rw [shape] at next
      cases next
      exact free
  | case3 text single =>
      cases text with
      | nil => exact List.isChain_nil
      | cons e text =>
          cases text with
          | nil => exact List.isChain_singleton e
          | cons d text => exact absurd rfl (single e d text)

theorem shown_head {done : List (Str × Str)} (marks : ∀ pair ∈ done, Marks pair.1 pair.2) {text : List (Str × Bool)}
    (chars : ∀ e ∈ text, Utf8.isChar e.1 = true) (hyphen : (text.flatMap (shown done)).head? = some 45) :
    ∃ e rest, text = e :: rest ∧ e.1 = [45] := by
  have sign : Utf8.Readable [45] := by decide
  have first {c rest : Str} (char : Utf8.isChar c = true) (here : (c ++ rest).head? = some 45) : c = [45] := by
    obtain ⟨behind, joined⟩ := List.head?_eq_some_iff.mp here
    exact (Utf8.char_begins sign char [] ⟨behind, joined.symm⟩).1.symm
  cases text with
  | nil => cases hyphen
  | cons e text =>
      refine ⟨e, text, rfl, ?_⟩
      have char := chars e (by simp)
      rw [List.flatMap_cons, shown] at hyphen
      split at hyphen
      case isFalse => exact first char hyphen
      case isTrue =>
        cases found : done.lookup e.1 with
        | none =>
            rw [found, Option.getD_none, List.append_assoc] at hyphen
            exact first char hyphen
        | some m =>
            obtain ⟨front, back, rfl, _⟩ := List.lookup_eq_some_iff.mp found
            have mark := marks (e.1, m) (by simp)
            rw [found, Option.getD_some] at hyphen
            have other := mark.other'.2.1
            rw [first mark.macron.1 hyphen] at other
            exact absurd (List.mem_singleton_self 45) other

theorem exchange_shown {v m : Str} (marks : Marks v m) {done : List (Str × Str)}
    (doneMarks : ∀ pair ∈ done, Marks pair.1 pair.2) (fresh : done.lookup v = none) (apart : ∀ pair ∈ done, v ≠ pair.2)
    (vowel : (macron v).isSome = true) {text : List (Str × Bool)} (chars : ∀ e ∈ text, Utf8.isChar e.1 = true)
    (escaped : Escaped text) :
    exchange (v ++ [45]) m 0 (text.flatMap (shown done)) = text.flatMap (shown (done ++ [(v, m)])) := by
  induction text with
  | nil => exact exchange_nil 0
  | cons e text ih =>
      have char := chars e (by simp)
      have later := ih (fun d member => chars d (by simp [member])) escaped.tail
      have filled : v ++ [45] ≠ [] := by simp
      rw [List.flatMap_cons, List.flatMap_cons]
      by_cases marked : e.2 = true
      · by_cases here : v = e.1
        · rw [shown, if_pos marked, ← here, fresh, Option.getD_none, exchange_word filled, later, shown, if_pos marked,
            ← here, List.lookup_append, fresh]
          simp
        · have same : (done ++ [(v, m)]).lookup e.1 = done.lookup e.1 := by
            rw [List.lookup_append, List.lookup_cons, beq_eq_false_iff_ne.mpr (Ne.symm here)]
            simp
          rw [shown, shown, if_pos marked, if_pos marked, same]
          cases found : done.lookup e.1 with
          | some m' =>
              obtain ⟨front, back, rfl, _⟩ := List.lookup_eq_some_iff.mp found
              have mark := doneMarks (e.1, m') (by simp)
              rw [Option.getD_some, exchange_char marks mark.macron.1 _ fun same =>
                absurd same (apart (e.1, m') (by simp)), later]
          | none =>
              have sign : v ≠ [45] := fun same => marks.other.1 (by simp [same])
              rw [Option.getD_none, List.append_assoc, exchange_char marks char _ fun same => absurd same here,
                exchange_char marks (by decide) _ fun same => absurd same sign, later, List.append_assoc]
      · rw [shown, shown, if_neg marked, if_neg marked, exchange_char marks char, later]
        rintro rfl hyphen
        obtain ⟨d, rest, rfl, sign⟩ := shown_head doneMarks (fun d member => chars d (by simp [member])) hyphen
        exact (List.isChain_cons_cons.mp escaped).1 ⟨vowel, sign⟩

theorem putMacrons_shown {text : List (Str × Bool)} (chars : ∀ e ∈ text, Utf8.isChar e.1 = true)
    (escaped : Escaped text) (done todo : List (Str × Str)) (whole : hyphenPairs = done ++ todo) :
    putMacrons todo (text.flatMap (shown done)) = .ok (text.flatMap (shown hyphenPairs)) := by
  have keys : (hyphenPairs.map Prod.fst).Nodup := by decide
  have apart : ∀ pair ∈ hyphenPairs, ∀ other ∈ hyphenPairs, pair.1 ≠ other.2 := by decide
  have vowels : ∀ pair ∈ hyphenPairs, (macron pair.1).isSome = true := by decide
  induction todo generalizing done with
  | nil =>
      rw [whole, List.append_nil]
      rfl
  | cons pair todo ih =>
      have here : pair ∈ hyphenPairs := by simp [whole]
      have before (other : Str × Str) (member : other ∈ done) : other ∈ hyphenPairs := by simp [whole, member]
      have fresh : done.lookup pair.1 = none := by
        rw [List.lookup_eq_none_iff]
        intro other member
        rw [bne_iff_ne]
        rw [whole, List.map_append, List.map_cons] at keys
        exact ((List.nodup_append.mp keys).2.2 other.1 (List.mem_map_of_mem member) pair.1 (by simp)).symm
      have step := exchange_shown (hyphenPairs_marks pair here) (fun other member => hyphenPairs_marks other (before other member))
        fresh (fun other member => apart pair here other (before other member)) (vowels pair here) chars escaped
      rw [putMacrons, List.foldlM_cons, gsub_hyphen (hyphenPairs_marks pair here), run_bind_ok, step]
      exact ih (done ++ [pair]) (by rw [whole, List.append_assoc]; rfl)

theorem exchange_backslashes (f : Str × Bool → Str) (backslash : f (lit "\\", false) = [92]) {text : List (Str × Bool)}
    (clean : ∀ e ∈ text, 92 ∉ f e) (hyphens : ∀ e ∈ text, e.1 = lit "-" → f e = [45]) :
    exchange [92, 45] [45] 0 ((escapeHyphens text).flatMap f) = text.flatMap f := by
  fun_induction escapeHyphens text with
  | case1 e d text both ih =>
      have later := ih (fun e' member => clean e' (by simp [member])) fun e' member => hyphens e' (by simp [member])
      obtain ⟨rest, shape⟩ := escapeHyphens_head d text
      have sign : f d = [45] := hyphens d (by simp) both.2
      have gone := @exchange_word [92, 45] [45] (by simp) (rest.flatMap f)
      rw [shape, List.flatMap_cons, sign, exchange_free (by simp)] at later
      rw [List.flatMap_cons, exchange_free (clean e (by simp)), List.flatMap_cons, backslash, shape, List.flatMap_cons, sign,
        ← List.append_assoc [92] [45]]
      rw [show ([92] : Str) ++ [45] = [92, 45] from rfl, gone, later]
      rfl
  | case2 e d text free ih =>
      have later := ih (fun e' member => clean e' (by simp [member])) fun e' member => hyphens e' (by simp [member])
      rw [List.flatMap_cons, exchange_free (clean e (by simp)), later]
      rfl
  | case3 text single =>
      cases text with
      | nil => rfl
      | cons e text =>
          cases text with
          | cons d text => exact absurd rfl (single e d text)
          | nil =>
              rw [List.flatMap_cons, exchange_free (clean e (by simp))]
              rfl

/-- A text in which the vowels of a set are marked by hyphens becomes the text with macrons
on these vowels, where the hyphens of the text that stand after vowels have been escaped before. -/
theorem hyphens2macs_marked (text : List (Str × Bool)) (chars : ∀ e ∈ text, Utf8.isChar e.1 = true)
    (clean : ∀ e ∈ text, e.1 ≠ lit "\\") (vowels : ∀ e ∈ text, e.2 = true → (macron e.1).isSome = true) :
    hyphens2macs (insertHyphens (escapeHyphens text)) =
        .ok (text.flatMap fun e => if e.2 then (macron e.1).getD e.1 else e.1) ∧
      92 ∉ text.flatMap fun e => if e.2 then (macron e.1).getD e.1 else e.1 := by
  have sign : lit "-" = [45] := by decide
  have backslash : lit "\\" = [92] := by decide
  have low : Utf8.Readable [92] := by decide
  have marked (e : Str × Bool) (member : e ∈ text) :
      shown hyphenPairs e = if e.2 then (macron e.1).getD e.1 else e.1 := by
    rw [shown, macron_lookup]
    split
    case isTrue flag =>
      obtain ⟨m, found⟩ := Option.isSome_iff_exists.mp (vowels e member flag)
      rw [found, Option.getD_some, Option.getD_some]
    case isFalse => rfl
  have whole : text.flatMap (shown hyphenPairs) = text.flatMap fun e => if e.2 then (macron e.1).getD e.1 else e.1 :=
    List.flatMap_congr marked
  have free (e : Str × Bool) (member : e ∈ text) : 92 ∉ shown hyphenPairs e := by
    have own : 92 ∉ e.1 := fun inside => clean e member (backslash ▸ Utf8.char_of_byte low (chars e member) inside)
    rw [marked e member]
    split
    case isFalse => exact own
    case isTrue =>
      cases found : macron e.1 with
      | none => exact own
      | some m =>
          rw [← macron_lookup] at found
          obtain ⟨front, back, shape, _⟩ := List.lookup_eq_some_iff.mp found
          exact (hyphenPairs_marks (e.1, m) (by simp [shape])).other'.2.2
  constructor
  · have chars' (e : Str × Bool) (member : e ∈ escapeHyphens text) : Utf8.isChar e.1 = true := by
      rcases mem_escapeHyphens member with old | rfl
      · exact chars e old
      · decide
    have put := putMacrons_shown chars' (escapeHyphens_escaped text) [] hyphenPairs rfl
    have start : insertHyphens (escapeHyphens text) = (escapeHyphens text).flatMap (shown []) := by
      rw [insertHyphens, sign]
      rfl
    rw [hyphens2macs, start, put, run_bind_ok, gsub_escaped, ← whole, exchange_backslashes _ (by decide) free]
    intro e member hyphen
    have unmarked : e.2 ≠ true := fun flag => by
      have vowel := vowels e member flag
      rw [hyphen, show macron (lit "-") = none by decide] at vowel
      cases vowel
    rw [shown, if_neg unmarked, hyphen, sign]
  · rw [← whole, List.mem_flatMap]
    rintro ⟨e, member, inside⟩
    exact free e member inside

theorem hyphens2macs_marked_amo : hyphens2macs (insertHyphens (escapeHyphens
    [(lit "a", true), (lit "-", false), (lit "m", false), (lit "õ", true)])) = .ok (lit "ā-mō") :=
  (hyphens2macs_marked [(lit "a", true), (lit "-", false), (lit "m", false), (lit "õ", true)]
    (by decide) (by decide) (by decide)).1

/-! The web version. -/

/-- The substitutions of `hyphens`. -/
def webHyphenPairs : List (Str × Str) :=
  [(lit "a", lit "ā"), (lit "e", lit "ē"), (lit "i", lit "ī"), (lit "o", lit "ō"), (lit "u", lit "ū"), (lit "y", lit "ȳ"),
    (lit "ã", lit "ā"), (lit "ẽ", lit "ē"), (lit "ĩ", lit "ī"), (lit "õ", lit "ō"), (lit "ũ", lit "ū"), (lit "ỹ", lit "ȳ"),
    (lit "A", lit "Ā"), (lit "E", lit "Ē"), (lit "I", lit "Ī"), (lit "O", lit "Ō"), (lit "U", lit "Ū"), (lit "Y", lit "Ȳ"),
    (lit "Ã", lit "Ā"), (lit "Ẽ", lit "Ē"), (lit "Ĩ", lit "Ī"), (lit "Õ", lit "Ō"), (lit "Ũ", lit "Ū"), (lit "Ỹ", lit "Ȳ")]

/-- `hyphens` of `mac-web.lua`. -/
def hyphens (text : Str) : Run Str := putMacrons webHyphenPairs text

/-- `clearflags` of `mac-web.lua`. -/
def clearflags (text : Str) : Run Str :=
  Utf8.replace text fun c => if c ∈ [NOTFOUND, AMBIG, GUESS, AFFIX, INVALID] then some [] else none

/-- The table in `clearmacs`. -/
def asciitbl : Table Str :=
  [(lit "Ã", lit "A"), (lit "ã", lit "a"), (lit "Õ", lit "O"), (lit "õ", lit "o"), (lit "Ā", lit "A"), (lit "ā", lit "a"),
    (lit "Ē", lit "E"), (lit "ē", lit "e"), (lit "Ĩ", lit "I"), (lit "ĩ", lit "i"), (lit "Ī", lit "I"), (lit "ī", lit "i"),
    (lit "Ō", lit "O"), (lit "ō", lit "o"), (lit "Ũ", lit "U"), (lit "ũ", lit "u"), (lit "Ū", lit "U"), (lit "ū", lit "u"),
    (lit "Ȳ", lit "Y"), (lit "ȳ", lit "y"), (lit "Ẽ", lit "E"), (lit "ẽ", lit "e"), (lit "Ỹ", lit "Y"),
    (lit "ỹ", lit "y")].foldl (fun t pair => t.insert pair.1 pair.2) ∅

/-- `clearmacs` of `mac-web.lua`. -/
def clearmacs (text : Str) : Run Str := Utf8.replace text (field asciitbl)

theorem putMacrons_escaped {pairs : List (Str × Str)} (marks : ∀ pair ∈ pairs, Marks pair.1 pair.2) (text : Str) :
    ∃ out, putMacrons pairs text = .ok out ∧ ([92, 45] <:+: out ↔ [92, 45] <:+: text) := by
  induction pairs generalizing text with
  | nil => exact ⟨text, rfl, Iff.rfl⟩
  | cons pair pairs ih =>
      have mark := marks pair (by simp)
      obtain ⟨out, put, same⟩ := ih (fun other member => marks other (by simp [member]))
        (exchange (pair.1 ++ [45]) pair.2 0 text)
      obtain ⟨b, tail, letter, _⟩ := Utf8.charbytes_of_readable _ mark.letter
      obtain ⟨d, tail', macron, _⟩ := Utf8.charbytes_of_readable _ mark.macron
      have other := mark.other
      have other' := mark.other'
      refine ⟨out, ?_, same.trans ?_⟩
      · rw [putMacrons, List.foldlM_cons, gsub_hyphen mark]
        exact put
      · rw [letter] at other ⊢
        rw [macron] at other' ⊢
        simp only [List.mem_cons, not_or] at other other'
        apply exchange_pair
        · simp [other]
        · simp [other']
        · simp [Ne.symm other.1.1]
        · simp [Ne.symm other'.2.1.1]
        · simp
        · simp

theorem asciitbl_field (c : Str) : field asciitbl c = field unicode.unicodeinvtbl c := by
  have perm : asciitbl.entries.Perm unicode.unicodeinvtbl.entries := by decide
  exact AList.perm_lookup perm

/-- Whether the functions of the web version do with a text what those of the other version do. -/
def FormattingAgrees (text : Str) : Prop :=
  hyphens text = hyphens2macs text ∧ clearflags text = remflags text ∧ clearmacs text = remmacs unicode text

theorem hyphens_agree_iff (text : Str) : hyphens text = hyphens2macs text ↔ ¬ lit "\\-" <:+: text := by
  have pair : lit "\\-" = [92, 45] := by decide
  obtain ⟨out, put, same⟩ := putMacrons_escaped hyphenPairs_marks text
  have web : hyphens text = .ok out := put
  rw [web, hyphens2macs, put, run_bind_ok, gsub_escaped, Except.ok.injEq, eq_comm, exchange_same_iff (by decide), same, pair]

def flags : List Str := [NOTFOUND, AMBIG, GUESS, AFFIX, INVALID]

theorem flatMap_filter_eq {cs : List Str} (kept : Str → Bool) (g : Str → Str) (filled : ∀ c, kept c = false → g c ≠ []) :
    (cs.filter kept).flatMap g = cs.flatMap g ↔ ∀ c ∈ cs, kept c = true := by
  have shorter (cs : List Str) : ((cs.filter kept).flatMap g).length ≤ (cs.flatMap g).length := by
    induction cs with
    | nil => exact le_rfl
    | cons c cs ih =>
        rw [List.filter_cons]
        split
        · simpa using ih
        · rw [List.flatMap_cons, List.length_append]
          omega
  constructor
  · intro same c member
    by_contra dropped
    have gone : kept c = false := by simpa using dropped
    obtain ⟨front, back, rfl⟩ := List.append_of_mem member
    have lengths := congrArg List.length same
    have positive := List.length_pos_iff.mpr (filled c gone)
    have front' := shorter front
    have back' := shorter back
    rw [List.filter_append, List.filter_cons, if_neg dropped] at lengths
    simp only [List.flatMap_append, List.flatMap_cons, List.length_append] at lengths
    omega
  · intro all
    rw [List.filter_eq_self.mpr all]

theorem replace_nul {cs : List Str} (valid : ∀ c ∈ cs, Utf8.isChar c = true) (nul : [0] ∈ cs)
    (mapping : Str → Option Str) : Utf8.replace cs.flatten mapping = .error .raised := by
  have stops := Utf8.len_nul valid nul
  unfold Utf8.len at stops
  unfold Utf8.replace
  split at stops
  · cases stops
  case isFalse left => rw [if_neg left]

theorem clearmacs_agrees_iff {cs : List Str} (valid : ∀ c ∈ cs, Utf8.isChar c = true) :
    clearmacs cs.flatten = remmacs unicode cs.flatten ↔ (∀ c ∈ cs, c ∉ flags) ∨ [0] ∈ cs := by
  by_cases nul : [0] ∈ cs
  · refine iff_of_true ?_ (.inr nul)
    rw [clearmacs, remmacs, remflags, replace_nul valid nul, replace_nul valid nul]
    rfl
  · have readable : ∀ c ∈ cs, Utf8.Readable c := fun c member => ⟨valid c member, fun same => nul (same ▸ member)⟩
    let kept (c : Str) : Bool := decide (c ∉ flags)
    have removed : remflags cs.flatten = .ok (cs.filter kept).flatten := by
      rw [remflags, Utf8.replace_flatten cs readable]
      apply congrArg Except.ok
      clear nul readable valid
      induction cs with
      | nil => rfl
      | cons c cs ih =>
          rw [List.flatMap_cons, ih, List.filter_cons]
          by_cases flag : c ∈ [NOTFOUND, AMBIG, GUESS, AFFIX, INVALID]
          · have dropped : kept c = false := decide_eq_false (not_not.mpr flag)
            rw [dropped, if_pos flag]
            rfl
          · have stays : kept c = true := decide_eq_true flag
            rw [stays, if_neg flag]
            rfl
    have plainFlags : ∀ c ∈ flags, field asciitbl c = none ∧ c ≠ [] := by decide
    have filled (c : Str) (dropped : kept c = false) : (field asciitbl c).getD c ≠ [] := by
      have flag := plainFlags c (by simpa [kept] using dropped)
      rw [flag.1]
      exact flag.2
    have remaining : ∀ c ∈ cs.filter kept, Utf8.Readable c := fun c member => readable c (List.mem_of_mem_filter member)
    rw [clearmacs, remmacs, removed, run_bind_ok, Utf8.replace_flatten cs readable, Utf8.replace_flatten _ remaining,
      Except.ok.injEq, eq_comm]
    simp only [← asciitbl_field]
    rw [flatMap_filter_eq kept _ filled]
    simp [kept, nul]

/-- The two versions format a text in the same way just when no hyphen of it is escaped and
no flag is in it; at a NUL, which the functions that go by characters cannot pass, both raise. -/
theorem formattingAgrees_iff (cs : List Str) (valid : ∀ c ∈ cs, Utf8.isChar c = true) :
    FormattingAgrees cs.flatten ↔
      ¬ lit "\\-" <:+: cs.flatten ∧ ((∀ c ∈ cs, c ∉ flags) ∨ [0] ∈ cs) := by
  rw [FormattingAgrees, hyphens_agree_iff, clearmacs_agrees_iff valid]
  exact ⟨fun h => ⟨h.1, h.2.2⟩, fun h => ⟨h.1, rfl, h.2⟩⟩

theorem formattingAgrees_amo : FormattingAgrees [lit "a", lit "m", lit "ō"].flatten :=
  (formattingAgrees_iff [lit "a", lit "m", lit "ō"] (by decide)).mpr ⟨by decide, .inl (by decide)⟩

/-- An escaped hyphen keeps its backslash in the web version. -/
theorem formattingAgrees_escaped :
    ¬ ∀ cs : List Str, (∀ c ∈ cs, Utf8.isChar c = true) → FormattingAgrees cs.flatten := by
  intro claim
  have same := (claim [lit "a", lit "\\", lit "-"] (by decide)).1
  have web : hyphens [lit "a", lit "\\", lit "-"].flatten = .ok (lit "a\\-") := by decide
  have desktop : hyphens2macs [lit "a", lit "\\", lit "-"].flatten = .ok (lit "a-") := by decide
  rw [web, desktop] at same
  exact absurd same (by decide)

end Maccer
