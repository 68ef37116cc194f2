import Maccer.KeyLines

/-! Letters for the sources of a word: how `macra.savekey` writes its headers and
`macra.loadkey` reads them. -/

namespace Maccer

open Lua

theorem letterkey_parts (num : Nat) (positive : num ≠ 0) :
    ∃ quotient factorial, num = 26 * quotient + factorial ∧ 1 ≤ factorial ∧ factorial ≤ 26 ∧
      letterkey num = (if quotient % 2 = 0 then (64 + factorial).toUInt8 else (96 + factorial).toUInt8)
        :: (if quotient ≥ 2 then decimal (quotient / 2) else []) := by
  refine ⟨if num % 26 = 0 then num / 26 - 1 else num / 26, if num % 26 = 0 then 26 else num % 26,
    ?_, ?_, ?_, ?_⟩
  · split <;> omega
  · split <;> omega
  · split <;> omega
  · simp only [letterkey]
    split <;> split <;> split <;> simp_all

theorem letterkey_ne_nil (num : Nat) (positive : num ≠ 0) : letterkey num ≠ [] := by
  obtain ⟨quotient, factorial, _, _, _, shape⟩ := letterkey_parts num positive
  simp [shape]

theorem letterkey_bytes (num : Nat) (positive : num ≠ 0) :
    ∀ b ∈ letterkey num, isAlpha b = true ∨ isDigit b = true := by
  obtain ⟨quotient, factorial, _, low, high, shape⟩ := letterkey_parts num positive
  rw [shape]
  intro b member
  rcases List.mem_cons.mp member with rfl | rest
  · left
    split <;> interval_cases factorial <;> rfl
  · split at rest
    · exact .inr (decimal_digits _ b rest)
    · cases rest

theorem letterkey_without (num : Nat) (positive : num ≠ 0) (b : UInt8)
    (other : isAlpha b = false ∧ isDigit b = false) : b ∉ letterkey num := by
  intro member
  have either := letterkey_bytes num positive b member
  simp [other] at either

theorem letterkey_injective {m n : Nat} (first : m ≠ 0) (second : n ≠ 0)
    (same : letterkey m = letterkey n) : m = n := by
  obtain ⟨q, f, rfl, low, high, shape⟩ := letterkey_parts m first
  obtain ⟨r, g, rfl, low', high', shape'⟩ := letterkey_parts n second
  rw [shape, shape'] at same
  obtain ⟨heads, tails⟩ := List.cons.inj same
  have parts : f = g ∧ q % 2 = r % 2 := by
    have head (k x : Nat) (bound : x ≤ 26) (small : k ≤ 96) :
        ((k + x).toUInt8).toNat = k + x := by
      rw [show (k + x).toUInt8 = UInt8.ofNat (k + x) from rfl, UInt8.toNat_ofNat']
      omega
    have values := congrArg UInt8.toNat heads
    split at values <;> split at values <;>
      rw [head _ _ high (by omega), head _ _ high' (by omega)] at values <;> omega
  have halves : q / 2 = r / 2 := by
    by_cases large : q ≥ 2 <;> by_cases large' : r ≥ 2
    · rw [if_pos large, if_pos large'] at tails
      exact decimal_injective tails
    · rw [if_pos large, if_neg large'] at tails
      exact absurd tails (decimal_ne_nil _)
    · rw [if_neg large, if_pos large'] at tails
      exact absurd tails.symm (decimal_ne_nil _)
    · omega
  omega

/-- One ASCII letter and, from the third set of letters on, the number of the set. -/
def SourceLetter (s : Str) : Prop :=
  ∃ letter digits, s = letter :: digits ∧ isAlpha letter = true ∧ (digits = [] ∨ ∃ k, 0 < k ∧ digits = decimal k)

theorem letterkey_sourceLetter {num : Nat} (positive : num ≠ 0) : SourceLetter (letterkey num) := by
  obtain ⟨quotient, factorial, _, low, high, shape⟩ := letterkey_parts num positive
  refine ⟨_, _, shape, ?_, ?_⟩
  · split <;> interval_cases factorial <;> rfl
  · by_cases large : quotient ≥ 2
    · exact .inr ⟨quotient / 2, by omega, if_pos large⟩
    · exact .inl (if_neg large)

theorem letterkey_of_parts (quotient factorial : Nat) (low : 1 ≤ factorial) (high : factorial ≤ 26) :
    letterkey (26 * quotient + factorial) =
      (if quotient % 2 = 0 then (64 + factorial).toUInt8 else (96 + factorial).toUInt8) ::
        (if quotient ≥ 2 then decimal (quotient / 2) else []) := by
  obtain ⟨q, f, parts, low', high', shape⟩ := letterkey_parts (26 * quotient + factorial) (by omega)
  have same : q = quotient := by omega
  have same' : f = factorial := by omega
  rw [shape, same, same']

theorem alpha_factorial {letter : UInt8} (alpha : isAlpha letter = true) :
    ∃ factorial, 1 ≤ factorial ∧ factorial ≤ 26 ∧
      (letter = (64 + factorial).toUInt8 ∨ letter = (96 + factorial).toUInt8) := by
  have back (k : Nat) (bound : k ≤ letter.toNat) : (k + (letter.toNat - k)).toUInt8 = letter := by
    rw [Nat.add_sub_cancel' bound]
    exact UInt8.ofNat_toNat
  have cases : 65 ≤ letter.toNat ∧ letter.toNat ≤ 90 ∨ 97 ≤ letter.toNat ∧ letter.toNat ≤ 122 := by
    simpa [isAlpha, isUpper, isLower, inRange, UInt8.le_iff_toNat_le] using alpha
  cases cases with
  | inl upper => exact ⟨letter.toNat - 64, by omega, by omega, .inl (back 64 (by omega)).symm⟩
  | inr lower => exact ⟨letter.toNat - 96, by omega, by omega, .inr (back 96 (by omega)).symm⟩

theorem sourceLetter_letterkey {s : Str} (letter : SourceLetter s) : ∃ num, num ≠ 0 ∧ letterkey num = s := by
  obtain ⟨b, digits, rfl, alpha, number⟩ := letter
  obtain ⟨factorial, low, high, place⟩ := alpha_factorial alpha
  -- the half of the quotient, which the digits tell
  obtain ⟨half, tail⟩ : ∃ half, ∀ r < 2, (if 2 * half + r ≥ 2 then decimal ((2 * half + r) / 2) else []) = digits := by
    cases number with
    | inl empty =>
        refine ⟨0, fun r small => ?_⟩
        rw [if_neg (by omega), empty]
    | inr number =>
        obtain ⟨k, positive, rfl⟩ := number
        refine ⟨k, fun r small => ?_⟩
        rw [if_pos (by omega), show (2 * k + r) / 2 = k by omega]
  cases place with
  | inl upper =>
      refine ⟨26 * (2 * half + 0) + factorial, by omega, ?_⟩
      rw [letterkey_of_parts _ _ low high, tail 0 (by omega), if_pos (by omega), upper]
  | inr lower =>
      refine ⟨26 * (2 * half + 1) + factorial, by omega, ?_⟩
      rw [letterkey_of_parts _ _ low high, tail 1 (by omega), if_neg (by omega), lower]

/-- The letters of sources are numbered without a gap or a repetition, and none of them has
a byte that separates the fields of the key file. -/
theorem letterkey_bijective : Set.BijOn letterkey {num | num ≠ 0} {s | SourceLetter s} ∧
    ∀ num, num ≠ 0 → ∀ b ∈ [9, 32, 44, 61], b ∉ letterkey num := by
  refine ⟨⟨fun _ positive => letterkey_sourceLetter positive, fun _ first _ second => letterkey_injective first second,
    fun _ letter => sourceLetter_letterkey letter⟩, fun num positive b member => ?_⟩
  apply letterkey_without num positive
  have apart : ([9, 32, 44, 61] : Str).all (fun b => !isAlpha b && !isDigit b) = true := by decide
  simpa using List.all_eq_true.mp apart b member

theorem indexFrom_other (headers : List Str) (num : Nat) (t : Table Nat) (h : Str)
    (absent : h ∉ headers) : field (indexFrom headers num t) h = field t h := by
  induction headers generalizing num t with
  | nil => rfl
  | cons header headers ih =>
      simp only [List.mem_cons, not_or] at absent
      rw [indexFrom, ih _ _ absent.2, field_insert_ne _ _ _ _ absent.1]

theorem indexFrom_field (headers : List Str) (num : Nat) (t : Table Nat) (distinct : headers.Nodup)
    (i : Nat) (h : Str) (here : headers[i]? = some h) :
    field (indexFrom headers num t) h = some (num + i) := by
  induction headers generalizing num t i with
  | nil => simp at here
  | cons header headers ih =>
      obtain ⟨fresh, distinct⟩ := List.nodup_cons.mp distinct
      cases i with
      | zero =>
          have first : header = h := by simpa using here
          rw [indexFrom, indexFrom_other _ _ _ _ (first ▸ fresh), first, field_insert]
          rfl
      | succ i =>
          rw [indexFrom, ih (num + 1) _ distinct i (by simpa using here)]
          congr 1
          omega

theorem field_numbers (registered : List Str) (distinct : registered.Nodup) (h : Str)
    (listed : h ∈ registered) :
    ∃ i, registered[i]? = some h ∧ field (indexFrom registered 1 ∅) h = some (i + 1) := by
  obtain ⟨i, here⟩ := List.mem_iff_getElem?.mp listed
  refine ⟨i, here, ?_⟩
  rw [indexFrom_field registered 1 ∅ distinct i h here, Nat.add_comm]

theorem addLetter_run (registered : List Str) (distinct : registered.Nodup)
    (headers : List (Str × Unit)) (tbl : Table Str) (listed : ∀ e ∈ headers, e.1 ∈ registered) :
    ∃ tbl', headers.foldlM (addLetter (indexFrom registered 1 ∅)) tbl = .ok tbl' ∧
      ∀ letter, letter ∈ tbl' ↔ letter ∈ tbl ∨
        ∃ i h, registered[i]? = some h ∧ (∃ e ∈ headers, e.1 = h) ∧ letter = letterkey (i + 1) := by
  induction headers generalizing tbl with
  | nil => exact ⟨tbl, rfl, by simp⟩
  | cons e headers ih =>
      obtain ⟨i, here, numbered⟩ := field_numbers registered distinct e.1 (listed e (by simp))
      obtain ⟨tbl', ran, keys⟩ := ih (tbl.insert (letterkey (i + 1)) e.1)
        fun e' member => listed e' (by simp [member])
      refine ⟨tbl', ?_, ?_⟩
      · rw [List.foldlM_cons, addLetter, numbered]
        exact ran
      · intro letter
        rw [keys, AList.mem_insert]
        constructor
        · rintro ((rfl | old) | ⟨j, h, place, ⟨e', member, rfl⟩, rfl⟩)
          · exact .inr ⟨i, e.1, here, ⟨e, by simp, rfl⟩, rfl⟩
          · exact .inl old
          · exact .inr ⟨j, e'.1, place, ⟨e', by simp [member], rfl⟩, rfl⟩
        · rintro (old | ⟨j, h, place, ⟨e', member, rfl⟩, rfl⟩)
          · exact .inl (.inr old)
          · rcases List.mem_cons.mp member with rfl | later
            · have same : i = j :=
                (List.getElem?_inj (List.getElem?_eq_some_iff.mp here).1 distinct).mp
                  (here.trans place.symm)
              exact .inl (.inl (by rw [same]))
            · exact .inr ⟨j, e'.1, place, ⟨e', later, rfl⟩, rfl⟩

theorem commas_intercalate (letters : List Str) :
    subFrom (letters.flatMap fun letter => lit "," ++ letter) 2 = [44].intercalate letters := by
  have comma : lit "," = [44] := by decide
  rw [show (2 : Int) = ((1 : Nat) : Int) + 1 from rfl, subFrom_succ, comma]
  induction letters with
  | nil => rfl
  | cons letter letters ih =>
      cases letters with
      | nil => simp
      | cons next letters =>
          rw [List.intercalate_cons_cons, ← ih, List.flatMap_cons]
          simp

theorem lettersOf_run (hash : HashOrder) (registered : List Str) (distinct : registered.Nodup)
    (headers : Table Unit) (listed : ∀ h ∈ headers, h ∈ registered) (filled : ∃ h, h ∈ headers) :
    ∃ letters, lettersOf hash registered headers = .ok ([44].intercalate letters) ∧
      letters ≠ [] ∧ ∀ letter, letter ∈ letters ↔
        ∃ i h, registered[i]? = some h ∧ h ∈ headers ∧ letter = letterkey (i + 1) := by
  have present (h : Str) : (∃ e ∈ pairs hash headers, e.1 = h) ↔ h ∈ headers := by
    rw [← pairs_keys hash headers h, List.mem_map]
  obtain ⟨tbl, ran, keys⟩ := addLetter_run registered distinct (pairs hash headers) ∅
    fun e member => listed _ ((present e.1).mp ⟨e, member, rfl⟩)
  have letters (letter : Str) : letter ∈ (sortedpairs tbl).map Prod.fst ↔
      ∃ i h, registered[i]? = some h ∧ h ∈ headers ∧ letter = letterkey (i + 1) := by
    rw [sortedpairs, pairs_keys, keys]
    simp only [AList.notMem_empty, false_or, present]
  refine ⟨(sortedpairs tbl).map Prod.fst, ?_, ?_, letters⟩
  · rw [← commas_intercalate, List.flatMap_map, lettersOf, ran]
    rfl
  · obtain ⟨h, member⟩ := filled
    obtain ⟨i, place⟩ := List.mem_iff_getElem?.mp (listed h member)
    exact List.ne_nil_of_mem ((letters (letterkey (i + 1))).mpr ⟨i, h, place, member, rfl⟩)

theorem addHeader_run (registered : List Str) (numstbl : Table Nat) (letters : List Str)
    (headers : Table Unit)
    (lettered : ∀ letter ∈ letters, ∃ i h, registered[i]? = some h ∧
      field numstbl letter = some (i + 1)) :
    ∃ headers', letters.foldlM (addHeader registered numstbl) headers = .ok headers' ∧
      ∀ h, h ∈ headers' ↔ h ∈ headers ∨
        ∃ letter ∈ letters, ∃ i, registered[i]? = some h ∧ field numstbl letter = some (i + 1) := by
  induction letters generalizing headers with
  | nil => exact ⟨headers, rfl, by simp⟩
  | cons letter letters ih =>
      obtain ⟨i, h, place, numbered⟩ := lettered letter (by simp)
      obtain ⟨headers', ran, members⟩ := ih (headers.insert h ())
        fun l member => lettered l (by simp [member])
      refine ⟨headers', ?_, ?_⟩
      · have one : addHeader registered numstbl headers letter = .ok (headers.insert h ()) := by
          simp [addHeader, numbered, place]
        rw [List.foldlM_cons, one]
        exact ran
      · intro other
        rw [members, AList.mem_insert]
        constructor
        · rintro ((rfl | old) | ⟨l, member, later⟩)
          · exact .inr ⟨letter, by simp, i, place, numbered⟩
          · exact .inl old
          · exact .inr ⟨l, by simp [member], later⟩
        · rintro (old | ⟨l, member, j, place', numbered'⟩)
          · exact .inl (.inr old)
          · rcases List.mem_cons.mp member with rfl | later
            · have same : i = j := by simpa [numbered] using numbered'
              subst same
              exact .inl (.inl (by simpa [place] using place'.symm))
            · exact .inr ⟨l, later, j, place', numbered'⟩

theorem loadHeaders_letters (registered : List Str) (numstbl : Table Nat) (headers : Table Unit)
    (letters : List Str) (filled : letters ≠ [])
    (numbered : ∀ i < registered.length, field numstbl (letterkey (i + 1)) = some (i + 1))
    (listed : ∀ h ∈ headers, h ∈ registered)
    (same : ∀ letter, letter ∈ letters ↔
      ∃ i h, registered[i]? = some h ∧ h ∈ headers ∧ letter = letterkey (i + 1)) :
    ∃ headers', loadHeaders registered numstbl ([44].intercalate letters) = .ok headers' ∧
      ∀ h, h ∈ headers' ↔ h ∈ headers := by
  have inside (i : Nat) (h : Str) (place : registered[i]? = some h) :
      field numstbl (letterkey (i + 1)) = some (i + 1) :=
    numbered i (List.getElem?_eq_some_iff.mp place).1
  obtain ⟨headers', ran, members⟩ := addHeader_run registered numstbl letters ∅ fun letter member => by
    obtain ⟨i, h, place, _, rfl⟩ := (same letter).mp member
    exact ⟨i, h, place, inside i h place⟩
  refine ⟨headers', ?_, ?_⟩
  · have split : ([44].intercalate letters).splitOn 44 = letters := by
      refine List.splitOn_intercalate 44 ?_ filled
      intro letter member
      obtain ⟨i, h, _, _, rfl⟩ := (same letter).mp member
      exact letterkey_without (i + 1) (by omega) 44 (by decide)
    rw [loadHeaders, split, ran]
  · intro h
    rw [members]
    constructor
    · rintro (old | ⟨letter, member, i, place, found⟩)
      · simp at old
      · obtain ⟨j, h', place', held, rfl⟩ := (same letter).mp member
        rw [inside j h' place'] at found
        have equal : j = i := by simpa using found
        subst equal
        have one : h' = h := by simpa [place'] using place
        exact one ▸ held
    · intro held
      obtain ⟨i, place⟩ := List.mem_iff_getElem?.mp (listed h held)
      exact .inr ⟨letterkey (i + 1), (same _).mpr ⟨i, h, place, held, rfl⟩, i, place,
        inside i h place⟩

end Maccer
