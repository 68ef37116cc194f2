import Maccer.Headers
import Maccer.Letters

/-! The text of a saved key, line by line. -/

namespace Maccer

open Lua

/-! Where the divider can stand in a text of lines. -/

theorem infix_apart (mark front back : Str) (b : UInt8) (absent : b ∉ mark)
    (inside : mark <:+: front ++ b :: back) : mark <:+: front ∨ mark <:+: back := by
  induction front with
  | nil =>
      rcases List.infix_cons_iff.mp inside with starts | later
      · exact .inl (prefix_before mark [] back b absent starts).isInfix
      · exact .inr later
  | cons a front ih =>
      rcases List.infix_cons_iff.mp inside with starts | later
      · exact .inl (prefix_before mark (a :: front) back b absent starts).isInfix
      · exact (ih later).imp List.infix_cons id

theorem infix_unlines (mark : Str) (lines : List Str) (flat : 10 ∉ mark) (filled : mark ≠ [])
    (inside : mark <:+: unlines lines) : ∃ line ∈ lines, mark <:+: line := by
  induction lines with
  | nil => exact absurd (List.infix_nil.mp inside) filled
  | cons line lines ih =>
      rw [unlines_cons] at inside
      rcases infix_apart mark line _ 10 flat inside with here | later
      · exact ⟨line, by simp, here⟩
      · obtain ⟨other, member, found⟩ := ih later
        exact ⟨other, by simp [member], found⟩

theorem divider_shape : DIVIDER = [95, 95, 95, 95, 95] := by decide

theorem divider_first (before after : List Str) (clear : ∀ line ∈ before, ¬ DIVIDER <:+: line)
    (k : Nat) (less : k < (unlines before).length) :
    ¬ DIVIDER <+: (unlines before ++ DIVIDER ++ 10 :: unlines after).drop k := by
  intro starts
  have some : before ≠ [] := fun empty => by simp [empty, unlines] at less
  have whole := unlines_eq_intercalate before some
  have bound : k ≤ ([10].intercalate before).length := by
    rw [whole, List.length_append] at less
    simpa [Nat.lt_succ_iff] using less
  rw [whole, List.append_assoc, List.append_assoc, List.drop_append_of_le_length bound,
    List.singleton_append] at starts
  have inside := prefix_before _ _ _ 10 (by decide) starts
  have within : DIVIDER <:+: unlines before := by
    rw [whole]
    exact (inside.isInfix.trans (List.drop_suffix _ _).isInfix).trans (List.prefix_append _ _).isInfix
  obtain ⟨line, member, found⟩ := infix_unlines _ _ (by decide) (by decide) within
  exact clear line member found

theorem divider_last (before after : List Str) (clear : ∀ line ∈ after, ¬ DIVIDER <:+: line)
    (k : Nat) (more : (unlines before).length < k) :
    ¬ DIVIDER <+: (unlines before ++ DIVIDER ++ 10 :: unlines after).drop k := by
  intro starts
  have rest : (unlines before ++ DIVIDER ++ 10 :: unlines after).drop ((unlines before).length + 1) =
      unlines ([95, 95, 95, 95] :: after) := by
    rw [List.append_assoc, ← List.drop_drop, List.drop_left, divider_shape, unlines_cons]
    rfl
  obtain ⟨j, rfl⟩ := Nat.exists_eq_add_of_lt more
  rw [Nat.add_right_comm, ← List.drop_drop, rest] at starts
  have within := starts.isInfix.trans (List.drop_suffix _ _).isInfix
  obtain ⟨line, member, found⟩ := infix_unlines _ _ (by decide) (by decide) within
  rcases List.mem_cons.mp member with rfl | later
  · exact absurd found (by decide)
  · exact clear line later found

/-- A header that the file keeps as it is: trimmed, on one line, without tabs, comments,
dividers or two spaces in a row. -/
structure CleanHeader (h : Str) : Prop where
  filled : h ≠ []
  trimmed : h.head? ≠ some 32 ∧ h.getLast? ≠ some 32
  tabs : 9 ∉ h
  flat : 10 ∉ h
  line : Without 47 47 h
  multi : Without 47 42 h
  divider : ¬ DIVIDER <:+: h
  spaces : Without 32 32 h

/-- A key of words whose counted forms are those that have headers, all registered. -/
structure Savable (key : Key) : Prop where
  wellFormed : WellFormed key.keytbl
  filled : ∃ w, Stored key.keytbl w
  letters : ∀ w, Stored key.keytbl w → w ≠ [] ∧ ∀ b ∈ w, isLetter b = true
  registered : key.headersbynumtbl ≠ []
  distinct : key.headersbynumtbl.Nodup
  clean : ∀ h ∈ key.headersbynumtbl, CleanHeader h
  counted : ∀ w, Stored key.keytbl w → 0 < key.freq w →
    (∃ h, h ∈ key.headers w) ∧ ∀ h ∈ key.headers w, h ∈ key.headersbynumtbl
  uncounted : ∀ w, Stored key.keytbl w → key.freq w = 0 → ∀ h, h ∉ key.headers w

structure Writable (key : Key) : Prop where
  wellFormed : WellFormed key.keytbl
  letters : ∀ w, Stored key.keytbl w → w ≠ [] ∧ ∀ b ∈ w, isLetter b = true
  registered : key.headersbynumtbl ≠ []
  distinct : key.headersbynumtbl.Nodup
  clean : ∀ h ∈ key.headersbynumtbl, CleanHeader h
  counted : ∀ w, Stored key.keytbl w → 0 < key.freq w →
    (∃ h, h ∈ key.headers w) ∧ ∀ h ∈ key.headers w, h ∈ key.headersbynumtbl
  uncounted : ∀ w, Stored key.keytbl w → key.freq w = 0 → ∀ h, h ∉ key.headers w

/-- Frequencies that `..` writes with all their digits, as `decimal` does. From here on Lua writes an exponent. -/
def Printed (key : Key) : Prop := ∀ w, Stored key.keytbl w → key.freq w < 10 ^ 14

theorem printed_of_entries {key : Key} (small : ∀ e ∈ key.freqtbl.entries, e.2 < 10 ^ 14) : Printed key := by
  intro w _
  rw [Key.freq]
  cases counted : field key.freqtbl w with
  | none => exact Nat.pow_pos (by decide)
  | some freq => exact small ⟨w, freq⟩ (AList.mem_lookup_iff.mp counted)

theorem Savable.writable {key : Key} (savable : Savable key) : Writable key :=
  ⟨savable.wellFormed, savable.letters, savable.registered, savable.distinct, savable.clean, savable.counted,
    savable.uncounted⟩

/-! Source lines. -/

theorem sourceline_bytes (num : Nat) (positive : num ≠ 0) (h : Str) (b : UInt8)
    (other : isAlpha b = false ∧ isDigit b = false ∧ b ≠ 32 ∧ b ≠ 61) (absent : b ∉ h) :
    b ∉ letterkey num ++ lit " = " ++ h := by
  have equals : lit " = " = [32, 61, 32] := by decide
  have front := letterkey_without num positive b ⟨other.1, other.2.1⟩
  simp [equals, front, other, absent]

theorem without_append (a b : UInt8) (first second : Str) (left : Without a b first)
    (right : Without a b second) (apart : first.getLast? ≠ some a ∨ second.head? ≠ some b) :
    Without a b (first ++ second) := by
  refine left.append right ?_
  rintro x last y head ⟨rfl, rfl⟩
  exact apart.elim (fun other => other last) fun other => other head

theorem sourceline_without (num : Nat) (positive : num ≠ 0) (h : Str) (b : UInt8)
    (within : Without 47 b h) : Without 47 b (letterkey num ++ lit " = " ++ h) := by
  have key := letterkey_without num positive 47 (by decide)
  have equals : lit " = " = [32, 61, 32] := by decide
  have front : 47 ∉ letterkey num ++ lit " = " := by simp [equals, key]
  refine without_append _ _ _ _ (without_of_not_mem front) within (.inl ?_)
  exact fun last => front (List.mem_of_getLast? last)

theorem sourceline_tidy (num : Nat) (positive : num ≠ 0) (h : Str) (clean : CleanHeader h) :
    Tidy true (letterkey num ++ lit " = " ++ h) := by
  have tab := sourceline_bytes num positive h 9 (by decide) clean.tabs
  refine ⟨sourceline_bytes num positive h 10 (by decide) clean.flat, without_of_not_mem tab,
    fun first => tab (List.mem_of_head? first), fun last => tab (List.mem_of_getLast? last), ?_⟩
  have equals : lit " = " = [32, 61, 32] := by decide
  have key := letterkey_without num positive 32 (by decide)
  have front : Without 32 32 (letterkey num ++ lit " = ") := by
    refine without_append _ _ _ _ (without_of_not_mem key) ?_ (.inl ?_)
    · rw [equals]
      decide
    · exact fun last => key (List.mem_of_getLast? last)
  exact without_append _ _ _ _ front clean.spaces (.inr clean.trimmed.1)

theorem sourceline_divider (num : Nat) (positive : num ≠ 0) (h : Str) (clear : ¬ DIVIDER <:+: h) :
    ¬ DIVIDER <:+: letterkey num ++ lit " = " ++ h := by
  intro inside
  have equals : lit " = " = [32, 61, 32] := by decide
  have key := letterkey_without num positive 95 (by decide)
  have split : letterkey num ++ lit " = " ++ h = (letterkey num ++ [32, 61]) ++ 32 :: h := by
    simp [equals]
  rw [split] at inside
  rcases infix_apart _ _ _ 32 (by decide) inside with front | back
  · have member : (95 : UInt8) ∈ letterkey num ++ [32, 61] := front.subset (by decide)
    simp [key] at member
  · exact clear back

theorem mem_sourcelines (headers : List Str) (num : Nat) (positive : num ≠ 0) (line : Str)
    (member : line ∈ sourcelines headers num) :
    ∃ n h, n ≠ 0 ∧ h ∈ headers ∧ line = letterkey n ++ lit " = " ++ h := by
  induction headers generalizing num with
  | nil => cases member
  | cons header headers ih =>
      rcases List.mem_cons.mp member with rfl | later
      · exact ⟨num, header, positive, by simp, rfl⟩
      · obtain ⟨n, h, nonzero, listed, shape⟩ := ih (num + 1) (by omega) later
        exact ⟨n, h, nonzero, by simp [listed], shape⟩

/-! Word lines. -/

inductive Line (key : Key) (w : Str) : Str → Prop where
  | bare (uncounted : key.freq w = 0) : Line key w w
  | columns (letters : List Str) (positive : 0 < key.freq w) (some : letters ≠ [])
      (same : ∀ letter, letter ∈ letters ↔ ∃ i h, key.headersbynumtbl[i]? = .some h ∧
        h ∈ key.headers w ∧ letter = letterkey (i + 1)) :
      Line key w (w ++ 9 :: decimal (key.freq w) ++ 9 :: [44].intercalate letters)

theorem wordline_run (hash : HashOrder) (key : Key) (writable : Writable key) (w : Str)
    (stored : Stored key.keytbl w) : ∃ line, wordline hash key w = .ok line ∧ Line key w line := by
  rw [wordline]
  cases frequency : field key.freqtbl w with
  | none => exact ⟨w, rfl, .bare (by simp [Key.freq, frequency])⟩
  | some freq =>
      have value : key.freq w = freq := by simp [Key.freq, frequency]
      by_cases positive : freq > 0
      · obtain ⟨filled, listed⟩ := writable.counted w stored (by omega)
        simp only [if_pos positive]
        cases sourced : field key.headerstbl w with
        | none => simp [Key.headers, sourced] at filled
        | some headers =>
            have same : key.headers w = headers := by simp [Key.headers, sourced]
            obtain ⟨letters, ran, lettered, members⟩ := lettersOf_run hash key.headersbynumtbl
              writable.distinct headers (same ▸ listed) (same ▸ filled)
            have tab : lit "\t" = [9] := by decide
            refine ⟨_, by simp only [ran, run_bind_ok, run_pure]; rfl, ?_⟩
            have line : Line key w _ := Line.columns letters (by omega) lettered
              (by rwa [same])
            simpa [tab, value] using line
      · exact ⟨w, by simp [positive], .bare (by omega)⟩

theorem intercalate_free {a b : UInt8} (apart : b ≠ a) (parts : List Str) (free : ∀ part ∈ parts, b ∉ part) :
    b ∉ [a].intercalate parts := by
  induction parts with
  | nil => simp
  | cons part parts ih =>
      have later := ih fun p member => free p (List.mem_cons_of_mem part member)
      have here := free part List.mem_cons_self
      cases parts with
      | nil => simpa using here
      | cons next parts =>
          rw [List.intercalate_cons_cons]
          simp [here, apart, later]

theorem columns_bytes (letters : List Str) (numbered : ∀ letter ∈ letters, ∃ i, letter = letterkey (i + 1))
    (b : UInt8) (other : isAlpha b = false ∧ isDigit b = false ∧ b ≠ 44) :
    b ∉ [44].intercalate letters := by
  apply intercalate_free other.2.2
  intro letter member
  obtain ⟨i, rfl⟩ := numbered letter member
  exact letterkey_without (i + 1) (by omega) b ⟨other.1, other.2.1⟩

theorem line_bytes {key : Key} {w line : Str} (written : Line key w line)
    (letters : ∀ b ∈ w, isLetter b = true) (b : UInt8)
    (other : isLetter b = false ∧ isAlpha b = false ∧ isDigit b = false ∧ b ≠ 9 ∧ b ≠ 44) :
    b ∉ line := by
  obtain ⟨notLetter, notAlpha, notDigit, notTab, notComma⟩ := other
  have word : b ∉ w := fun member => by simp [letters b member] at notLetter
  cases written with
  | bare _ => exact word
  | columns columns _ _ same =>
      have digits : b ∉ decimal (key.freq w) := fun member => by
        simp [decimal_digits _ b member] at notDigit
      have column := columns_bytes columns (fun letter member => by
        obtain ⟨i, _, _, _, shape⟩ := (same letter).mp member
        exact ⟨i, shape⟩) b ⟨notAlpha, notDigit, notComma⟩
      simp [word, digits, column, notTab]

theorem line_ne_nil {key : Key} {w line : Str} (written : Line key w line) (filled : w ≠ []) :
    line ≠ [] := by
  cases written with
  | bare _ => exact filled
  | columns _ _ _ _ => simp

theorem columns_tabs (w freqstr headersstr : Str) (noTab : 9 ∉ w) (noTab' : 9 ∉ freqstr)
    (noTab'' : 9 ∉ headersstr) (some : freqstr ≠ []) (some' : headersstr ≠ []) :
    Without 9 9 (w ++ 9 :: freqstr ++ 9 :: headersstr) ∧
      (w ++ 9 :: freqstr ++ 9 :: headersstr).getLast? ≠ .some 9 := by
  have tabbed (s : Str) (filled : s ≠ []) (clear : 9 ∉ s) : Without 9 9 (9 :: s) := by
    refine List.isChain_cons.mpr ⟨fun y first both => ?_, without_of_not_mem clear⟩
    exact clear (both.2 ▸ List.mem_of_head? first)
  have ends (s : Str) (clear : 9 ∉ s) : s.getLast? ≠ .some 9 :=
    fun last => clear (List.mem_of_getLast? last)
  constructor
  · refine without_append _ _ _ _ (without_append _ _ _ _ (without_of_not_mem noTab)
      (tabbed _ some noTab') (.inl (ends w noTab))) (tabbed _ some' noTab'') (.inl ?_)
    rw [List.getLast?_append_of_ne_nil _ (by simp), List.getLast?_cons_of_ne_nil some]
    exact ends freqstr noTab'
  · rw [List.getLast?_append_of_ne_nil _ (by simp), List.getLast?_cons_of_ne_nil some']
    exact ends headersstr noTab''

theorem letters_ne_nil (letters : List Str) (some : letters ≠ [])
    (numbered : ∀ letter ∈ letters, ∃ i, letter = letterkey (i + 1)) :
    [44].intercalate letters ≠ [] := by
  obtain ⟨letter, rest, rfl⟩ := List.exists_cons_of_ne_nil some
  obtain ⟨i, rfl⟩ := numbered letter (by simp)
  have filled := letterkey_ne_nil (i + 1) (by omega)
  cases rest with
  | nil => simpa using filled
  | cons next rest => simp [List.intercalate_cons_cons]

theorem line_tidy {key : Key} {w line : Str} (written : Line key w line)
    (letters : ∀ b ∈ w, isLetter b = true) (filled : w ≠ []) : Tidy false line := by
  have word : 9 ∉ w := fun member => absurd (letters 9 member) (by decide)
  have flat := line_bytes written letters 10 (by decide)
  have spaces := line_bytes written letters 32 (by decide)
  have first : line.head? ≠ some 9 := by
    obtain ⟨b, w, rfl⟩ := List.exists_cons_of_ne_nil filled
    have other : b ≠ 9 := fun same => word (by simp [same])
    cases written <;> simpa using other
  cases written with
  | bare _ =>
      exact ⟨flat, without_of_not_mem word, first, fun last => word (List.mem_of_getLast? last), spaces⟩
  | columns columns _ some same =>
      have numbered : ∀ letter ∈ columns, ∃ i, letter = letterkey (i + 1) := fun letter member => by
        obtain ⟨i, _, _, _, shape⟩ := (same letter).mp member
        exact ⟨i, shape⟩
      have digits : 9 ∉ decimal (key.freq w) := fun member => by
        simpa [isDigit] using decimal_digits _ 9 member
      obtain ⟨tabs, last⟩ := columns_tabs w _ _ word digits (columns_bytes columns numbered 9 (by decide))
        (decimal_ne_nil _) (letters_ne_nil columns some numbered)
      exact ⟨flat, tabs, first, last, spaces⟩

end Maccer
