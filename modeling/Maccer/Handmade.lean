import Maccer.KeyInvariant
import Maccer.KeyRoundTrip

/-! A saved key without sources is not read back. -/

namespace Maccer

open Lua

/-! Comments are removed behind a part of the text that has none of its own. -/

theorem gsubFrom_front (front back pattern : Str) (fuel count i : Nat) (r : Str)
    (misses : ∀ j < front.length, matchAt (front ++ back) pattern j = .ok none)
    (inside : i ≤ front.length)
    (ran : gsubFrom (front ++ back) pattern [] fuel count i = .ok r) :
    ∃ rest, r = front.drop i ++ rest := by
  induction fuel generalizing count i r with
  | zero => cases ran
  | succ fuel ih =>
      by_cases last : i = front.length
      · exact ⟨r, by simp [last]⟩
      · have here : i < front.length := by omega
        have bound : i < (front ++ back).length := by
          rw [List.length_append]
          omega
        rw [gsubFrom] at ran
        split at ran
        · cases ran
          refine ⟨back, ?_⟩
          rw [List.drop_append_of_le_length inside]
        · rw [misses i here] at ran
          simp only at ran
          obtain ⟨rest, next, shape⟩ := bind_eq_ok.mp ran
          obtain ⟨rest', later⟩ := ih _ (i + 1) _ (by omega) next
          refine ⟨rest', ?_⟩
          cases shape
          rw [later, List.drop_append_of_le_length inside, List.drop_eq_getElem_cons here]
          rfl

theorem stripComments_front (lines : List Str) (rest : Str) (flat : ∀ line ∈ lines, 10 ∉ line) :
    stripComments false (unlines lines ++ rest) =
      unlines (lines.map (stripComments false)) ++ stripComments false rest := by
  induction lines with
  | nil => rfl
  | cons line lines ih =>
      rw [unlines_cons, List.append_assoc, List.cons_append,
        stripComments_line line _ (flat line (by simp)), ih fun l member => flat l (by simp [member]),
        List.map_cons, unlines_cons]
      simp

theorem decomment_front (lines : List Str) (rest text : Str)
    (flat : ∀ line ∈ lines, 10 ∉ line ∧ Without 47 42 (line ++ [10]))
    (ran : decomment (unlines lines ++ rest) = .ok text) :
    ∃ rest', text = unlines (lines.map (stripComments false)) ++ rest' := by
  have apart : Without 47 42 (unlines lines) :=
    without_unlines _ _ _ (fun line member => (flat line member).2) (by simp)
  have misses : ∀ j < (unlines lines).length,
      matchAt (unlines lines ++ rest) (lit "/%*.+%*/") j = .ok none := by
    refine fun j less => matchAt_multi _ j ?_
    rintro ⟨first, second⟩
    rw [List.getElem?_append_left less] at first
    by_cases next : j + 1 < (unlines lines).length
    · rw [List.getElem?_append_left next] at second
      exact apart.noMulti j ⟨first, second⟩
    · -- The last byte of the lines is a newline.
      have some : lines ≠ [] := fun empty => by simp [empty, unlines] at less
      have last : (unlines lines)[j]? = .some 10 := by
        have whole := unlines_eq_intercalate lines some
        rw [whole] at less next ⊢
        rw [List.length_append, List.length_singleton] at less next
        rw [List.getElem?_append_right (by omega),
          show j - ([10].intercalate lines).length = 0 by omega]
        rfl
      rw [last] at first
      cases first
  rw [decomment] at ran
  obtain ⟨first, multi, single⟩ := bind_eq_ok.mp ran
  obtain ⟨middle, shape⟩ := gsubFrom_front (unlines lines) rest (lit "/%*.+%*/") _ _ 0 first misses
    (by omega) multi
  rw [List.drop_zero] at shape
  have stripped := gsubFrom_line first (first.length + 2) (first.length + 1) 0 (by omega) (by omega)
  rw [List.drop_zero] at stripped
  have same : text = stripComments false first := Except.ok.inj (single.symm.trans stripped)
  rw [same, shape, stripComments_front lines middle fun line member => (flat line member).1]
  exact ⟨_, rfl⟩

/-! The section of sources is left with blank lines, or with the divider as its first line. -/

theorem replacePair_apart (a b x : UInt8) (new front back : Str) (apart : Without a b (front ++ [x])) :
    replacePair a b new (front ++ x :: back) = front ++ replacePair a b new (x :: back) := by
  induction front with
  | nil => rfl
  | cons y front ih =>
      obtain ⟨first, later⟩ := List.isChain_cons.mp apart
      cases front with
      | nil =>
          rw [List.cons_append, List.nil_append, replacePair, if_neg (first x rfl)]
          rfl
      | cons z front =>
          rw [List.cons_append, List.cons_append, replacePair, if_neg (first z rfl),
            ← List.cons_append, ih later]
          rfl

theorem replacePair_newline (a b : UInt8) (s : Str) :
    ∃ s', replacePair a b [10] (10 :: s) = 10 :: s' := by
  cases s with
  | nil => exact ⟨[], rfl⟩
  | cons c s =>
      rw [replacePair]
      split
      · exact ⟨_, rfl⟩
      · exact ⟨_, rfl⟩

theorem dropWhile_blanks (n : Nat) (s : Str) :
    (collapse 10 (List.replicate n 10 ++ s)).dropWhile (· == 10) =
      (collapse 10 s).dropWhile (· == 10) := by
  induction n with
  | zero => rfl
  | succ n ih => rw [List.replicate_succ, List.cons_append, dropWhile_collapse, ih]

theorem collapse_newline (s : Str) : ∃ s', collapse 10 (10 :: s) = 10 :: s' := by
  induction s with
  | nil => exact ⟨[], rfl⟩
  | cons b s ih =>
      rw [collapse]
      split
      case isTrue newline =>
          have same : b = 10 := by simpa using newline.2
          exact same ▸ ih
      case isFalse => exact ⟨_, rfl⟩

theorem rdropWhile_front (front s : Str) (flat : 10 ∉ front) :
    (front ++ s).rdropWhile (· == 10) = front ++ s.rdropWhile (· == 10) := by
  induction s using List.reverseRecOn with
  | nil =>
      have kept : front.rdropWhile (· == 10) = front := List.rdropWhile_eq_self_iff.mpr fun some => by
        have member := List.getLast_mem some
        simpa using fun same : front.getLast some = 10 => flat (same ▸ member)
      simpa using kept
  | append_singleton s b ih =>
      rw [← List.append_assoc]
      rw [List.rdropWhile_concat, List.rdropWhile_concat]
      split
      · exact ih
      · rw [List.append_assoc]

theorem cleanup_divider (n : Nat) (s : Str) :
    ∃ lines, (cleanup (List.replicate n 10 ++ DIVIDER ++ 10 :: s) true true).splitOn 10 =
      DIVIDER :: lines := by
  have blanks (a b : UInt8) (others : ¬ (a = 10 ∧ b = 10) ∧ ¬ (a = 10 ∧ b = 95) ∧ a ≠ 95) :
      Without a b (List.replicate n 10 ++ DIVIDER ++ [10]) := by
    obtain ⟨newlines, into, divider⟩ := others
    rw [divider_shape]
    induction n with
    | zero =>
        refine without_append a b [95, 95, 95, 95, 95] [10] (without_of_not_mem ?_) (.singleton _) (.inl ?_)
        · simp [divider]
        · simp [Ne.symm divider]
    | succ n ih =>
        rw [List.replicate_succ, List.cons_append, List.cons_append]
        refine List.isChain_cons.mpr ⟨?_, ih⟩
        rintro y first ⟨rfl, rfl⟩
        cases n with
        | zero => exact into ⟨rfl, by simpa [eq_comm] using first⟩
        | succ n => exact newlines ⟨rfl, by simpa [List.replicate_succ, eq_comm] using first⟩
  have absent (char : UInt8) (other : char ≠ 10 ∧ char ≠ 95) :
      char ∉ List.replicate n 10 ++ DIVIDER := by
    rw [divider_shape]
    simp [other]
  obtain ⟨s₁, first⟩ := replacePair_newline 10 9 s
  obtain ⟨s₂, second⟩ := replacePair_newline 9 10 s₁
  have third : collapse 9 (10 :: s₂) = 10 :: collapse 9 s₂ := by simp [collapse]
  have fourth : collapse 32 (10 :: collapse 9 s₂) = 10 :: collapse 32 (collapse 9 s₂) := by
    simp [collapse]
  obtain ⟨s₃, fifth⟩ := collapse_newline (collapse 32 (collapse 9 s₂))
  have shape : cleanup (List.replicate n 10 ++ DIVIDER ++ 10 :: s) true true =
      DIVIDER ++ (10 :: s₃).rdropWhile (· == 10) := by
    rw [cleanup]
    simp only [if_true, cutmultiple_eq]
    rw [replacePair_apart _ _ _ _ _ _ (blanks 10 9 (by decide)), first,
      replacePair_apart _ _ _ _ _ _ (blanks 9 10 (by decide)), second,
      collapse_line _ _ _ (absent 9 (by decide)), third, collapse_line _ _ _ (absent 32 (by decide)),
      fourth, trimNewlines, List.append_assoc, dropWhile_blanks,
      collapse_line _ _ _ (by decide), fifth]
    have kept : (DIVIDER ++ 10 :: s₃).dropWhile (· == 10) = DIVIDER ++ 10 :: s₃ := by
      rw [divider_shape]
      rfl
    rw [kept, rdropWhile_front _ _ (by decide)]
  rw [shape]
  have front : ∀ b ∈ DIVIDER, (b == 10) = false := by decide +kernel
  cases rest : (10 :: s₃).rdropWhile (· == 10) with
  | nil => exact ⟨[], by decide⟩
  | cons b back =>
      have newline : b = 10 := by
        obtain ⟨tail, whole⟩ := List.rdropWhile_prefix (· == 10) (10 :: s₃)
        rw [rest] at whole
        exact (List.cons.inj whole).1
      subst newline
      exact ⟨_, List.splitOnP_append_cons_of_forall_mem front 10 (by rfl) back⟩

theorem loadSources_raises (front : Str)
    (shape : front = List.replicate 10 10 ∨ ∃ s, front = List.replicate 10 10 ++ DIVIDER ++ 10 :: s) :
    loadSources front = .error .raised := by
  rcases shape with rfl | ⟨s, rfl⟩
  · decide
  · obtain ⟨lines, split⟩ := cleanup_divider 10 s
    have first : loadSource ([], ∅) DIVIDER = .error .raised := by decide
    rw [loadSources, split, List.foldlM_cons, first]
    rfl

/-- The section of sources ends at the last divider: with no source it is blank, or has
the first divider on its first line. -/
theorem lmatch_sections (e : Str) :
    ∃ front, lmatch (List.replicate 10 10 ++ DIVIDER ++ 10 :: e) (lit "(.+)" ++ DIVIDER) =
        .ok (some [front]) ∧
      (front = List.replicate 10 10 ∨ ∃ s, front = List.replicate 10 10 ++ DIVIDER ++ 10 :: s) := by
  generalize whole : List.replicate 10 10 ++ DIVIDER ++ 10 :: e = text
  have here : DIVIDER <+: text.drop 10 := by
    rw [← whole]
    exact ⟨10 :: e, by simp⟩
  classical
  let last := Nat.findGreatest (fun k => DIVIDER <+: text.drop k) text.length
  have found : DIVIDER <+: text.drop last :=
    Nat.findGreatest_spec (P := fun k => DIVIDER <+: text.drop k) (m := 10)
      (by simp [← whole]) here
  have later : ∀ k, last < k → ¬ DIVIDER <+: text.drop k := by
    intro k less starts
    by_cases bound : k ≤ text.length
    · exact Nat.findGreatest_is_greatest less bound starts
    · rw [List.drop_eq_nil_of_le (by omega)] at starts
      exact absurd (List.prefix_nil.mp starts) (by decide)
  have least : 10 ≤ last := Nat.le_findGreatest (by simp [← whole]) here
  obtain ⟨back, shape⟩ := found
  have split : text = text.take last ++ DIVIDER ++ back := by
    rw [List.append_assoc, shape, List.take_append_drop]
  have size : (text.take last).length = last := by
    rw [List.length_take, Nat.min_eq_left]
    exact Nat.findGreatest_le _
  have filled : text.take last ≠ [] := by
    intro empty
    rw [empty] at size
    simp at size
    omega
  have matched := lmatch_before (text.take last) back filled (by rwa [← split, size])
  rw [← split] at matched
  refine ⟨text.take last, matched, ?_⟩
  by_cases first : last = 10
  · left
    rw [first, ← whole]
    simp
  · right
    -- Between the first divider and a newline there is no room for another one.
    have beyond : 16 ≤ last := by
      by_contra near
      have byte : text[15]? = some 10 := by
        rw [← whole, divider_shape]
        rfl
      obtain ⟨i, inside⟩ : ∃ i, last + i = 15 ∧ i < 5 := ⟨15 - last, by omega⟩
      have score : DIVIDER[i]? = some 10 := by
        have prefixed : (text.drop last)[i]? = DIVIDER[i]? := by
          rw [← shape, List.getElem?_append_left]
          rw [divider_shape]
          exact inside.2
        rw [← prefixed, List.getElem?_drop, inside.1, byte]
      exact absurd (List.mem_of_getElem? score) (by decide)
    refine ⟨(text.drop 16).take (last - 16), ?_⟩
    have start : text.take 16 = List.replicate 10 10 ++ DIVIDER ++ [10] := by
      rw [← whole, divider_shape]
      rfl
    calc
      text.take last = text.take 16 ++ (text.drop 16).take (last - 16) := by
        rw [← List.take_add, show 16 + (last - 16) = last by omega]
      _ = List.replicate 10 10 ++ DIVIDER ++ 10 :: (text.drop 16).take (last - 16) := by
        rw [start]
        simp

/-- What `macra.savekey` writes when it has no source to list. -/
def sourcelessFile (forms : List Str) : Str :=
  bom ++ unlines (wordkeyIntro ++ [[], DIVIDER, []] ++ wordsIntro ++ forms)

theorem savekey_handmade (hash : HashOrder) (key : Key) (uncounted : ∀ w, Stored key.keytbl w →
    key.freq w = 0) (sources : key.headersbynumtbl = []) :
    savekey hash key = .ok (sourcelessFile ((sortedpairs key.keytbl).map Prod.snd),
      ((sortedpairs key.keytbl).map Prod.snd).length) := by
  have each : ∀ w ∈ (sortedpairs key.keytbl).map Prod.snd, wordline hash key w = .ok w := by
    intro w member
    obtain ⟨⟨k, v⟩, stored, rfl⟩ := List.mem_map.mp member
    have zero := uncounted v ⟨k, (mem_pairs _ _ k v).mp stored⟩
    unfold wordline
    cases frequency : field key.freqtbl v with
    | none => rfl
    | some freq =>
        have none : ¬ freq > 0 := by
          rw [Key.freq, frequency] at zero
          simpa using zero
        simp [none]
  have lines : ((sortedpairs key.keytbl).map Prod.snd).mapM (wordline hash key) =
      .ok ((sortedpairs key.keytbl).map Prod.snd) := by
    generalize (sortedpairs key.keytbl).map Prod.snd = ws at each
    induction ws with
    | nil => rfl
    | cons w ws ih =>
        rw [List.mapM_cons, each w (by simp), run_bind_ok, ih fun v member => each v (by simp [member])]
        rfl
  simp only [savekey, lines, sources, run_bind_ok, run_pure, sourcelessFile]
  simp [sourcelines]

/-- The section of sources is there but has no line that `macra.loadkey` can read. -/
theorem loadkey_sourceless (forms : List Str) (loaded : Key) :
    loadkey (sourcelessFile forms) ≠ .ok loaded := by
  intro ran
  obtain ⟨keystrall, text, ran⟩ := bind_eq_ok.mp ran
  have parts : readutf8 (sourcelessFile forms) =
      unlines (wordkeyIntro ++ [[], DIVIDER]) ++ unlines ([] :: wordsIntro ++ forms) := by
    rw [← unlines_append]
    simp [readutf8, bom, sourcelessFile]
  obtain ⟨blank, _, _, intro_lines⟩ := intro_comments
  rw [parts] at text
  obtain ⟨e, shape⟩ := decomment_front _ _ _ (fun line member => by
    rcases List.mem_append.mp member with intro' | mark
    · exact intro_lines line (by simp [intro'])
    · exact (by decide : ∀ line ∈ [[], DIVIDER], 10 ∉ line ∧ Without 47 42 (line ++ [10])) line
        mark) text
  have front : unlines ((wordkeyIntro ++ [[], DIVIDER]).map (stripComments false)) ++ e =
      List.replicate 10 10 ++ DIVIDER ++ 10 :: e := by
    rw [List.map_append, blank]
    have rest : [[], DIVIDER].map (stripComments false) = [[], DIVIDER] := by decide
    rw [rest]
    simp [unlines]
  rw [front] at shape
  obtain ⟨section', matched, section_shape⟩ := lmatch_sections e
  have words := lmatch_after (List.replicate 10 10) (10 :: e) (by simp) (by
    intro k less starts
    have head : ((List.replicate 10 10 ++ DIVIDER ++ 10 :: e).drop k).head? = some 10 := by
      rw [List.head?_drop, List.append_assoc, List.getElem?_append_left less,
        List.getElem?_replicate_of_lt (by simpa using less)]
    obtain ⟨back, whole⟩ := starts
    rw [← whole, divider_shape] at head
    cases head)
  rw [shape] at ran
  simp only [matched, words, run_bind_ok, Option.bind_some, List.head?_cons, Option.getD_some,
    reduceCtorEq, if_false, loadSources_raises section' section_shape, run_bind_error] at ran

/-- No key without sources and frequencies survives saving. -/
theorem loadkey_savekey_handmade (hash : HashOrder) (key : Key)
    (uncounted : ∀ w, Stored key.keytbl w → key.freq w = 0) (sources : key.headersbynumtbl = []) :
    ∃ file count, savekey hash key = .ok (file, count) ∧ ∀ loaded, loadkey file ≠ .ok loaded :=
  ⟨_, _, savekey_handmade hash key uncounted sources, loadkey_sourceless _⟩

theorem tectum_uncounted (w : Str) (stored : Stored tectumSession.key.keytbl w) :
    tectumSession.key.freq w = 0 ∧ ∀ h, h ∉ tectumSession.key.headers w := by
  obtain ⟨k, found⟩ := stored
  have only : ∀ e ∈ tectumSession.key.keytbl.entries, e.2 = lit "tectum" := by decide
  obtain rfl : w = lit "tectum" := only ⟨k, w⟩ (AList.mem_lookup_iff.mp found)
  have empty : (tectumSession.key.headers (lit "tectum")).keys = [] := by decide
  refine ⟨by decide, fun h member => ?_⟩
  rw [AList.mem_keys, empty] at member
  cases member

theorem loadkey_savekey_handmade_tectum :
    ∃ file count, savekey .stored tectumSession.key = .ok (file, count) ∧
      ∀ loaded, loadkey file ≠ .ok loaded :=
  loadkey_savekey_handmade .stored tectumSession.key (fun w stored => (tectum_uncounted w stored).1) rfl

/-- A key that holds only `tectum`, added by hand, is lost by saving. -/
theorem loadkey_tectum_lost :
    ¬ ∀ (hash : HashOrder) (key : Key), WellFormed key.keytbl → (∃ w, Stored key.keytbl w) →
      (∀ w, Stored key.keytbl w → key.freq w = 0 ∧ ∀ h, h ∉ key.headers w) →
      key.headersbynumtbl = [] →
      ∃ file count loaded, savekey hash key = .ok (file, count) ∧ loadkey file = .ok loaded ∧
        (∀ w, Stored loaded.keytbl w ↔ Stored key.keytbl w) ∧
        ∀ w, Stored loaded.keytbl w → loaded.freq w = 0 ∧ ∀ h, h ∉ loaded.headers w := by
  intro claim
  obtain ⟨file, count, loaded, saved, read, _⟩ := claim .stored tectumSession.key
    tectumSession_wellFormed ⟨lit "tectum", lit "tectum", by decide⟩ tectum_uncounted rfl
  rw [savekey_handmade .stored tectumSession.key (fun w stored => (tectum_uncounted w stored).1) rfl]
    at saved
  cases saved
  exact loadkey_sourceless _ loaded read

end Maccer
