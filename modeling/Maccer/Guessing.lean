import Maccer.Characters
import Maccer.Mac
import Maccer.Majority
import Maccer.Sources

/-! Which of the parallels of a word `macronize` chooses. -/

namespace Maccer

open Lua

def longAt (i : Nat) (form : Str) : Bool :=
  ((Utf8.chars form).1[i]?).any fun c => (field unicode.macroninvtbl c).isSome

def markVowel (forms : List Str) (i : Nat) (c : Str) : Str :=
  match field unicode.tildetbl c with
  | none => c
  | some tildevowel =>
      if forms.all (longAt i) then (field unicode.macrontbl c).getD c
      else if forms.any (longAt i) then tildevowel else c

def marked (plainw : Str) (forms : List Str) : Str :=
  ((Utf8.chars plainw).1.mapIdx (markVowel forms)).flatten

set_option maxRecDepth 8000 in
theorem vowels_readable :
    (∀ e ∈ unicode.macroninvtbl.entries, Utf8.Readable e.2) ∧
      (∀ e ∈ unicode.macrontbl.entries, Utf8.Readable e.2) ∧
      ∀ e ∈ unicode.tildetbl.entries, Utf8.Readable e.2 ∧ (field unicode.macrontbl e.1).isSome := by
  decide

theorem plain_chars {w p : Str} (same : plain w = .ok p) :
    ∃ ws, Utf8.Decodes ws ∧ w = ws.flatten ∧
      Utf8.Decodes (ws.map fun c => (field unicode.macroninvtbl c).getD c) ∧
      p = (ws.map fun c => (field unicode.macroninvtbl c).getD c).flatten := by
  have whole : (Utf8.chars w).2 = [] := by
    by_contra broken
    simp [plain, Utf8.replace, broken] at same
  obtain ⟨ws, decodes, rfl⟩ := Utf8.exists_decodes whole
  rw [plain, Utf8.replace_decodes decodes] at same
  refine ⟨ws, decodes, rfl, decodes.map _ fun c _ => ?_, (Except.ok.inj same).symm⟩
  cases entry : field unicode.macroninvtbl c with
  | none => exact .inl rfl
  | some letter =>
      exact .inr (vowels_readable.1 ⟨c, letter⟩ (AList.mem_lookup_iff.mp entry))

theorem sub_form {w p : Str} {ps : List Str} (same : plain w = .ok p) (chars : (Utf8.chars p).1 = ps)
    {i : Nat} (inside : i < ps.length) :
    ∃ c, Utf8.sub w ((i : Int) + 1) ((i : Int) + 1) = .ok c ∧
      (field unicode.macroninvtbl c).isSome = longAt i w := by
  obtain ⟨ws, decodes, rfl, plains, rfl⟩ := plain_chars same
  rw [Utf8.chars_decodes plains] at chars
  subst chars
  obtain ⟨c, here⟩ : ∃ c, ws[i]? = some c :=
    ⟨_, List.getElem?_eq_getElem (by simpa using inside)⟩
  refine ⟨c, Utf8.sub_char decodes here, ?_⟩
  rw [longAt, Utf8.chars_decodes decodes, here]
  rfl

theorem lastTwo_period {p : Str} (period : subFrom p (p.length - 1) = lit ".") : p = lit "." := by
  have dot : lit "." = [46] := by decide
  rw [dot] at period ⊢
  match p with
  | [] => cases period
  | [a] => exact period
  | a :: b :: rest =>
      have shape : (((a :: b :: rest).length : Int) - 1) = (rest.length : Int) + 1 := by
        simp only [List.length_cons]
        omega
      rw [shape, subFrom_succ] at period
      have lengths := congrArg List.length period
      simp only [List.length_drop, List.length_cons, List.length_nil] at lengths
      omega

set_option maxRecDepth 8000 in
theorem plain_period {w : Str} (same : plain w = .ok (lit ".")) : w = lit "." := by
  have letters : ∀ e ∈ unicode.macroninvtbl.entries, e.2 ≠ [46] := by decide
  have dot : lit "." = [46] := by decide
  obtain ⟨ws, _, rfl, plains, joined⟩ := plain_chars same
  rw [dot] at joined ⊢
  match ws with
  | [] => cases joined
  | c :: d :: rest =>
      have first := plains.ne_nil (c := (field unicode.macroninvtbl c).getD c) (by simp)
      have second := plains.ne_nil (c := (field unicode.macroninvtbl d).getD d) (by simp)
      have lengths := congrArg List.length joined
      simp only [List.map_cons, List.flatten_cons, List.length_append, List.length_cons,
        List.length_nil] at lengths
      have positive := List.length_pos_iff.mpr first
      have positive' := List.length_pos_iff.mpr second
      omega
  | [c] =>
      cases entry : field unicode.macroninvtbl c with
      | none => simpa [entry, eq_comm] using joined
      | some letter =>
          have other := letters ⟨c, letter⟩ (AList.mem_lookup_iff.mp entry)
          exact absurd (by simpa [entry, eq_comm] using joined) other

namespace Tables

variable (t : Tables)

def formfreq (w : Str) : Nat := (field t.freqtbl w).getD 1

theorem getpars_several {p : Str} (fuel : Nat) (several : 2 ≤ (chain t.keytbl p).length)
    (distinct : (chain t.keytbl p).Nodup)
    (demacronises : ∀ w ∈ chain t.keytbl p, plain w = .ok p) :
    (t.desktop fuel).getpars p = some (parallels t.keytbl p, (chain t.keytbl p).length) := by
  have filled : chain t.keytbl p ≠ [] := by
    rintro empty
    simp [empty] at several
  have ordinary : (subFrom p (p.length - 1) == lit ".") = false := by
    rw [beq_eq_false_iff_ne]
    intro period
    have only : ∀ w ∈ chain t.keytbl p, w = lit "." := fun w member =>
      plain_period ((demacronises w member).trans (congrArg _ (lastTwo_period period)))
    have repeated := List.eq_replicate_of_mem only
    rw [repeated, List.nodup_replicate] at distinct
    omega
  have same := getpars_eq t.keytbl p
  rw [if_neg filled] at same
  have again : getpars t.keytbl p true = getpars t.keytbl p false := by
    simp [getpars, ordinary]
  simp [desktop, again, same]

/-! The guess. -/

theorem pairs_parallels {keytbl : Table Str} {p : Str} (hash : HashOrder)
    (distinct : (chain keytbl p).Nodup) :
    ((pairs hash (parallels keytbl p)).map (·.1)).Perm (chain keytbl p) := by
  refine (List.perm_ext_iff_of_nodup (pairs_nodup hash _) distinct).mpr fun w => ?_
  rw [List.mem_map]
  constructor
  · rintro ⟨e, member, rfl⟩
    by_contra absent
    rw [mem_pairs, (field_parallels_none keytbl p e.1).mpr absent] at member
    cases member
  · intro present
    obtain ⟨i, _, found⟩ := field_parallels keytbl p w present
    exact ⟨(w, _), (mem_pairs hash _ _ _).mpr found, rfl⟩

theorem parfreq_parallels {p : Str} {par : Str × Str}
    (member : par ∈ pairs t.hash (parallels t.keytbl p)) :
    t.parfreq par.1 par.2 = t.formfreq par.1 := by
  have found := (mem_pairs t.hash _ par.1 par.2).mp member
  have present : par.1 ∈ chain t.keytbl p := by
    by_contra absent
    rw [(field_parallels_none t.keytbl p par.1).mpr absent] at found
    cases found
  obtain ⟨i, here, same⟩ := field_parallels t.keytbl p par.1 present
  have slotted : par.2 = slot p i := Option.some.inj (found.symm.trans same)
  rw [parfreq, formfreq, slotted, field_of_chain t.keytbl p i par.1 here, Option.bind_some,
    Option.or_self]

theorem guess_fold (pars : List (Str × Str)) (state : Option (Str × Nat) × Nat)
    (counted : ∀ par ∈ pars, t.parfreq par.1 par.2 = t.formfreq par.1) :
    pars.foldl t.guessStep state = (pars.map (·.1)).foldl (Majority.step t.formfreq) state := by
  induction pars generalizing state with
  | nil => rfl
  | cons par pars ih =>
      have first : t.guessStep state par = Majority.step t.formfreq state par.1 := by
        obtain ⟨top, total⟩ := state
        cases top <;> simp only [guessStep, Majority.step, counted par (by simp)]
      rw [List.foldl_cons, List.map_cons, List.foldl_cons, first]
      exact ih _ fun par' member => counted par' (by simp [member])

theorem half_lt_threshold : 1 / 2 < GUESS_THRESHOLD := by norm_num [GUESS_THRESHOLD]

theorem guessw_parallels {p w : Str} (some : chain t.keytbl p ≠ []) (distinct : (chain t.keytbl p).Nodup) :
    t.guessw (parallels t.keytbl p) = .some w ↔
      Majority.Outweighs t.formfreq GUESS_THRESHOLD (chain t.keytbl p) w := by
  have perm := pairs_parallels t.hash distinct
  have filled : (pairs t.hash (parallels t.keytbl p)).map (·.1) ≠ [] := by
    intro empty
    exact some (List.nil_perm.mp (empty ▸ perm))
  obtain ⟨m, member, heaviest, folded⟩ := @Majority.foldl_step _ t.formfreq _ filled
  rw [guessw, t.guess_fold _ _ fun par => t.parfreq_parallels, folded, ← Majority.outweighs_perm perm]
  constructor
  · intro guessed
    dsimp only at guessed
    split at guessed
    case isTrue enough =>
        cases guessed
        exact ⟨member, enough.1, enough.2⟩
    case isFalse => cases guessed
  · intro outweighs
    obtain rfl := outweighs.eq_of_heaviest half_lt_threshold member heaviest
    exact if_pos ⟨outweighs.2.1, outweighs.2.2⟩

/-! The ambiguous word. -/

def vowelLength (long : Bool) : Length := if long then .long else .short

def compareLength (state : Length × Option Length) (long : Bool) : Length × Option Length :=
  if state.1 = .either then state
  else
    match state.2 with
    | none => (vowelLength long, some (vowelLength long))
    | some first => (if vowelLength long ≠ first then .either else state.1, state.2)

theorem compareLength_either (first : Option Length) (longs : List Bool) :
    longs.foldl compareLength (.either, first) = (.either, first) := by
  induction longs with
  | nil => rfl
  | cons long longs ih => exact ih

theorem compareLength_agreed (first : Bool) (longs : List Bool) :
    (longs.foldl compareLength (vowelLength first, some (vowelLength first))).1 =
      if ∀ long ∈ longs, long = first then vowelLength first else .either := by
  induction longs with
  | nil => simp
  | cons long longs ih =>
      have settled : vowelLength first ≠ .either := by cases first <;> decide
      rw [List.foldl_cons]
      by_cases same : long = first
      · have kept : compareLength (vowelLength first, some (vowelLength first)) long =
            (vowelLength first, some (vowelLength first)) := by
          simp [compareLength, settled, same]
        rw [kept, ih]
        simp [same]
      · have apart : vowelLength long ≠ vowelLength first := by
          revert same
          cases long <;> cases first <;> decide
        have split : compareLength (vowelLength first, some (vowelLength first)) long =
            (.either, some (vowelLength first)) := by
          simp [compareLength, settled, apart]
        rw [split, compareLength_either, if_neg fun all => same (all long (by simp))]

theorem compareLength_all (longs : List Bool) (some : longs ≠ []) :
    (longs.foldl compareLength (.short, none)).1 =
      if longs.all id then .long else if longs.any id then .either else .short := by
  obtain ⟨long, longs, rfl⟩ := List.exists_cons_of_ne_nil some
  have first : compareLength (.short, none) long = (vowelLength long, .some (vowelLength long)) := by
    simp [compareLength]
  rw [List.foldl_cons, first, compareLength_agreed]
  cases long with
  | true => simp [vowelLength]
  | false =>
      by_cases all : ∀ long ∈ longs, long = false
      · simp [vowelLength]
      · simp [vowelLength]

theorem setChar_decodes {cs : List Str} (decodes : Utf8.Decodes cs) {i : Nat} (inside : i < cs.length)
    (new : Str) : setChar cs.flatten (i + 1) new = .ok (cs.set i new).flatten := by
  have front := Utf8.sub_upto decodes i inside.le
  have back := Utf8.sub_from decodes (i + 1)
  rw [setChar, Nat.cast_add, Nat.cast_one, add_sub_cancel_right, front]
  rw [Nat.cast_add, Nat.cast_one] at back
  rw [run_bind_ok, back, run_bind_ok, run_pure, List.set_eq_take_append_cons_drop, if_pos inside]
  simp

section

variable {t} (characters : t.unicode = Maccer.unicode) {p : Str}
  (demacronises : ∀ w ∈ chain t.keytbl p, plain w = .ok p)
include characters demacronises

theorem lengthAt_parallels (distinct : (chain t.keytbl p).Nodup) (filled : chain t.keytbl p ≠ [])
    {i : Nat} (inside : i < (Utf8.chars p).1.length) :
    t.lengthAt (parallels t.keytbl p) (i + 1) =
      .ok (if (chain t.keytbl p).all (longAt i) then .long
        else if (chain t.keytbl p).any (longAt i) then .either else .short) := by
  have perm := pairs_parallels t.hash distinct
  generalize listed : (pairs t.hash (parallels t.keytbl p)).map (·.1) = forms at perm
  have folded (forms : List Str) (state : Length × Option Length)
      (inside' : ∀ w ∈ forms, plain w = .ok p) :
      forms.foldlM (t.lengthStep (i + 1)) state = .ok ((forms.map (longAt i)).foldl compareLength state) := by
    induction forms generalizing state with
    | nil => rfl
    | cons w forms ih =>
        obtain ⟨c, char, long⟩ := sub_form (inside' w (by simp)) rfl inside
        have step : t.lengthStep (i + 1) state w = .ok (compareLength state (longAt i w)) := by
          rw [lengthStep, compareLength, Nat.cast_add, Nat.cast_one, char, characters, ← long]
          split
          · rfl
          · cases state.2 <;> rfl
        rw [List.foldlM_cons, step, run_bind_ok, List.map_cons, List.foldl_cons]
        exact ih _ fun w' member => inside' w' (by simp [member])
  have nonempty : forms.map (longAt i) ≠ [] := by
    intro empty
    rw [List.map_eq_nil_iff.mp empty] at perm
    exact filled (List.nil_perm.mp perm)
  rw [lengthAt, listed, folded forms _ fun w member => demacronises w (perm.mem_iff.mp member),
    run_map_ok, compareLength_all _ nonempty]
  simp only [List.all_map, List.any_map, Function.id_comp, perm.all_eq, perm.any_eq]

theorem ambigAt_parallels (distinct : (chain t.keytbl p).Nodup) (filled : chain t.keytbl p ≠ [])
    {ps : List Str} (decodes : Utf8.Decodes ps) (shape : p = ps.flatten) {i : Nat} {c : Str}
    (here : ps[i]? = some c) {cs : List Str} (current : Utf8.Decodes cs) (untouched : cs[i]? = some c) :
    t.ambigAt p (parallels t.keytbl p) cs.flatten (i + 1) =
        .ok (cs.set i (markVowel (chain t.keytbl p) i c)).flatten ∧
      Utf8.Decodes (cs.set i (markVowel (chain t.keytbl p) i c)) := by
  have inside := (List.getElem?_eq_some_iff.mp here).1
  have bound := (List.getElem?_eq_some_iff.mp untouched).1
  have same : cs.set i c = cs := by
    obtain ⟨_, rfl⟩ := List.getElem?_eq_some_iff.mp untouched
    exact List.set_getElem_self bound
  have letter : Utf8.sub p ((i + 1 : Nat) : Int) ((i + 1 : Nat) : Int) = .ok c := by
    rw [Nat.cast_add, Nat.cast_one, shape]
    exact Utf8.sub_char decodes here
  have length := lengthAt_parallels characters demacronises distinct filled
    (i := i) (by rw [shape, Utf8.chars_decodes decodes]; exact inside)
  rw [ambigAt, letter, run_bind_ok, characters, markVowel]
  cases vowel : field Maccer.unicode.tildetbl c with
  | none => simp only [same]; exact ⟨rfl, current⟩
  | some tildevowel =>
      obtain ⟨tilde, macron⟩ := vowels_readable.2.2 ⟨c, tildevowel⟩ (AList.mem_lookup_iff.mp vowel)
      obtain ⟨macronvowel, long⟩ := Option.isSome_iff_exists.mp macron
      have longReadable := vowels_readable.2.1 ⟨c, macronvowel⟩ (AList.mem_lookup_iff.mp long)
      simp only [length, run_bind_ok]
      by_cases all : (chain t.keytbl p).all (longAt i) = true
      · simp only [if_pos all, long, Option.getD_some]
        exact ⟨setChar_decodes current bound _, current.set i longReadable⟩
      · simp only [if_neg all]
        by_cases any : (chain t.keytbl p).any (longAt i) = true
        · simp only [if_pos any]
          exact ⟨setChar_decodes current bound _, current.set i tilde⟩
        · simp only [if_neg any, same]
          exact ⟨rfl, current⟩

theorem ambigw_parallels (distinct : (chain t.keytbl p).Nodup) (filled : chain t.keytbl p ≠ []) :
    t.ambigw p (parallels t.keytbl p) = .ok (marked p (chain t.keytbl p)) := by
  obtain ⟨w, member⟩ := List.exists_mem_of_ne_nil _ filled
  obtain ⟨ws, _, _, decodes, shape⟩ := plain_chars (demacronises w member)
  generalize (ws.map fun c => (field Maccer.unicode.macroninvtbl c).getD c) = ps at decodes shape
  have loop (m k : Nat) (whole : k + m = ps.length) (cs : List Str) (current : Utf8.Decodes cs)
      (length : cs.length = ps.length) (untouched : cs.drop k = ps.drop k) :
      (List.range' (k + 1) m).foldlM (t.ambigAt p (parallels t.keytbl p)) cs.flatten =
        .ok (cs.take k ++ (ps.mapIdx (markVowel (chain t.keytbl p))).drop k).flatten := by
    induction m generalizing k cs with
    | zero =>
        have ended : k = ps.length := by omega
        rw [List.drop_eq_nil_of_le (by simp [ended]), List.append_nil, List.take_of_length_le (by omega)]
        rfl
    | succ m ih =>
        obtain ⟨c, here⟩ : ∃ c, ps[k]? = some c := ⟨_, List.getElem?_eq_getElem (by omega)⟩
        have there : cs[k]? = some c := by
          rw [← here, ← List.head?_drop, ← List.head?_drop, untouched]
        obtain ⟨step, kept⟩ := ambigAt_parallels characters demacronises distinct filled decodes shape
          here current there
        rw [List.range'_succ, List.foldlM_cons, step, run_bind_ok,
          ih (k + 1) (by omega) _ kept (by simpa using length) ?_]
        · have bound : k < cs.length := by omega
          have last : (cs.set k (markVowel (chain t.keytbl p) k c)).take (k + 1) =
              cs.take k ++ [markVowel (chain t.keytbl p) k c] := by
            rw [List.take_succ_eq_append_getElem (by simpa using bound), List.getElem_set_self,
              List.take_set_of_le le_rfl]
          obtain ⟨inside, rfl⟩ := List.getElem?_eq_some_iff.mp here
          rw [last, List.append_assoc, List.singleton_append,
            List.drop_eq_getElem_cons (i := k) (by simp; omega), List.getElem_mapIdx]
        · rw [List.drop_set_of_lt (by omega), ← List.drop_drop, untouched, List.drop_drop]
  have marks := loop ps.length 0 (by omega) ps decodes rfl rfl
  rw [ambigw, shape, Utf8.len_decodes decodes, run_bind_ok, ← shape]
  rw [Nat.zero_add, ← shape] at marks
  rw [marks, marked, shape, Utf8.chars_decodes decodes]
  simp

end

/-- Two or more parallels are resolved by their frequencies and their vowels alone,
whatever order they come in. -/
theorem choose_parallels (fuel : Nat) (characters : t.unicode = Maccer.unicode) (p : Str)
    (several : 2 ≤ (chain t.keytbl p).length) (distinct : (chain t.keytbl p).Nodup)
    (demacronises : ∀ w ∈ chain t.keytbl p, plain w = .ok p) :
    ∃ partbl parcount guess ambig, (t.desktop fuel).getpars p = some (partbl, parcount) ∧
      t.choose p partbl parcount = .ok (guess, ambig) ∧
      (∀ w, guess = some w ↔
        Majority.Outweighs t.formfreq GUESS_THRESHOLD (chain t.keytbl p) w) ∧
      (∀ w, guess = some w → ∀ v ∈ chain t.keytbl p, v ≠ w → t.formfreq v < t.formfreq w) ∧
      ambig = if guess.isSome then none else some (marked p (chain t.keytbl p)) := by
  have filled : chain t.keytbl p ≠ [] := by
    rintro empty
    simp [empty] at several
  have guessed (w : Str) := t.guessw_parallels (p := p) (w := w) filled distinct
  refine ⟨parallels t.keytbl p, _, t.guessw (parallels t.keytbl p), _,
    t.getpars_several fuel several distinct demacronises, ?_, guessed, fun w guess v member apart =>
      ((guessed w).mp guess).unique half_lt_threshold member apart, rfl⟩
  rw [choose, if_pos (by omega)]
  cases t.guessw (parallels t.keytbl p) with
  | some w => rfl
  | none =>
      simp only [ambigw_parallels characters demacronises distinct filled]
      rfl

end Tables

def hocTables : Tables :=
  { Tables.empty with
    keytbl := AList.insert (lit "hoc1") (lit "hoc") (AList.insert (lit "hoc") (lit "hōc") ∅)
    freqtbl := AList.insert (lit "hōc") 3 ∅ }

theorem choose_parallels_hoc : ∃ partbl parcount ambig,
    (hocTables.desktop 1).getpars (lit "hoc") = some (partbl, parcount) ∧
      hocTables.choose (lit "hoc") partbl parcount = .ok (some (lit "hōc"), ambig) := by
  obtain ⟨partbl, parcount, guess, ambig, pars, chosen, guessed, _⟩ :=
    hocTables.choose_parallels 1 rfl (lit "hoc") (by decide) (by decide)
      (by decide)
  refine ⟨partbl, parcount, ambig, pars, ?_⟩
  have freq : hocTables.formfreq (lit "hōc") = 3 ∧
      Majority.total hocTables.formfreq (chain hocTables.keytbl (lit "hoc")) = 4 := by decide
  have most : guess = some (lit "hōc") := by
    refine (guessed _).mpr ⟨by decide, by omega, ?_⟩
    rw [freq.1, freq.2, GUESS_THRESHOLD]
    norm_num
  rw [chosen, most]

end Maccer
