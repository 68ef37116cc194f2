import Maccer.Mac

/-! Where `macronize` goes on after it has put a word into the text. -/

namespace Maccer.Tables

open Lua

variable (t : Tables)

/-- The word ends in the text where its bytes say, and the new word with the period that
is kept is not shorter; or it is shorter and the word ends where the new one does. -/
def InStep (text w : Str) (wstart wend : Int) (marked : Marked) : Prop :=
  let before : Int := (sub text 1 (wstart - 1)).length
  let new : Int := marked.finalw.length + marked.periodchar
  if w.length ≤ new then wend = before + w.length else wend = before + new

/-- The next word is looked for right after the inserted flags and word, and after the
period that is kept, just when the old and the new word are in step. -/
theorem macronizeToken_resumes (c : Copy) (overwrite : Bool) (fuel : Nat) (text : Str)
    (wstart wend wstart' wend' : Int) (w : Str) (isinvalid : Bool) (marked : Marked)
    (trimmed : c.ignorechars (sub text wstart wend) wstart wend = .ok (some w, wstart', wend', isinvalid))
    (filled : w ≠ []) (word : t.macronizeWord c overwrite fuel w isinvalid = .ok marked) :
    (∃ rest, t.macronizeToken c overwrite fuel text wstart wend =
      .ok (sub text 1 (wstart' - 1) ++ t.flagstr marked ++ marked.finalw ++ rest,
        (sub text 1 (wstart' - 1) ++ t.flagstr marked ++ marked.finalw).length + marked.periodchar + 1)) ↔
      InStep text w wstart' wend' marked := by
  have ran : t.macronizeToken c overwrite fuel text wstart wend =
      .ok (t.spliceWord text wstart' wend' w marked) := by
    simp only [macronizeToken, trimmed, run_bind_ok, if_neg filled, word, run_pure]
  rw [ran]
  simp only [Except.ok.injEq, spliceWord, Prod.mk.injEq, exists_and_right, List.append_cancel_left_eq,
    exists_eq', true_and, InStep, List.length_append, Nat.cast_add]
  generalize marked.periodchar = periodchar
  split <;> split <;> constructor <;> intro same <;> omega

/-- Where the word is at its places in the text, the two are in step unless the new one is shorter. -/
theorem inStep_iff {text w : Str} {wstart wend : Int} (first : 1 ≤ wstart) (inside : wstart ≤ text.length + 1)
    (span : wend = wstart + w.length - 1) (marked : Marked) :
    InStep text w wstart wend marked ↔ (w.length : Int) ≤ marked.finalw.length + marked.periodchar := by
  have before : ((sub text 1 (wstart - 1)).length : Int) = wstart - 1 := by
    obtain ⟨n, shift⟩ := Int.eq_ofNat_of_zero_le (show 0 ≤ wstart - 1 by omega)
    rw [shift, sub_first, List.length_take]
    omega
  rw [InStep, before]
  generalize marked.periodchar = periodchar
  split <;> constructor <;> intro same <;> omega

def phthisisTables : Tables :=
  { Tables.empty with
    keytbl := AList.insert (lit "tisis") (lit "tisis") ∅
    rules := [⟨lit "phth", lit "pt", none⟩, ⟨lit "pt", lit "t", none⟩] }

theorem phthisis_word (w flags finalw : Str) (removed : Bool)
    (parts : (fun m : Marked => (phthisisTables.flagstr m, m.finalw, m.periodremoved)) <$>
      phthisisTables.macronizeWord (phthisisTables.desktop 9) false 9 w false = .ok (flags, finalw, removed)) :
    ∃ marked, phthisisTables.macronizeWord (phthisisTables.desktop 9) false 9 w false = .ok marked ∧
      phthisisTables.flagstr marked = flags ∧ marked.finalw = finalw ∧ marked.periodremoved = removed := by
  obtain ⟨marked, word, same⟩ := map_eq_ok.mp parts
  rw [Prod.mk.injEq, Prod.mk.injEq] at same
  exact ⟨marked, word, same⟩

theorem macronizeToken_resumes_tisis : ∃ rest,
    phthisisTables.macronizeToken (phthisisTables.desktop 9) false 9 (lit "tisis et") 1 5 =
      .ok (lit "tisis" ++ rest, 6) := by
  obtain ⟨marked, word, flags, final, removed⟩ :=
    phthisis_word (lit "tisis") [] (lit "tisis") false (by decide)
  have front : sub (lit "tisis et") 1 0 = [] := by decide
  have length : (lit "tisis").length = 5 := by decide
  obtain ⟨rest, ran⟩ := (phthisisTables.macronizeToken_resumes (phthisisTables.desktop 9) false 9
    (lit "tisis et") 1 5 1 5 (lit "tisis") false marked (by decide) (by decide) word).mpr
    (by simp [InStep, Marked.periodchar, removed, final, length, front])
  refine ⟨rest, ran.trans ?_⟩
  simp [front, flags, final, Marked.periodchar, removed, length]

/-- `phthisis` becomes `ptisis`, and the word after it is looked for two bytes too late. -/
theorem macronizeToken_phthisis :
    ¬ ∀ (t : Tables) (fuel : Nat) (text : Str) (init wstart wend wstart' wend' : Int) (w : Str)
      (isinvalid : Bool) (marked : Marked), findRun isLetter text init = some (wstart, wend) →
      (t.desktop fuel).ignorechars (sub text wstart wend) wstart wend =
        .ok (some w, wstart', wend', isinvalid) → w ≠ [] →
      t.macronizeWord (t.desktop fuel) false fuel w isinvalid = .ok marked →
      ∃ rest, t.macronizeToken (t.desktop fuel) false fuel text wstart wend =
        .ok (sub text 1 (wstart' - 1) ++ t.flagstr marked ++ marked.finalw ++ rest,
          (sub text 1 (wstart' - 1) ++ t.flagstr marked ++ marked.finalw).length + marked.periodchar + 1) := by
  intro claim
  obtain ⟨marked, word, flags, final, removed⟩ :=
    phthisis_word (lit "phthisis") [] (lit "ptisis") false (by decide)
  obtain ⟨rest, ran⟩ := claim phthisisTables 9 (lit "phthisis et") 1 1 8 1 8 (lit "phthisis") false marked
    (by decide) (by decide) (by decide) word
  have late : phthisisTables.macronizeToken (phthisisTables.desktop 9) false 9 (lit "phthisis et") 1 8 =
      .ok (lit "ptisis et", 9) := by decide
  have length : (lit "ptisis").length = 6 := by decide
  have front : sub (lit "phthisis et") 1 (1 - 1) = [] := by decide
  rw [late, flags, final, front] at ran
  simp [Marked.periodchar, removed, length] at ran

end Maccer.Tables
