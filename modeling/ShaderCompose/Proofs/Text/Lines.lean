import Mathlib.Data.List.SplitBy
import ShaderCompose.Reader.LineMap

/-!
Texts that are put together and cut again.
-/

namespace ShaderCompose.Text

open List

variable {cs line : List Char} {c : Char}

theorem mem_of_mem_trimStart (h : c ∈ trimStart cs) : c ∈ cs := (dropWhile_suffix _).mem h

theorem mem_of_mem_trim (h : c ∈ trim cs) : c ∈ cs := by
  rw [trim, dropEndWhile, mem_reverse] at h
  exact mem_of_mem_trimStart (mem_reverse.mp ((dropWhile_suffix _).mem h))

theorem mem_of_mem_after? {start rest : List Char} (h : after? start cs = some rest) (hc : c ∈ rest) : c ∈ cs := by
  rw [eq_append_of_after? h]
  exact mem_append_right _ hc

theorem eq_append_of_splitAtBlank {word rest : List Char} (h : splitAtBlank cs = some (word, rest)) :
    ∃ b, cs = word ++ b :: rest := by
  induction cs generalizing word with
  | nil => cases h
  | cons c cs ih =>
    by_cases hc : isBlank c = true
    · rw [splitAtBlank, if_pos hc] at h
      cases h
      exact ⟨c, rfl⟩
    · rw [splitAtBlank, if_neg hc] at h
      obtain ⟨⟨word', rest'⟩, hsplit, heq⟩ := Option.map_eq_some_iff.mp h
      cases heq
      obtain ⟨b, rfl⟩ := ih hsplit
      exact ⟨b, rfl⟩

theorem mem_of_mem_headWord (h : c ∈ (headWord cs).2) : c ∈ cs := by
  rw [headWord] at h
  split at h
  · cases h
  · next word rest hsplit =>
    obtain ⟨b, rfl⟩ := eq_append_of_splitAtBlank hsplit
    exact mem_append_right _ (mem_cons_of_mem _ (mem_of_mem_trim h))

theorem pieces_append (h : '\n' ∉ line) (rest : List Char) : pieces (line ++ '\n' :: rest) = line :: pieces rest := by
  induction line with
  | nil => rfl
  | cons c line ih =>
    have hc : c ≠ '\n' := fun heq => h (heq ▸ mem_cons_self)
    have hline : pieces (line ++ '\n' :: rest) = line :: pieces rest := ih fun hmem => h (mem_cons_of_mem _ hmem)
    rw [pieces] at hline ⊢
    rw [cons_append, cutAt, if_neg hc, hline]

theorem pieces_join {ls : List (List Char)} (h : ∀ l ∈ ls, '\n' ∉ l) :
    pieces (ls.flatMap (· ++ ['\n'])) = ls ++ [[]] := by
  induction ls with
  | nil => rfl
  | cons l ls ih =>
    rw [flatMap_cons, append_assoc]
    exact (pieces_append (h l mem_cons_self) _).trans (congrArg _ (ih fun l' hl' => h l' (mem_cons_of_mem _ hl')))

theorem lines_join {ls : List (List Char)} (h : ∀ l ∈ ls, '\n' ∉ l) :
    lines (ls.flatMap (· ++ ['\n'])) = ls.map dropReturn := by
  rw [lines, pieces_join h]
  simp

theorem mem_of_mem_dropReturn (h : c ∈ dropReturn line) : c ∈ line := by
  rw [dropReturn] at h
  split at h
  · exact (dropLast_sublist _).mem h
  · exact h

theorem not_mem_of_mem_lines (h : line ∈ lines cs) : '\n' ∉ line := by
  intro hfeed
  rcases mem_append.mp h with h | h
  · obtain ⟨piece, hpiece, rfl⟩ := mem_map.mp h
    exact not_mem_of_mem_pieces ((dropLast_sublist _).mem hpiece) (mem_of_mem_dropReturn hfeed)
  · split at h
    · cases h
    · cases h
    · next last _ hlast =>
      cases mem_singleton.mp h
      exact not_mem_of_mem_pieces (mem_of_getLast? hlast) hfeed

def Solid (cs : List Char) : Prop := ∀ c ∈ cs, isBlank c = false

instance (cs : List Char) : Decidable (Solid cs) := List.decidableBAll (fun c => isBlank c = false) cs

theorem Solid.isChain (h : Solid cs) : cs.IsChain fun a b => (isBlank a == isBlank b) = true := by
  refine isChain_iff_getElem.mpr fun i hi => ?_
  rw [h _ (getElem_mem _), h _ (getElem_mem _)]
  rfl

theorem Solid.all (h : Solid cs) : (cs.all fun c => !isBlank c) = true := by
  simpa using (show ∀ c ∈ cs, isBlank c = false from h)

theorem words_pair {v w : List Char} (hv : Solid v) (hw : Solid w) (hne : v ≠ []) (hne' : w ≠ []) :
    words (' ' :: v ++ ' ' :: w) = [v, w] := by
  have hruns : (' ' :: v ++ ' ' :: w) = [[' '], v, [' '], w].flatten := by simp
  have hblank : isBlank ' ' = true := by decide
  rw [words, hruns, splitBy_flatten]
  · simp [hv.all, hw.all, hblank]
  · simp [hne.symm, hne'.symm]
  · intro run hrun
    simp only [mem_cons, not_mem_nil, or_false] at hrun
    rcases hrun with rfl | rfl | rfl | rfl
    exacts [.singleton _, hv.isChain, .singleton _, hw.isChain]
  · have hends : ∀ (u : List Char) (hu : Solid u) (hne : u ≠ []),
        isBlank (u.getLast hne) = false ∧ isBlank (u.head hne) = false :=
      fun u hu hne => ⟨hu _ (getLast_mem _), hu _ (head_mem _)⟩
    simp [hne, hne', hends v hv hne, hends w hw hne', hblank]

theorem trimQuotes_quoted (h : '"' ∉ cs) : trimQuotes ('"' :: cs ++ ['"']) = cs := by
  have hstart : (cs ++ ['"']).dropWhile (· == '"') = cs ++ (if cs = [] then [] else ['"']) := by
    cases cs with
    | nil => rfl
    | cons c cs =>
      have hc : c ≠ '"' := fun heq => h (heq ▸ mem_cons_self)
      simp [hc]
  have hend : cs.reverse.dropWhile (· == '"') = cs.reverse := by
    cases hrev : cs.reverse with
    | nil => rfl
    | cons c rest =>
      have hmem : c ∈ cs := mem_reverse.mp (hrev ▸ mem_cons_self)
      have hc : c ≠ '"' := fun heq => h (heq ▸ hmem)
      simp [hc]
  rw [trimQuotes, cons_append, dropWhile_cons_of_pos (by simp), hstart, dropEndWhile]
  split
  · next hnil => simp [hnil]
  · simp [hend]

theorem isDigit_of_mem_natDigits {n : Nat} (h : c ∈ natDigits n) : isDigit c = true := by
  have hdigit := Nat.isDigit_of_mem_toDigits (by decide) (by decide) h
  rw [Char.isDigit] at hdigit
  simpa [isDigit, Char.le_def] using hdigit

theorem solid_natDigits (n : Nat) : Solid (natDigits n) := by
  intro c hc
  have hdigit := isDigit_of_mem_natDigits hc
  simp only [isDigit, Bool.and_eq_true, decide_eq_true_eq] at hdigit
  have hlow : 48 ≤ c.toNat := hdigit.1
  have hhigh : c.toNat ≤ 57 := hdigit.2
  simp only [isBlank, inRanges, blankRanges, any_cons, any_nil, Bool.or_false, Bool.or_eq_false_iff,
    Bool.and_eq_false_iff, decide_eq_false_iff_not]
  omega

theorem natDigits_ne_nil (n : Nat) : natDigits n ≠ [] := Nat.toDigits_ne_nil

theorem ofDigits_natDigits (n : Nat) : ofDigits 10 (natDigits n) = n := by
  have hsame : ∀ (cs : List Char) (start : Nat), (∀ c ∈ cs, isDigit c = true) →
      cs.foldl (fun n c => n * 10 + digitValue c) start = Nat.ofDigitChars 10 cs start := by
    intro cs
    induction cs with
    | nil => intro start _; rfl
    | cons c cs ih =>
      intro start hdigits
      rw [Nat.ofDigitChars_eq_foldl, foldl_cons, foldl_cons, ← Nat.ofDigitChars_eq_foldl,
        ih _ fun d hd => hdigits d (mem_cons_of_mem _ hd), digitValue,
        if_pos (hdigits c mem_cons_self), Nat.mul_comm]
  rw [ofDigits, hsame _ _ fun c hc => isDigit_of_mem_natDigits hc]
  exact Nat.ofDigitChars_toDigits (by decide) (by decide)

theorem readUInt32_natDigits {n : Nat} (h : n < UInt32.size) : readUInt32 (natDigits n) = some n := by
  have hread : readNat (natDigits n) = some n := by
    have hall : (natDigits n).all isDigit = true := all_eq_true.mpr fun c hc => isDigit_of_mem_natDigits hc
    simp [readNat, natDigits_ne_nil, hall, ofDigits_natDigits]
  have hsign : ∀ cs, natDigits n ≠ '+' :: cs := by
    intro cs hcs
    have hplus : isDigit '+' = true := isDigit_of_mem_natDigits (hcs ▸ mem_cons_self)
    exact absurd hplus (by decide)
  rw [readUInt32, hread, Option.bind_some, asUInt32, if_pos h]
  exact fun cs hcs => hsign cs hcs

end ShaderCompose.Text
