import ShaderCompose.Proofs.Preprocess.Directives

/-!
String literals under substitution.
-/

namespace ShaderCompose

open List

namespace Text

def insides : (inside : Bool) → List (List Char) → List (List Char)
  | _, [] => []
  | true, piece :: rest => piece :: insides false rest
  | false, _ :: rest => insides true rest

def literals (line : List Char) : List (List Char) := insides false (cutAt '"' line)

variable {before cs ds : List Char} {c : Char}

theorem cutAt_cons_ne (hc : c ≠ '"') (cs : List Char) :
    ∃ piece rest, cutAt '"' cs = piece :: rest ∧ cutAt '"' (c :: cs) = (c :: piece) :: rest := by
  obtain ⟨piece, rest, heq⟩ := exists_cons_of_ne_nil (cutAt_ne_nil '"' cs)
  exact ⟨piece, rest, heq, by rw [cutAt, if_neg hc, heq]⟩

theorem insides_append (h : '"' ∉ before) (cs : List Char) :
    insides false (cutAt '"' (before ++ cs)) = insides false (cutAt '"' cs) := by
  induction before with
  | nil => rfl
  | cons c before ih =>
    obtain ⟨piece, rest, heq, hcons⟩ := cutAt_cons_ne (ne_of_not_mem_cons h).symm (before ++ cs)
    rw [cons_append, hcons, ← ih (not_mem_of_not_mem_cons h), heq]
    rfl

theorem insides_cons (hc : c ≠ '"') (h : insides true (cutAt '"' cs) = insides true (cutAt '"' ds)) :
    insides true (cutAt '"' (c :: cs)) = insides true (cutAt '"' (c :: ds)) := by
  obtain ⟨piece, rest, heq, hcons⟩ := cutAt_cons_ne hc cs
  obtain ⟨piece', rest', heq', hcons'⟩ := cutAt_cons_ne hc ds
  rw [heq, heq', insides, insides, cons.injEq] at h
  rw [hcons, hcons', insides, insides, h.1, h.2]

end Text

namespace Preprocess

open Text (insides literals cutAt)

theorem ScanMode.next_quote {mode : ScanMode} (h : mode ≠ quoted) : mode.next '"' = quoted := by
  cases mode with
  | quoted => exact absurd rfl h
  | _ => rfl

theorem ScanMode.next_eq_quoted {mode : ScanMode} {c : Char} (hc : c ≠ '"') (h : mode ≠ quoted) :
    mode.next c ≠ quoted := by
  cases mode <;> grind [ScanMode.next, ScanMode.enter]

variable {ds : Defines}

theorem insides_scan (hds : ds.Lack '"') (mode : ScanMode) (hmode : '"' ∉ mode.pending) (cs : List Char) :
    insides (mode == .quoted) (cutAt '"' (scan ds mode cs).1) = insides (mode == .quoted) (cutAt '"' cs) := by
  induction cs generalizing mode with
  | nil =>
    cases mode with
    | word read =>
      have hout := Text.insides_append (not_mem_replaceWord hds hmode) []
      rwa [append_nil] at hout
    | _ => rfl
  | cons c cs ih =>
    rw [scan]
    by_cases hquoted : mode = .quoted
    · subst hquoted
      by_cases hc : c = '"'
      · subst hc
        have hplain := ih .plain not_mem_nil
        exact congrArg ([] :: ·) hplain
      · have hnext : ScanMode.next .quoted c = .quoted := by rw [ScanMode.next, if_neg hc]
        rw [hnext]
        exact Text.insides_cons hc (ih .quoted not_mem_nil)
    · have hleave := not_mem_leave hds hmode (mode.next c)
      rw [beq_false_of_ne hquoted]
      dsimp only
      by_cases hc : c = '"'
      · subst hc
        have hrest := ih .quoted not_mem_nil
        rw [ScanMode.next_quote hquoted] at hleave ⊢
        rw [append_assoc, Text.insides_append hleave]
        exact hrest
      · have hrest := ih _ (ScanMode.not_mem_pending_next hmode (Ne.symm hc))
        have hkeep : '"' ∉ keep c (mode.next c) := by
          cases mode.next c <;> simp [keep, Ne.symm hc]
        rw [beq_false_of_ne (ScanMode.next_eq_quoted hc hquoted)] at hrest
        rw [Text.insides_append (by simp [hleave, hkeep]), hrest]
        have hread : '"' ∉ [c] := by simp [Ne.symm hc]
        exact (Text.insides_append hread cs).symm

def pass (ds : Defines) (line : List Char) : List Char := (scan ds .plain line).1

theorem literals_pass (hds : ds.Lack '"') (line : List Char) : literals (pass ds line) = literals line :=
  insides_scan hds .plain not_mem_nil line

theorem literals_passes (hds : ds.Lack '"') (n : Nat) (line : List Char) :
    literals ((pass ds)^[n] line) = literals line := by
  induction n generalizing line with
  | zero => rfl
  | succ n ih => rw [Function.iterate_succ_apply, ih, literals_pass hds]

theorem substituteFrom_eq_passes (ds : Defines) (passes : Nat) (line : List Char) :
    ∃ n ≤ passes, substituteFrom ds passes line = (pass ds)^[n] line := by
  induction passes generalizing line with
  | zero => exact ⟨0, Nat.le_refl 0, rfl⟩
  | succ passes ih =>
    rw [substituteFrom]
    split
    · next out hscan =>
      obtain ⟨n, hn, heq⟩ := ih out
      refine ⟨n + 1, Nat.succ_le_succ hn, ?_⟩
      rw [heq, Function.iterate_succ_apply, pass, hscan]
    · exact ⟨0, Nat.zero_le _, rfl⟩

/-- Where no definition has a quote, substitution ends and changes no string literal. -/
theorem literals_substitute (hds : ds.Lack '"') (line : List Char) :
    (∃ n ≤ maxPasses, substitute ds line = (pass ds)^[n] line) ∧
      (∀ n, literals ((pass ds)^[n] line) = literals line) ∧ literals (substitute ds line) = literals line := by
  obtain ⟨n, hn, heq⟩ := substituteFrom_eq_passes ds maxPasses line
  refine ⟨⟨n, hn, heq⟩, fun n => literals_passes hds n line, ?_⟩
  rw [substitute, heq]
  exact literals_passes hds n line

theorem mutual_literals_substitute :
    let ds : Defines := [("A", "B+x"), ("B", "A"), ("C", "C C")]
    let line := "A(\"A B\", C, 1.0B) \"C".toList
    ds.Lack '"' ∧ substitute ds line ≠ line ∧ literals (substitute ds line) = ["A B".toList, "C".toList] := by
  intro ds line
  have hds : ds.Lack '"' := .of_forall (by decide)
  refine ⟨hds, by decide +kernel, ?_⟩
  rw [(literals_substitute hds line).2.2]
  decide +kernel

end Preprocess

end ShaderCompose
