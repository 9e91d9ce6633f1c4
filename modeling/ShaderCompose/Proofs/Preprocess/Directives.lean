import ShaderCompose.Preprocess.Directives
import ShaderCompose.Proofs.Pairs
import ShaderCompose.Proofs.Text.Lines

/-!
What the directives do to the lines of a text.
-/

namespace ShaderCompose.Preprocess

open List

def Defines.OneLine (ds : Defines) : Prop := ∀ d ∈ ds, '\n' ∉ d.2.toList

def Defines.Lack (x : Char) (ds : Defines) : Prop := ∀ name text, ds.lookup name = some text → x ∉ text.toList

theorem Defines.Lack.of_forall {x : Char} {ds : Defines} (h : ∀ d ∈ ds, x ∉ d.2.toList) : ds.Lack x :=
  fun _ _ hlookup => h _ (mem_of_lookup hlookup)

def ScanMode.pending : ScanMode → List Char
  | .word read => read
  | _ => []

theorem ScanMode.not_mem_pending_next {x c : Char} {mode : ScanMode} (h : x ∉ mode.pending) (hc : x ≠ c) :
    x ∉ (mode.next c).pending := by
  cases mode <;> grind [ScanMode.next, ScanMode.enter, ScanMode.pending]

section

variable {x : Char} {ds : Defines} (hds : ds.Lack x)

include hds

theorem not_mem_replaceWord {read : List Char} (h : x ∉ read) : x ∉ (replaceWord ds read).1 := by
  rw [replaceWord]
  split
  · next hlookup => exact hds _ _ hlookup
  · exact h

theorem not_mem_leave {mode : ScanMode} (h : x ∉ mode.pending) (next : ScanMode) : x ∉ (leave ds mode next).1 := by
  rw [leave.eq_def]
  split
  · exact not_mem_nil
  · exact not_mem_replaceWord hds h
  · exact not_mem_nil

theorem not_mem_scan {cs : List Char} {mode : ScanMode} (hmode : x ∉ mode.pending) (hcs : x ∉ cs) :
    x ∉ (scan ds mode cs).1 := by
  induction cs generalizing mode with
  | nil =>
    cases mode with
    | word read => exact not_mem_replaceWord hds hmode
    | _ => exact not_mem_nil
  | cons c cs ih =>
    have hc : x ≠ c := fun heq => hcs (heq ▸ mem_cons_self)
    have hkeep : x ∉ keep c (mode.next c) := by
      cases mode.next c <;> simp [keep, hc]
    have hrest := ih (ScanMode.not_mem_pending_next hmode hc) fun hmem => hcs (mem_cons_of_mem _ hmem)
    rw [scan]
    simp only [mem_append, not_or]
    exact ⟨⟨not_mem_leave hds hmode _, hkeep⟩, hrest⟩

theorem not_mem_substituteFrom {passes : Nat} {line : List Char} (h : x ∉ line) :
    x ∉ substituteFrom ds passes line := by
  induction passes generalizing line with
  | zero => exact h
  | succ passes ih =>
    have hscan : x ∉ (scan ds .plain line).1 := not_mem_scan hds not_mem_nil h
    rw [substituteFrom]
    split
    · next heq => exact ih (by rwa [heq] at hscan)
    · exact h

end

/-! ## One line -/

theorem mem_of_directive? {line rest : List Char} {name : String} (h : directive? line = some (name, rest))
    {c : Char} (hc : c ∈ rest) : c ∈ line := by
  obtain ⟨hash, hhash, heq⟩ := Option.map_eq_some_iff.mp h
  cases heq
  have hmem : c ∈ hash := Text.mem_of_mem_trimStart (Text.mem_of_mem_headWord hc)
  exact Text.mem_of_mem_trimStart (Text.mem_of_mem_after? hhash hmem)

variable {s s' : DirectiveState} {number : Nat} {line rest out : List Char} {name : String}

def Defines.Changes (line : List Char) (before after : Defines) : Prop :=
  ∀ d ∈ after, d ∈ before ∨ ∀ c ∈ d.2.toList, c ∈ line

theorem bind_eq_ok {ε α β : Type} {x : Except ε α} {f : α → Except ε β} {b : β} (h : x >>= f = .ok b) :
    ∃ a, x = .ok a ∧ f a = .ok b := by
  cases x with
  | error cause => cases h
  | ok a => exact ⟨a, rfl, h⟩

theorem text_of_definition? {defined text : String} (h : definition? rest = some (defined, text)) :
    text.toList = (Text.headWord rest).2 := by
  rw [definition?] at h
  dsimp only at h
  split at h
  · cases h
  · cases h
    exact String.toList_ofList

theorem runDirective_cases (h : runDirective s number line name rest = .ok (s', out)) (hrest : ∀ c ∈ rest, c ∈ line) :
    (out = [] ∨ out = line) ∧ Defines.Changes line s.defines s'.defines := by
  have same : ∀ ds : Defines, Defines.Changes line ds ds := fun ds d hd => .inl hd
  rw [runDirective.eq_def] at h
  split at h
  iterate 3
    · split at h
      all_goals
        obtain ⟨chosen, -, h⟩ := bind_eq_ok h
        cases h
        exact ⟨.inl rfl, same _⟩
  · obtain ⟨⟨b, outer⟩, -, h⟩ := bind_eq_ok h
    dsimp only at h
    split at h
    · obtain ⟨value, -, h⟩ := bind_eq_ok h
      cases h
      exact ⟨.inl rfl, same _⟩
    · cases h
      exact ⟨.inl rfl, same _⟩
  · obtain ⟨⟨b, outer⟩, -, h⟩ := bind_eq_ok h
    cases h
    exact ⟨.inl rfl, same _⟩
  · split at h
    · cases h
      exact ⟨.inl rfl, same _⟩
    · cases h
  · split at h
    · cases h
      exact ⟨.inl rfl, same _⟩
    · split at h
      · split at h
        · next defined text hdefinition =>
          cases h
          refine ⟨.inl rfl, fun d hd => ?_⟩
          rcases mem_cons.mp hd with rfl | hd
          · refine .inr fun c hc => hrest c (Text.mem_of_mem_headWord ?_)
            rw [← text_of_definition? hdefinition]
            exact hc
          · exact .inl hd
        · cases h
      · cases h
        exact ⟨.inl rfl, fun d hd => .inl (mem_of_mem_filter hd)⟩
      · cases h
      · cases h
        exact ⟨.inr rfl, same _⟩

theorem runLine_cases (h : runLine s number line = .ok (s', out)) :
    (out = [] ∨ out = line ∨ directive? line = none ∧ out = substitute s.defines line) ∧
      Defines.Changes line s.defines s'.defines := by
  rw [runLine] at h
  split at h
  · next name rest hdirective =>
    obtain ⟨hout, hdefines⟩ := runDirective_cases h fun c hc => mem_of_directive? hdirective hc
    exact ⟨hout.imp_right .inl, hdefines⟩
  · next hnone =>
    cases h
    refine ⟨?_, fun d hd => .inl hd⟩
    split
    · exact .inr (.inr ⟨hnone, rfl⟩)
    · exact .inl rfl

theorem runLine_oneLine (h : runLine s number line = .ok (s', out)) (hline : '\n' ∉ line) (hds : s.defines.OneLine) :
    '\n' ∉ out ∧ s'.defines.OneLine := by
  obtain ⟨hout, hchanges⟩ := runLine_cases h
  constructor
  · rcases hout with rfl | rfl | ⟨-, rfl⟩
    · exact not_mem_nil
    · exact hline
    · exact not_mem_substituteFrom (.of_forall hds) hline
  · intro d hd hfeed
    rcases hchanges d hd with hold | hnew
    · exact hds d hold hfeed
    · exact hline (hnew _ hfeed)

theorem runLine_of_marker (hline : directive? line = some ("line", rest)) (hactive : s.isActive = true) :
    runLine s number line = .ok (s, line) := by
  simp [runLine, hline, runDirective, hactive]

/-! ## A run -/

def stateAt : DirectiveState → (number : Nat) → List (List Char) → (i : Nat) → Option DirectiveState
  | s, _, _, 0 => some s
  | _, _, [], _ + 1 => none
  | s, number, line :: rest, i + 1 =>
    match runLine s number line with
    | .ok (s', _) => stateAt s' (number + 1) rest i
    | .error _ => none

theorem runLines_lines {ls : List (List Char)} (h : runLines s number ls = .ok out)
    (hls : ∀ l ∈ ls, '\n' ∉ l) (hds : s.defines.OneLine) :
    ∃ outs : List (List Char), out = outs.flatMap asLine ∧ outs.length = ls.length ∧ ∀ i l, ls[i]? = some l →
      ∃ t t' o, stateAt s number ls i = some t ∧ t.defines.OneLine ∧
        runLine t (number + i) l = .ok (t', o) ∧ outs[i]? = some o := by
  induction ls generalizing s number out with
  | nil =>
    rw [runLines] at h
    split at h
    · cases h
      exact ⟨[], rfl, rfl, fun i l hl => by simp at hl⟩
    · cases h
  | cons line rest ih =>
    obtain ⟨⟨s', o⟩, hline, h⟩ := bind_eq_ok h
    obtain ⟨below, hbelow, h⟩ := bind_eq_ok h
    cases h
    have hds' := (runLine_oneLine hline (hls line mem_cons_self) hds).2
    obtain ⟨outs, rfl, hlength, houts⟩ := ih hbelow (fun l hl => hls l (mem_cons_of_mem _ hl)) hds'
    refine ⟨o :: outs, rfl, congrArg (· + 1) hlength, ?_⟩
    intro i l hl
    cases i with
    | zero =>
      cases hl
      exact ⟨s, s', o, rfl, hds, hline, rfl⟩
    | succ i =>
      obtain ⟨t, t', o', hstate, ht, hrun, ho'⟩ := houts i l hl
      refine ⟨t, t', o', ?_, ht, ?_, ho'⟩
      · simpa [stateAt, hline] using hstate
      · rw [← hrun, Nat.add_right_comm, Nat.add_assoc]

theorem oneLine_ofMacros {macros : List MacroDef} (h : ∀ m ∈ macros, '\n' ∉ m.text.toList) :
    (Defines.ofMacros macros).OneLine := by
  intro d hd
  obtain ⟨m, hm, rfl⟩ := mem_map.mp (mem_reverse.mp hd)
  exact h m hm

end ShaderCompose.Preprocess
