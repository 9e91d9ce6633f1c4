import Mathlib.Logic.Relation
import ShaderCompose.Preprocess.Include
import ShaderCompose.Proofs.Text.Lines

/-!
What inlining makes of a file, line by line.
-/

namespace ShaderCompose.Preprocess

open List

structure TranslationUnit where
  file : String
  path : Option String
  text : List Char
  deriving DecidableEq

def SearchPlaces.open? (places : SearchPlaces) (u : TranslationUnit) (name : List Char) :
    Option TranslationUnit :=
  (places.find? u.path (String.ofList name)).bind fun found =>
    (places.files.read? found).map fun text => ⟨(Path.fileName? found).getD "", some found, text.toList⟩

def SearchPlaces.included (places : SearchPlaces) (u : TranslationUnit) : List TranslationUnit :=
  (Text.lines u.text).filterMap fun line => (includeName? line).bind fun name => places.open? u name

def SearchPlaces.Reaches (places : SearchPlaces) : TranslationUnit → TranslationUnit → Prop :=
  Relation.ReflTransGen fun a b => b ∈ places.included a

inductive ExpandedLine where
  | marker (origin : Origin)
  | copied (origin : Origin) (line : List Char)
  deriving DecidableEq

namespace ExpandedLine

def text : ExpandedLine → List Char
  | marker o => s!"#line {o.line} \"{o.file}\"".toList
  | copied _ line => line

def next : ExpandedLine → Origin
  | marker o => o
  | copied o _ => ⟨o.file, o.line + 1⟩

def Follows (before : ExpandedLine) : ExpandedLine → Prop
  | marker _ => True
  | copied o _ => o = before.next

def Located (places : SearchPlaces) (root : TranslationUnit) : ExpandedLine → Prop
  | marker o => ∃ u, places.Reaches root u ∧ o.file = u.file ∧ o.line ≤ (Text.lines u.text).length + 1
  | copied o line => ∃ u, places.Reaches root u ∧ o.file = u.file ∧ 0 < o.line ∧
      (Text.lines u.text)[o.line - 1]? = some line

end ExpandedLine

def textOf (ls : List ExpandedLine) : List Char := ls.flatMap fun e => asLine e.text

inductive Expands (places : SearchPlaces) :
    (u : TranslationUnit) → (number : Nat) → List (List Char) → List ExpandedLine → Prop
  | nil {u : TranslationUnit} {number : Nat} : Expands places u number [] []
  | copy {u : TranslationUnit} {number : Nat} {line : List Char} {rest : List (List Char)}
      {below : List ExpandedLine} :
      includeName? line = none →
      Expands places u (number + 1) rest below →
      Expands places u number (line :: rest) (.copied ⟨u.file, number⟩ line :: below)
  | inline {u inner : TranslationUnit} {number : Nat} {line name : List Char} {rest : List (List Char)}
      {inside below : List ExpandedLine} :
      includeName? line = some name →
      places.open? u name = some inner →
      Expands places inner 1 (Text.lines inner.text) inside →
      Expands places u (number + 1) rest below →
      Expands places u number (line :: rest)
        (.marker ⟨inner.file, 1⟩ :: inside ++ .marker ⟨u.file, number + 1⟩ :: below)

namespace Expands

variable {places : SearchPlaces} {u root : TranslationUnit} {number : Nat} {ls : List (List Char)}
  {out out' : List ExpandedLine}

theorem unique (h : Expands places u number ls out) (h' : Expands places u number ls out') : out = out' := by
  induction h generalizing out' with
  | nil =>
    cases h'
    rfl
  | copy hnone _ ih =>
    cases h' with
    | copy _ hbelow => rw [ih hbelow]
    | inline hsome => cases hnone.symm.trans hsome
  | inline hsome hopen _ _ ihinside ihbelow =>
    cases h' with
    | copy hnone => cases hnone.symm.trans hsome
    | inline hsome' hopen' hinside hbelow =>
      cases hsome.symm.trans hsome'
      cases hopen.symm.trans hopen'
      rw [ihinside hinside, ihbelow hbelow]

theorem isChain (h : Expands places u number ls out) {before : ExpandedLine}
    (hbefore : before.next = ⟨u.file, number⟩) : List.IsChain ExpandedLine.Follows (before :: out) := by
  induction h generalizing before with
  | nil => exact .singleton _
  | copy _ _ ih => exact .cons_cons hbefore.symm (ih rfl)
  | inline _ _ _ _ ihinside ihbelow =>
    refine .cons_cons trivial (isChain_append.mpr ⟨ihinside rfl, (ihbelow rfl), ?_⟩)
    rintro _ _ _ ⟨⟩
    trivial

theorem located (h : Expands places u number ls out) (hreach : places.Reaches root u)
    {front : List (List Char)} (hfront : Text.lines u.text = front ++ ls)
    (hnumber : number = front.length + 1) : ∀ e ∈ out, e.Located places root := by
  induction h generalizing front with
  | nil => exact fun _ he => absurd he not_mem_nil
  | @copy u number line rest below _ _ ih =>
    have hrest : Text.lines u.text = (front ++ [line]) ++ rest := by rw [hfront, append_cons]
    intro e he
    rcases mem_cons.mp he with rfl | he
    · refine ⟨u, hreach, rfl, ?_, ?_⟩
      · rw [hnumber]
        exact Nat.succ_pos _
      · rw [hfront, hnumber]
        simp
    · exact ih hreach hrest (by simp [hnumber]) e he
  | @inline u inner number line name rest inside below hsome hopen _ _ ihinside ihbelow =>
    have hrest : Text.lines u.text = (front ++ [line]) ++ rest := by rw [hfront, append_cons]
    have hline : line ∈ Text.lines u.text := by simp [hfront]
    have hinner : inner ∈ places.included u := mem_filterMap.mpr ⟨line, hline, by rw [hsome, Option.bind_some, hopen]⟩
    have hreach' : places.Reaches root inner := hreach.tail hinner
    intro e he
    rcases mem_append.mp he with he | he
    · rcases mem_cons.mp he with rfl | he
      · exact ⟨inner, hreach', rfl, Nat.le_add_left ..⟩
      · exact ihinside hreach' (nil_append _).symm rfl e he
    · rcases mem_cons.mp he with rfl | he
      · refine ⟨u, hreach, rfl, ?_⟩
        simp [hrest, hnumber]
      · exact ihbelow hreach hrest (by simp [hnumber]) e he

end Expands

/-! ## Inlining writes the expanded lines -/

@[simp]
theorem textOf_append (a b : List ExpandedLine) : textOf (a ++ b) = textOf a ++ textOf b := flatMap_append

section

variable {places : SearchPlaces}

variable {u : TranslationUnit} {out : List Char}

theorem expandLines_expands  {inline : String → Except PreprocessError (List Char)}
    (hinline : ∀ name text, inline (String.ofList name) = .ok text → ∃ inner inside,
      places.open? u name = some inner ∧ Expands places inner 1 (Text.lines inner.text) inside ∧
      text = textOf (.marker ⟨inner.file, 1⟩ :: inside))
    {number : Nat} {ls : List (List Char)}
    (h : expandLines inline u.file number ls = .ok out) :
    ∃ lines, Expands places u number ls lines ∧ out = textOf lines := by
  induction ls generalizing number out with
  | nil =>
    cases h
    exact ⟨[], .nil, rfl⟩
  | cons line rest ih =>
    rw [expandLines] at h
    split at h
    · next hnone =>
      cases hbelow : expandLines inline u.file (number + 1) rest with
      | error cause => simp [hbelow] at h
      | ok below =>
        simp only [hbelow, bind, Except.bind, pure, Except.pure, Except.ok.injEq] at h
        obtain ⟨lines, hlines, rfl⟩ := ih hbelow
        exact ⟨_, .copy hnone hlines, h.symm⟩
    · cases h
    · next name _ hsome =>
      cases hinner : inline (String.ofList name) with
      | error cause => simp [hinner, bind, Except.bind] at h
      | ok text =>
        cases hbelow : expandLines inline u.file (number + 1) rest with
        | error cause => simp [hinner, hbelow, bind, Except.bind] at h
        | ok below =>
          simp only [hinner, hbelow, bind, Except.bind, pure, Except.pure, Except.ok.injEq] at h
          obtain ⟨inner, inside, hopen, hinside, rfl⟩ := hinline name text hinner
          obtain ⟨lines, hlines, rfl⟩ := ih hbelow
          refine ⟨_, .inline hsome hopen hinside hlines, ?_⟩
          rw [← h, textOf_append, append_assoc]
          rfl

theorem expandFile_expands {fuel : Nat} (h : expandFile places fuel u.file u.path u.text = .ok out) :
    ∃ lines, Expands places u 1 (Text.lines u.text) lines ∧ out = textOf lines := by
  induction fuel generalizing u out with
  | zero => cases h
  | succ fuel ih =>
    refine expandLines_expands (fun name text hname => ?_) h
    cases hfound : places.find? u.path (String.ofList name) with
    | none => simp [hfound] at hname
    | some found =>
      cases hread : places.files.read? found with
      | none => simp [hfound, hread] at hname
      | some content =>
        let inner : TranslationUnit := ⟨(Path.fileName? found).getD "", some found, content.toList⟩
        cases hinner : expandFile places fuel inner.file inner.path inner.text with
        | error cause => simp [hfound, hread, inner, hinner] at hname
        | ok expanded =>
          obtain ⟨inside, hinside, rfl⟩ := ih hinner
          refine ⟨inner, inside, by simp [SearchPlaces.open?, hfound, hread, inner], hinside, ?_⟩
          simp only [hfound, hread] at hname
          rw [show expandFile places fuel ((Path.fileName? found).getD "") (some found) content.toList =
            .ok (textOf inside) from hinner] at hname
          exact (Except.ok.inj hname).symm

theorem expandIncludes_expands (h : expandIncludes places u.file u.path u.text = .ok out) :
    ∃ lines, Expands places u 1 (Text.lines u.text) lines ∧
      out = textOf (.marker ⟨u.file, 1⟩ :: lines) := by
  rw [expandIncludes] at h
  cases hfile : expandFile places (maxIncludeDepth + 1) u.file u.path u.text with
  | error cause => simp [hfile] at h
  | ok expanded =>
    simp only [hfile, bind, Except.bind, pure, Except.pure, Except.ok.injEq] at h
    obtain ⟨lines, hlines, rfl⟩ := expandFile_expands hfile
    exact ⟨lines, hlines, h.symm⟩

end

end ShaderCompose.Preprocess
