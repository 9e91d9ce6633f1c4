import ShaderCompose.Proofs.Preprocess.Directives
import ShaderCompose.Proofs.Preprocess.Expansion

/-!
Positions in a preprocessed text.
-/

namespace ShaderCompose

open List

namespace Origin

@[simp]
theorem length_ofLines (o : Origin) (ls : List (List Char)) : (ofLines o ls).length = ls.length := by
  induction ls generalizing o with
  | nil => rfl
  | cons l ls ih => simp [ofLines, ih]

theorem getElem?_ofLines_succ {o p : Origin} {ls : List (List Char)} {i : Nat} {l : List Char}
    (hp : (ofLines o ls)[i]? = some p) (hl : ls[i]? = some l) (hi : i + 1 < ls.length) :
    (ofLines o ls)[i + 1]? = some (p.next l) := by
  induction ls generalizing o i with
  | nil => simp at hi
  | cons first rest ih =>
    cases i with
    | zero =>
      cases hp
      cases hl
      cases rest with
      | nil => simp at hi
      | cons second rest => rfl
    | succ i => exact ih hp hl (Nat.lt_of_succ_lt_succ hi)

end Origin

namespace Preprocess

def PlainName (name : String) : Prop := Text.Solid name.toList ∧ '"' ∉ name.toList

instance (name : String) : Decidable (PlainName name) :=
  inferInstanceAs (Decidable (Text.Solid name.toList ∧ '"' ∉ name.toList))

namespace ExpandedLine

variable {o : Origin}

theorem text_marker (o : Origin) : (marker o).text = '#' :: 'l' :: 'i' :: 'n' :: 'e' ::
      (' ' :: Text.natDigits o.line ++ ' ' :: ('"' :: o.file.toList ++ ['"'])) := by
  simp [text, toString, Text.natDigits]

theorem marker?_text (hname : PlainName o.file) (hline : o.line < UInt32.size) :
    Origin.marker? (marker o).text = some (o.line, some o.file) := by
  have hquoted : Text.Solid ('"' :: o.file.toList ++ ['"']) := by
    intro c hc
    simp only [cons_append, mem_cons, mem_append, not_mem_nil, or_false] at hc
    rcases hc with rfl | hc | rfl
    · decide
    · exact hname.1 c hc
    · decide
  have hwords := Text.words_pair (Text.solid_natDigits o.line) hquoted (Text.natDigits_ne_nil _) (by simp)
  have hhash : Text.isBlank '#' = false := by decide
  have hl : Text.isBlank 'l' = false := by decide
  have hname' := Text.trimQuotes_quoted hname.2
  rw [text_marker, Origin.marker?, Text.trimStart, dropWhile_cons_of_neg (by simp [hhash])]
  simp only [Text.after?, if_true, Option.bind_eq_bind, Option.bind_some, Text.trimStart]
  rw [dropWhile_cons_of_neg (by simp [hl])]
  simp only [Text.after?, if_true, Option.bind_some, hwords, head?_cons,
    Text.readUInt32_natDigits hline, getElem?_cons_succ, getElem?_cons_zero, Option.map_some, hname',
    String.ofList_toList]
  rfl

theorem directive?_text (o : Origin) : ∃ rest, directive? (marker o).text = some ("line", rest) := by
  have hblanks : Text.isBlank '#' = false ∧ Text.isBlank 'l' = false ∧ Text.isBlank 'i' = false ∧
      Text.isBlank 'n' = false ∧ Text.isBlank 'e' = false ∧ Text.isBlank ' ' = true := by decide
  obtain ⟨hhash, hl, hi, hn, he, hblank⟩ := hblanks
  rw [text_marker]
  exact ⟨_, rfl⟩

theorem dropReturn_text (o : Origin) : Text.dropReturn (marker o).text = (marker o).text := by
  have hlast : (marker o).text.getLast? = some '"' := by
    rw [text_marker]
    simp [getLast?_cons]
  rw [Text.dropReturn, hlast]
  simp

theorem not_mem_text_marker (hname : PlainName o.file) : '\n' ∉ (marker o).text := by
  intro hfeed
  have hblank : Text.isBlank '\n' = true := by decide
  rw [text_marker] at hfeed
  simp only [mem_cons, mem_append, not_mem_nil, or_false, Char.reduceEq, false_or] at hfeed
  rcases hfeed with hdigit | hfile
  · exact absurd (Text.solid_natDigits _ _ hdigit) (by simp [hblank])
  · exact absurd (hname.1 _ hfile) (by simp [hblank])

end ExpandedLine

def readLines (lines : List ExpandedLine) : List (List Char) := lines.map fun e => Text.dropReturn e.text

def startState (macros : List MacroDef) : DirectiveState := { defines := .ofMacros macros }

/-- The line at `i` is counted from the marker at `m`. -/
structure Governs (macros : List MacroDef) (lines : List ExpandedLine) (m i : Nat) : Prop where
  before : m < i
  marker : ∃ o, lines[m]? = some (.marker o)
  active : ∃ s, stateAt (startState macros) 1 (readLines lines) m = some s ∧ s.isActive = true
  between : ∀ j, m < j → j < i → ∃ o line, lines[j]? = some (.copied o line) ∧
    Origin.marker? (Text.dropReturn line) = none ∧
    ∀ s, stateAt (startState macros) 1 (readLines lines) j = some s →
      Origin.marker? (substitute s.defines (Text.dropReturn line)) = none

structure Processed (macros : List MacroDef) (lines : List ExpandedLine) (outs : List (List Char)) : Prop where
  length_eq : outs.length = lines.length
  line : ∀ i e, lines[i]? = some e → ∃ s s' out, stateAt (startState macros) 1 (readLines lines) i = some s ∧
    runLine s (1 + i) (Text.dropReturn e.text) = .ok (s', out) ∧ outs[i]? = some out ∧ '\n' ∉ out

theorem runDirectives_processed {macros : List MacroDef} {lines : List ExpandedLine} {out : List Char}
    (h : runDirectives macros (textOf lines) = .ok out) (hmacros : ∀ d ∈ macros, '\n' ∉ d.text.toList)
    (hlines : ∀ e ∈ lines, '\n' ∉ e.text) :
    ∃ outs, Processed macros lines outs ∧ Text.pieces out = outs ++ [[]] := by
  have htexts : ∀ l ∈ lines.map ExpandedLine.text, '\n' ∉ l := by simpa using hlines
  have hread : Text.lines (textOf lines) = readLines lines := by
    have hjoin := Text.lines_join htexts
    rw [flatMap_map, map_map] at hjoin
    exact hjoin
  have hfeeds : ∀ l ∈ readLines lines, '\n' ∉ l := by
    intro l hl
    obtain ⟨e, he, rfl⟩ := mem_map.mp hl
    exact fun hfeed => hlines e he (Text.mem_of_mem_dropReturn hfeed)
  rw [runDirectives, hread] at h
  obtain ⟨outs, rfl, hlength, houts⟩ := runLines_lines h hfeeds (oneLine_ofMacros hmacros)
  have hline : ∀ i e, lines[i]? = some e → ∃ s s' out, stateAt (startState macros) 1 (readLines lines) i = some s ∧
      runLine s (1 + i) (Text.dropReturn e.text) = .ok (s', out) ∧ outs[i]? = some out ∧ '\n' ∉ out := by
    intro i e he
    have hl : (readLines lines)[i]? = some (Text.dropReturn e.text) := by simp [readLines, he]
    obtain ⟨s, s', out, hstate, hdefines, hrun, hout⟩ := houts i _ hl
    exact ⟨s, s', out, hstate, hrun, hout, (runLine_oneLine hrun (hfeeds _ (mem_of_getElem? hl)) hdefines).1⟩
  have hsame : outs.length = lines.length := by simpa [readLines] using hlength
  refine ⟨outs, ⟨hsame, hline⟩, Text.pieces_join fun l hl => ?_⟩
  obtain ⟨i, hi⟩ := mem_iff_getElem?.mp hl
  obtain ⟨hlt, -⟩ := List.getElem?_eq_some_iff.mp hi
  obtain ⟨_, _, out, -, -, hout, hfeed⟩ := hline i _ (getElem?_eq_getElem (hsame ▸ hlt))
  cases hout.symm.trans hi
  exact hfeed

section

variable {macros : List MacroDef} {lines : List ExpandedLine} {outs : List (List Char)}
  (hchain : List.IsChain ExpandedLine.Follows lines) (hprocessed : Processed macros lines outs)
  (hmarkers : ∀ o, .marker o ∈ lines → PlainName o.file ∧ o.line < UInt32.size)

include hprocessed

theorem origin_after_copied {j : Nat} {o p start : Origin} {line : List Char}
    (hj : lines[j]? = some (.copied o line)) (hline : Origin.marker? (Text.dropReturn line) = none)
    (hsubstituted : ∀ s, stateAt (startState macros) 1 (readLines lines) j = some s →
      Origin.marker? (substitute s.defines (Text.dropReturn line)) = none)
    (hp : (Origin.ofLines start (outs ++ [[]]))[j]? = some p) :
    (Origin.ofLines start (outs ++ [[]]))[j + 1]? = some ⟨p.file, p.line + 1⟩ := by
  obtain ⟨s, s', out, hstate, hrun, hout, -⟩ := hprocessed.line j _ hj
  have hlt : j < outs.length := (List.getElem?_eq_some_iff.mp hout).1
  have hmarker : Origin.marker? out = none := by
    rcases (runLine_cases hrun).1 with rfl | rfl | ⟨-, rfl⟩
    · rfl
    · exact hline
    · exact hsubstituted s hstate
  have hl : (outs ++ [[]])[j]? = some out := by rw [getElem?_append_left hlt, hout]
  rw [Origin.getElem?_ofLines_succ hp hl (by simpa using hlt), Origin.next, hmarker]

include hmarkers

theorem origin_after_marker {m : Nat} {o start : Origin} {s : DirectiveState} (hm : lines[m]? = some (.marker o))
    (hs : stateAt (startState macros) 1 (readLines lines) m = some s) (hactive : s.isActive = true) :
    (Origin.ofLines start (outs ++ [[]]))[m + 1]? = some o := by
  obtain ⟨s', s'', out, hstate, hrun, hout, -⟩ := hprocessed.line m _ hm
  cases hs.symm.trans hstate
  obtain ⟨rest, hdirective⟩ := ExpandedLine.directive?_text o
  rw [ExpandedLine.dropReturn_text, runLine_of_marker hdirective hactive] at hrun
  cases hrun
  have hlt : m < outs.length := (List.getElem?_eq_some_iff.mp hout).1
  have hp : m < (Origin.ofLines start (outs ++ [[]])).length := by
    simpa using Nat.lt_succ_of_lt hlt
  have hl : (outs ++ [[]])[m]? = some (ExpandedLine.marker o).text := by
    rw [getElem?_append_left hlt, hout]
  rw [Origin.getElem?_ofLines_succ (getElem?_eq_getElem hp) hl (by simpa using hlt), Origin.next,
    ExpandedLine.marker?_text (hmarkers o (mem_of_getElem? hm)).1 (hmarkers o (mem_of_getElem? hm)).2]

theorem copied_of_line {i : Nat} {outLine : List Char} (hi : (outs ++ [[]])[i]? = some outLine)
    (hne : outLine ≠ []) (hnone : Origin.marker? outLine = none) :
    ∃ o line s, lines[i]? = some (.copied o line) ∧ stateAt (startState macros) 1 (readLines lines) i = some s ∧
      (outLine = Text.dropReturn line ∨ outLine = substitute s.defines (Text.dropReturn line)) := by
  have hlt : i < lines.length := by
    rw [← hprocessed.length_eq]
    by_contra hge
    rw [getElem?_append_right (Nat.le_of_not_lt hge)] at hi
    exact hne (mem_singleton.mp (mem_of_getElem? hi))
  obtain ⟨s, s', out, hstate, hrun, hout, -⟩ := hprocessed.line i _ (getElem?_eq_getElem hlt)
  rw [getElem?_append_left (hprocessed.length_eq ▸ hlt), hout] at hi
  cases hi
  have hcases := (runLine_cases hrun).1
  cases hline : lines[i] with
  | marker o =>
    rw [hline, ExpandedLine.dropReturn_text] at hcases
    have hplain := hmarkers o (hline ▸ getElem_mem hlt)
    obtain ⟨rest, hdirective⟩ := ExpandedLine.directive?_text o
    rcases hcases with hnil | htext | ⟨hdirective', -⟩
    · exact absurd hnil hne
    · rw [htext, ExpandedLine.marker?_text hplain.1 hplain.2] at hnone
      cases hnone
    · cases hdirective.symm.trans hdirective'
  | copied o line =>
    rw [hline] at hcases
    refine ⟨o, line, s, (getElem?_eq_getElem hlt).trans (congrArg some hline), hstate, ?_⟩
    exact (hcases.resolve_left hne).imp_right And.right

include hchain

theorem origin_in_step {m i : Nat} (start : Origin) (h : Governs macros lines m i) (k : Nat) (hk : m + k < i) :
    ∃ e, lines[m + k]? = some e ∧ (Origin.ofLines start (outs ++ [[]]))[m + k + 1]? = some e.next := by
  induction k with
  | zero =>
    obtain ⟨o, hm⟩ := h.marker
    obtain ⟨s, hs, hactive⟩ := h.active
    exact ⟨_, hm, origin_after_marker hprocessed hmarkers hm hs hactive⟩
  | succ k ih =>
    obtain ⟨e, he, horigin⟩ := ih (by omega)
    obtain ⟨o, line, hj, hline, hsubstituted⟩ := h.between (m + k + 1) (by omega) hk
    obtain ⟨hlt, hget⟩ := List.getElem?_eq_some_iff.mp hj
    have hfollows := isChain_iff_getElem.mp hchain (m + k) hlt
    rw [hget, (List.getElem?_eq_some_iff.mp he).2] at hfollows
    cases hfollows
    exact ⟨_, hj, origin_after_copied hprocessed hj hline hsubstituted horigin⟩

theorem origin_of_governs {m i : Nat} {o : Origin} {line : List Char} (start : Origin)
    (h : Governs macros lines m i) (hi : lines[i]? = some (.copied o line)) :
    (Origin.ofLines start (outs ++ [[]]))[i]? = some o := by
  obtain ⟨k, rfl⟩ := Nat.exists_eq_add_of_lt h.before
  obtain ⟨e, he, horigin⟩ := origin_in_step hchain hprocessed hmarkers start h k (Nat.lt_succ_self _)
  obtain ⟨hlt, hget⟩ := List.getElem?_eq_some_iff.mp hi
  have hfollows := isChain_iff_getElem.mp hchain (m + k) hlt
  rw [hget, (List.getElem?_eq_some_iff.mp he).2] at hfollows
  exact hfollows ▸ horigin

end

/-- A line that a marker governs is mapped to the line of the file that it came from. -/
theorem span_eq_origin {places : SearchPlaces} {macros : List MacroDef} {file : String} {path : Option String}
    {source out : String} (hout : text places macros file path source = .ok out)
    (hmacros : ∀ d ∈ macros, '\n' ∉ d.text.toList)
    (hfiles : ∀ u, places.Reaches ⟨file, path, source.toList⟩ u →
      PlainName u.file ∧ (Text.lines u.text).length + 1 < UInt32.size) :
    ∃ lines, Expands places ⟨file, path, source.toList⟩ 1 (Text.lines source.toList) lines ∧
      ∀ i outLine, (Text.pieces out.toList)[i]? = some outLine → outLine ≠ [] →
        Origin.marker? outLine = none →
        ∃ o line s, (.marker ⟨file, 1⟩ :: lines)[i]? = some (.copied o line) ∧
          (ExpandedLine.copied o line).Located places ⟨file, path, source.toList⟩ ∧
          stateAt (startState macros) 1 (readLines (.marker ⟨file, 1⟩ :: lines)) i = some s ∧
          (outLine = Text.dropReturn line ∨ outLine = substitute s.defines (Text.dropReturn line)) ∧
          ∀ m, Governs macros (.marker ⟨file, 1⟩ :: lines) m i →
            ∀ under column,
              (LineMap.ofText under out.toList).span (i + 1) column = ⟨o.file, o.line, column⟩ := by
  rw [text] at hout
  obtain ⟨expanded, hexpanded, hout⟩ := bind_eq_ok hout
  obtain ⟨result, hresult, hout⟩ := bind_eq_ok hout
  cases hout
  obtain ⟨lines, hlines, rfl⟩ := expandIncludes_expands (u := ⟨file, path, source.toList⟩) hexpanded
  have hlocated : ∀ e ∈ .marker ⟨file, 1⟩ :: lines, e.Located places ⟨file, path, source.toList⟩ := by
    intro e he
    rcases List.mem_cons.mp he with rfl | he
    · exact ⟨_, .refl, rfl, Nat.le_add_left ..⟩
    · exact hlines.located .refl (List.nil_append _).symm rfl e he
  have hmarkers : ∀ o, .marker o ∈ .marker ⟨file, 1⟩ :: lines → PlainName o.file ∧ o.line < UInt32.size := by
    intro o ho
    obtain ⟨u, hreach, hfile, hline⟩ := hlocated _ ho
    exact ⟨hfile ▸ (hfiles u hreach).1, Nat.lt_of_le_of_lt hline (hfiles u hreach).2⟩
  have hfeeds : ∀ e ∈ .marker ⟨file, 1⟩ :: lines, '\n' ∉ e.text := by
    intro e he
    cases e with
    | marker o => exact ExpandedLine.not_mem_text_marker (hmarkers o he).1
    | copied o line =>
      obtain ⟨u, -, -, -, hline⟩ := hlocated _ he
      exact Text.not_mem_of_mem_lines (List.mem_of_getElem? hline)
  obtain ⟨outs, hprocessed, hpieces⟩ := runDirectives_processed hresult hmacros hfeeds
  refine ⟨lines, hlines, fun i outLine hi hne hnone => ?_⟩
  simp only [String.toList_ofList] at hi ⊢
  rw [hpieces] at hi
  obtain ⟨o, line, s, hline, hstate, hbecomes⟩ := copied_of_line hprocessed hmarkers hi hne hnone
  refine ⟨o, line, s, hline, hlocated _ (List.mem_of_getElem? hline), hstate, hbecomes, ?_⟩
  intro m hgoverns under column
  have hchain : List.IsChain ExpandedLine.Follows (.marker ⟨file, 1⟩ :: lines) := hlines.isChain rfl
  have horigin := origin_of_governs hchain hprocessed hmarkers ⟨under, 1⟩ hgoverns hline
  rw [LineMap.span, LineMap.ofText, hpieces, Nat.add_sub_cancel, horigin]

/-! ## A file that is included in a branch -/

def branchPlaces : SearchPlaces where
  files := ({} : Files).write "a.h" (.text "int a;\nint b;\n")
  lookup := [""]

def branchSource (condition : String) : String := condition ++ "\n#include \"a.h\"\n#endif\nfloat x;\n"

def branchUnit (condition : String) : TranslationUnit := ⟨"Main.mxsl", none, (branchSource condition).toList⟩

def branchHeader : TranslationUnit := ⟨"a.h", some "a.h", "int a;\nint b;\n".toList⟩

def branchLines (condition : String) : List ExpandedLine :=
  [.copied ⟨"Main.mxsl", 1⟩ condition.toList, .marker ⟨"a.h", 1⟩, .copied ⟨"a.h", 1⟩ "int a;".toList,
    .copied ⟨"a.h", 2⟩ "int b;".toList, .marker ⟨"Main.mxsl", 3⟩, .copied ⟨"Main.mxsl", 3⟩ "#endif".toList,
    .copied ⟨"Main.mxsl", 4⟩ "float x;".toList]

theorem branch_reads : Text.lines branchHeader.text = ["int a;".toList, "int b;".toList] ∧
    includeName? "int a;".toList = none ∧ includeName? "int b;".toList = none ∧
    includeName? "#include \"a.h\"".toList = some "a.h".toList ∧
    includeName? "#endif".toList = none ∧ includeName? "float x;".toList = none := by
  decide +kernel

section

variable {condition : String} (hcondition : includeName? condition.toList = none)
  (hlines : Text.lines (branchSource condition).toList =
    [condition.toList, "#include \"a.h\"".toList, "#endif".toList, "float x;".toList])
  (hopen : branchPlaces.open? (branchUnit condition) "a.h".toList = some branchHeader)

include hcondition hlines hopen

theorem branch_included :
    branchPlaces.included (branchUnit condition) = [branchHeader] ∧ branchPlaces.included branchHeader = [] := by
  obtain ⟨hheader, hint, hint', hname, hendif, hfloat⟩ := branch_reads
  have hunit : (branchUnit condition).text = (branchSource condition).toList := rfl
  constructor
  · simp only [SearchPlaces.included, hunit, hlines, filterMap_cons, filterMap_nil, hcondition, hname,
      hendif, hfloat, hopen, Option.bind_none, Option.bind_some]
  · simp only [SearchPlaces.included, hheader, filterMap_cons, filterMap_nil, hint, hint', Option.bind_none]

theorem branch_expands : Expands branchPlaces (branchUnit condition) 1
    (Text.lines (branchSource condition).toList) (branchLines condition) := by
  obtain ⟨hheader, hint, hint', hname, hendif, hfloat⟩ := branch_reads
  have hinside : Expands branchPlaces branchHeader 1 (Text.lines branchHeader.text)
      [.copied ⟨"a.h", 1⟩ "int a;".toList, .copied ⟨"a.h", 2⟩ "int b;".toList] := by
    rw [hheader]
    exact .copy hint (.copy hint' .nil)
  rw [hlines]
  exact .copy hcondition (.inline hname hopen hinside (.copy hendif (.copy hfloat .nil)))

end

theorem ok_of_toOption {ε α : Type} {x : Except ε α} {a : α} (h : x.toOption = some a) : x = .ok a := by
  cases x with
  | error cause => cases h
  | ok b => exact congrArg _ (Option.some.inj h)

theorem span_after_branch : ∃ out,
    text branchPlaces [⟨"FAST", "1"⟩] "Main.mxsl" none (branchSource "#ifdef FAST") = .ok out ∧
    (Text.pieces out.toList)[7]? = some "float x;".toList ∧
    ∀ column, (LineMap.ofText "Main.mxsl" out.toList).span 8 column = ⟨"Main.mxsl", 4, column⟩ := by
  obtain ⟨hout, hlines, hopen, hfiles, hactive, hendif⟩ :
      ((text branchPlaces [⟨"FAST", "1"⟩] "Main.mxsl" none (branchSource "#ifdef FAST")).toOption.map
        fun out => (Text.pieces out.toList)[7]?) = some (some "float x;".toList) ∧
      Text.lines (branchSource "#ifdef FAST").toList =
        ["#ifdef FAST".toList, "#include \"a.h\"".toList, "#endif".toList, "float x;".toList] ∧
      branchPlaces.open? (branchUnit "#ifdef FAST") "a.h".toList = some branchHeader ∧
      (∀ u ∈ [branchUnit "#ifdef FAST", branchHeader],
        PlainName u.file ∧ (Text.lines u.text).length + 1 < UInt32.size) ∧
      ((stateAt (startState [⟨"FAST", "1"⟩]) 1
        (readLines (.marker ⟨"Main.mxsl", 1⟩ :: branchLines "#ifdef FAST")) 5).map
          DirectiveState.isActive) = some true ∧
      ((stateAt (startState [⟨"FAST", "1"⟩]) 1
        (readLines (.marker ⟨"Main.mxsl", 1⟩ :: branchLines "#ifdef FAST")) 6).map
          fun s => Origin.marker? (substitute s.defines "#endif".toList)) = some none := by
    decide +kernel
  obtain ⟨out, hout, hline⟩ := Option.map_eq_some_iff.mp hout
  have htext := ok_of_toOption hout
  obtain ⟨hroot, hheader⟩ := branch_included (by decide) hlines hopen
  have hreached : ∀ u, branchPlaces.Reaches (branchUnit "#ifdef FAST") u →
      u ∈ [branchUnit "#ifdef FAST", branchHeader] := by
    intro u hreach
    induction hreach with
    | refl => exact List.mem_cons_self
    | tail _ hstep ih =>
      rcases List.mem_pair.mp ih with rfl | rfl
      · rw [hroot] at hstep
        exact List.mem_cons_of_mem _ hstep
      · rw [hheader] at hstep
        cases hstep
  obtain ⟨lines, hexpands, hspans⟩ := span_eq_origin htext (by decide) fun u hu => hfiles u (hreached u hu)
  obtain rfl : lines = branchLines "#ifdef FAST" :=
    hexpands.unique (branch_expands (by decide) hlines hopen)
  obtain ⟨o, line, s, hcopied, -, -, -, hspan⟩ := hspans 7 _ hline (by decide) (by decide)
  cases hcopied
  refine ⟨out, htext, hline, fun column => hspan 5 ⟨by decide, ⟨_, rfl⟩, ?_, ?_⟩ _ column⟩
  · obtain ⟨s, hs, hactive⟩ := Option.map_eq_some_iff.mp hactive
    exact ⟨s, hs, hactive⟩
  · intro j hlow hhigh
    obtain rfl : j = 6 := by omega
    refine ⟨_, _, rfl, by decide, fun s hs => ?_⟩
    rw [hs] at hendif
    exact Option.some.inj hendif

theorem span_ne_origin_after_skipped_include : ∃ out,
    text branchPlaces [] "Main.mxsl" none (branchSource "#if 0") = .ok out ∧
    Expands branchPlaces (branchUnit "#if 0") 1 (Text.lines (branchSource "#if 0").toList)
      (branchLines "#if 0") ∧
    (.marker ⟨"Main.mxsl", 1⟩ :: branchLines "#if 0")[7]? =
      some (.copied ⟨"Main.mxsl", 4⟩ "float x;".toList) ∧
    (Text.pieces out.toList)[7]? = some "float x;".toList ∧
    (LineMap.ofText "Main.mxsl" out.toList).span 8 1 = ⟨"Main.mxsl", 7, 1⟩ := by
  obtain ⟨hout, hlines, hopen⟩ :
      ((text branchPlaces [] "Main.mxsl" none (branchSource "#if 0")).toOption.map fun out =>
        ((Text.pieces out.toList)[7]?, (LineMap.ofText "Main.mxsl" out.toList).span 8 1)) =
          some (some "float x;".toList, ⟨"Main.mxsl", 7, 1⟩) ∧
      Text.lines (branchSource "#if 0").toList =
        ["#if 0".toList, "#include \"a.h\"".toList, "#endif".toList, "float x;".toList] ∧
      branchPlaces.open? (branchUnit "#if 0") "a.h".toList = some branchHeader := by
    decide +kernel
  obtain ⟨out, hout, hfacts⟩ := Option.map_eq_some_iff.mp hout
  exact ⟨out, ok_of_toOption hout, branch_expands (by decide) hlines hopen, rfl, congrArg Prod.fst hfacts,
    congrArg Prod.snd hfacts⟩

end Preprocess

end ShaderCompose
