import Mathlib.Data.List.Basic
import ShaderCompose.Library.Reach
import ShaderCompose.Proofs.Pairs

/-!
Which classes have a text.
-/

namespace ShaderCompose

open List

namespace Text

theorem cutAt_of_not_mem {sep : Char} {w : List Char} (h : sep ∉ w) : cutAt sep w = [w] := by
  induction w with
  | nil => rfl
  | cons c w ih =>
    rw [mem_cons, not_or] at h
    rw [cutAt, if_neg (Ne.symm h.1), ih h.2]

theorem cutAt_append (sep : Char) (cs ds : List Char) :
    cutAt sep (cs ++ sep :: ds) = cutAt sep cs ++ cutAt sep ds := by
  induction cs with
  | nil => simp [cutAt]
  | cons c cs ih =>
    rw [cons_append, cutAt, cutAt, ih]
    split
    · rfl
    · cases hcut : cutAt sep cs with
      | nil => exact absurd hcut (cutAt_ne_nil sep cs)
      | cons piece rest => rfl

end Text

namespace Path

theorem parts_join (directory : String) {file : String} (h : '/' ∉ file.toList) :
    ∃ before, parts (join directory file) = before ++ [file] := by
  have single : parts file = [file] := by
    simp [parts, Text.cutAt_of_not_mem h]
  have below : ∀ upper : String, ∃ before,
      parts (String.ofList (upper.toList ++ '/' :: file.toList)) = before ++ [file] := by
    intro upper
    refine ⟨parts upper, ?_⟩
    simp [parts, Text.cutAt_append, Text.cutAt_of_not_mem h]
  unfold join
  split
  · exact ⟨[], single⟩
  · split
    · next hlast =>
      obtain ⟨upper, hupper⟩ : ∃ upper, directory.toList = upper ++ ['/'] :=
        getLast?_eq_some_iff.mp (by simpa using hlast)
      obtain ⟨before, hbefore⟩ := below (String.ofList upper)
      refine ⟨before, ?_⟩
      rw [← hbefore]
      exact congrArg parts (String.toList_inj.mp (by simp [hupper]))
    · obtain ⟨before, hbefore⟩ := below directory
      refine ⟨before, ?_⟩
      rw [← hbefore]
      exact congrArg parts (String.toList_inj.mp (by simp))

end Path

namespace Files

theorem walk_getLast? {fs : Files} {file : String} (hhere : Path.isHere file = false)
    (hback : file ≠ "..") : ∀ (before place : List String) {last : List String},
    fs.walk place (before ++ [file]) = some last → last.getLast? = some file := by
  intro before
  induction before with
  | nil =>
    intro place last h
    simp only [nil_append, walk] at h
    split at h
    · cases h
    · rw [if_neg (by simp [hhere]), if_neg (by simpa using hback)] at h
      rw [← Option.some.inj h]
      exact getLast?_concat
  | cons part before ih =>
    intro place last h
    rw [cons_append] at h
    unfold walk at h
    split at h
    · cases h
    · split at h
      · exact ih _ h
      · split at h
        · split at h
          · cases h
          · exact ih _ h
        · exact ih _ h

end Files

namespace SourceStore

theorem mem_names_of_fetch {s : SourceStore} {name : String} (hname : '/' ∉ name.toList)
    {file : SourceFile} (h : s.fetch name = .ok file) : name ∈ s.names := by
  simp only [names, mem_append, mem_filterMap]
  unfold fetch at h
  split at h
  · next text htext => exact .inl (.inl (.inr (mem_keys_of_lookup htext)))
  · split at h
    · cases h
    · next path hpath =>
      unfold findPath? at hpath
      split at hpath
      · next mapped hmapped => exact .inl (.inr (mem_keys_of_lookup hmapped))
      · refine .inr ?_
        have hfile : '/' ∉ (name ++ ".mxsl").toList := by
          rw [String.toList_append, mem_append, not_or]
          exact ⟨hname, by decide⟩
        have hlength : 5 ≤ (name ++ ".mxsl").toList.length := by simp
        have hne : ∀ short : String, short.toList.length < 5 → name ++ ".mxsl" ≠ short := by
          rintro short hshort rfl
          omega
        obtain ⟨directory, -, hjoin⟩ := mem_map.mp (mem_of_find?_eq_some hpath)
        obtain ⟨before, hparts⟩ := Path.parts_join directory hfile
        obtain ⟨content, hcontent⟩ : ∃ content, s.files.find? path = some content :=
          Option.isSome_iff_exists.mp (by simpa [Files.isFile] using find?_some hpath)
        obtain ⟨place, hwalk, hplace⟩ := Option.bind_eq_some_iff.mp hcontent
        rw [← hjoin, hparts] at hwalk
        have hlast := Files.walk_getLast? (by simp [Path.isHere, hne "." (by decide)])
          (hne ".." (by decide)) before _ hwalk
        refine ⟨(place, content), mem_of_lookup hplace, ?_⟩
        rw [hlast, Option.map_some, classOfFileName]
        simp

/-! ## What a store reads later -/

structure Below (s t : SourceStore) : Prop where
  files : t.files = s.files
  lookup : t.lookup = s.lookup
  fetch : ∀ name, t.fetch name = s.fetch name
  read : ∀ name file, t.read.lookup name = some file → file ∈ s.candidates name

theorem Below.refl (s : SourceStore) : Below s s where
  files := rfl
  lookup := rfl
  fetch _ := rfl
  read name file h := by simp [candidates, h]

theorem Below.load {s t : SourceStore} (h : Below s t) (name : String) :
    Below s (t.load name).2 ∧ ∀ file, (t.load name).1 = .ok file → file ∈ s.candidates name := by
  unfold SourceStore.load
  split
  · next file hfile =>
    refine ⟨h, ?_⟩
    rintro other ⟨⟩
    exact h.read name file hfile
  · split
    · next file hfile =>
      have hmem : file ∈ s.candidates name := by
        rw [h.fetch] at hfile
        simp [candidates, hfile, Except.toOption]
      refine ⟨⟨h.files, h.lookup, h.fetch, fun n f hn => ?_⟩, ?_⟩
      · rw [lookup_setKey] at hn
        split at hn
        · next heq =>
          rw [heq, ← Option.some.inj hn]
          exact hmem
        · exact h.read n f hn
      · rintro other ⟨⟩
        exact hmem
    · exact ⟨h, nofun⟩

theorem Below.forget {s t : SourceStore} (h : Below s t) (names : List String) : Below s (t.forget names) := by
  refine ⟨h.files, h.lookup, h.fetch, fun name file hfile => h.read name file ?_⟩
  have hkept : (name, file) ∈ t.read.filter fun p => !names.contains p.1 := mem_of_lookup hfile
  rw [← hfile]
  symm
  refine lookup_filter_of_true fun v hv => ?_
  simpa using (mem_filter.mp hkept).2

theorem mem_names_of_candidate {s : SourceStore} {name : String} (hname : '/' ∉ name.toList)
    {file : SourceFile} (h : file ∈ s.candidates name) : name ∈ s.names := by
  rcases mem_append.mp h with h | h
  · simp only [names, mem_append]
    exact .inl (.inl (.inl (mem_keys_of_lookup (Option.mem_toList.mp h))))
  · cases hfetch : s.fetch name with
    | error e => simp [hfetch, Except.toOption] at h
    | ok file => exact mem_names_of_fetch hname hfetch

end SourceStore

end ShaderCompose
