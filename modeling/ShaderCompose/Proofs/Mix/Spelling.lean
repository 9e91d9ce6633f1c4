import ShaderCompose.Proofs.Mix.Instances

/-!
How the names of a mixed shader are spelled.
-/

namespace ShaderCompose.Mix

open List

theorem intercalate_injective {sep : String} {c : Char} (hsep : sep.toList = [c]) {ws vs : List String}
    (hws : ∀ w ∈ ws, c ∉ w.toList) (hvs : ∀ v ∈ vs, c ∉ v.toList) (hne : ws ≠ []) (hne' : vs ≠ [])
    (h : sep.intercalate ws = sep.intercalate vs) : ws = vs := by
  have split : ∀ {us : List String}, (∀ u ∈ us, c ∉ u.toList) → us ≠ [] →
      (sep.intercalate us).toList.splitOn c = us.map String.toList := by
    intro us hus hne
    rw [String.toList_intercalate, hsep]
    refine splitOn_intercalate c ?_ (by simpa using hne)
    intro l hl
    obtain ⟨u, hu, rfl⟩ := mem_map.mp hl
    exact hus u hu
  refine map_injective_iff.mpr (fun a b => String.toList_inj.mp) ?_
  rw [← split hws hne, ← split hvs hne', h]

def OneWord (s : String) : Prop := '_' ∉ s.toList

instance (s : String) : Decidable (OneWord s) := inferInstanceAs (Decidable (_ ∉ _))

def joined (words : List String) : String := "_".intercalate words

theorem joined_injective {ws vs : List String} (hws : ∀ w ∈ ws, OneWord w) (hvs : ∀ v ∈ vs, OneWord v)
    (hne : ws ≠ []) (hne' : vs ≠ []) (h : joined ws = joined vs) : ws = vs :=
  intercalate_injective (by decide) hws hvs hne hne' h

/-! ## Words of labels -/

def numberWord (number : Nat) : String := "id" ++ toString number

theorem numberWord_injective {m n : Nat} (h : numberWord m = numberWord n) : m = n := by
  have hlists := congrArg String.toList h
  rw [numberWord, numberWord, String.toList_append, String.toList_append, append_cancel_left_eq] at hlists
  have hnumbers := congrArg (Nat.ofDigitChars 10 · 0) hlists
  simpa [Nat.toString_eq_ofList_toDigits] using hnumbers

theorem oneWord_numberWord (number : Nat) : OneWord (numberWord number) := by
  intro h
  rw [numberWord, String.toList_append, mem_append] at h
  rcases h with h | h
  · simp at h
  · rw [Nat.toString_eq_ofList_toDigits, String.toList_ofList] at h
    exact absurd (Nat.isDigit_of_mem_toDigits (by decide) (by decide) h) (by decide)

/-- One word, or two for a mixin. -/
inductive NameWords (name : String) : List String → Prop
  | plain (h : OneWord name) : NameWords name [name]
  | mixin (digits : String) (hword : OneWord digits) (hnumber : 'i' ∉ digits.toList)
      (hname : name = joined ["Mixin", digits]) : NameWords name ["Mixin", digits]

def labelWords (words : List String) (number : Nat) : List String :=
  if number = 0 then [] else words ++ [numberWord number]

theorem NameWords.oneWord {name : String} {words : List String} (h : NameWords name words) :
    ∀ w ∈ words, OneWord w := by
  cases h with
  | plain h => simpa using h
  | mixin digits hword =>
    rw [forall_mem_cons, forall_mem_singleton]
    exact ⟨by decide, hword⟩

theorem NameWords.oneWord_label {name : String} {words : List String} (h : NameWords name words)
    (number : Nat) : ∀ w ∈ labelWords words number, OneWord w := by
  unfold labelWords
  split
  · exact forall_mem_nil _
  · rw [forall_mem_append, forall_mem_singleton]
    exact ⟨h.oneWord, oneWord_numberWord number⟩

theorem NameWords.label_append {name : String} {words : List String} (h : NameWords name words)
    (number : Nat) {rest : List String} (hrest : rest ≠ []) :
    labelOf name number ++ joined rest = joined (labelWords words number ++ rest) := by
  have hname : joined words = name := by
    cases h with
    | plain => exact String.intercalate_singleton
    | mixin digits _ _ hname => exact hname.symm
  have hwords : words ≠ [] := by cases h <;> simp
  unfold labelOf labelWords
  split
  · simp
  · have hlabel : joined (words ++ [numberWord number]) = name ++ "_" ++ numberWord number := by
      rw [joined, String.intercalate_append_of_ne_nil hwords (cons_ne_nil _ _),
        String.intercalate_singleton, ← joined, hname]
    have hall : joined (words ++ [numberWord number] ++ rest) =
        joined (words ++ [numberWord number]) ++ "_" ++ joined rest :=
      String.intercalate_append_of_ne_nil (by simp) hrest
    have hid : ("_id" : String) = "_" ++ "id" := by decide
    rw [hall, hlabel]
    simp only [String.append_assoc]
    rfl

/-! ## Spellings -/

inductive Mark where
  | stream
  | shared
  | own (number : Nat)

/-- A mark, the class of an overridden member, and the member. -/
structure Spelling where
  mark : Mark
  owner : Option String
  base : String

def Mark.words (classWords : Nat → List String) : Mark → List String
  | stream => ["streams"]
  | shared => []
  | own number => labelWords (classWords number) number

def Spelling.words (classWords : Nat → List String) (s : Spelling) : List String :=
  s.mark.words classWords ++ (s.owner.toList ++ [s.base])

theorem Mark.words_cases {classWords : Nat → List String} {m : Mark}
    (h : ∀ n, m = .own n → ∃ name, NameWords name (classWords n)) :
    m.words classWords = [] ∧ (m = .shared ∨ m = .own 0) ∨
    m.words classWords = ["streams"] ∧ m = .stream ∨
    (∃ n w, m.words classWords = [w, numberWord n] ∧ m = .own n) ∨
    ∃ n digits, m.words classWords = ["Mixin", digits, numberWord n] ∧ 'i' ∉ digits.toList ∧
      m = .own n := by
  cases m with
  | stream => exact .inr (.inl ⟨rfl, rfl⟩)
  | shared => exact .inl ⟨rfl, .inl rfl⟩
  | own n =>
    by_cases hn : n = 0
    · subst hn
      exact .inl ⟨rfl, .inr rfl⟩
    · obtain ⟨name, hname⟩ := h n rfl
      generalize hwords : classWords n = words at hname
      rw [Mark.words, labelWords, if_neg hn, hwords]
      cases hname with
      | plain => exact .inr (.inr (.inl ⟨n, name, rfl, rfl⟩))
      | mixin digits _ hnumber => exact .inr (.inr (.inr ⟨n, digits, rfl, hnumber, rfl⟩))

structure Spelling.Proper (classWords : Nat → List String) (s : Spelling) : Prop where
  label : ∀ n, s.mark = .own n → ∃ name, NameWords name (classWords n)
  words : ∀ w ∈ s.owner.toList ++ [s.base], OneWord w
  owner : s.owner ≠ some "streams"
  stream : s.mark = .stream → s.owner = none

namespace Spelling

variable {classWords : Nat → List String} {s t : Spelling}

theorem Proper.oneWord (h : s.Proper classWords) : ∀ w ∈ s.words classWords, OneWord w := by
  refine forall_mem_append.mpr ⟨?_, h.words⟩
  cases hmark : s.mark with
  | stream =>
    rw [Mark.words]
    decide
  | shared => exact forall_mem_nil _
  | own n =>
    obtain ⟨name, hname⟩ := h.label n hmark
    exact hname.oneWord_label n

theorem Proper.eq_of_words (hs : s.Proper classWords) (ht : t.Proper classWords)
    (h : s.words classWords = t.words classWords) :
    s.owner = t.owner ∧ s.base = t.base ∧ (s.mark = t.mark ∨
      s.mark = .shared ∧ t.mark = .own 0 ∨ s.mark = .own 0 ∧ t.mark = .shared) := by
  have hdigits : ∀ {n : Nat} {digits : String}, 'i' ∉ digits.toList → numberWord n ≠ digits := by
    rintro n _ hdigits rfl
    exact hdigits (by simp [numberWord])
  have hsm := Mark.words_cases hs.label
  have htm := Mark.words_cases ht.label
  obtain ⟨-, -, hso, hss⟩ := hs
  obtain ⟨-, -, hto, hts⟩ := ht
  obtain ⟨m, o, b⟩ := s
  obtain ⟨m', o', b'⟩ := t
  unfold Spelling.words at h
  -- the marks have no, one, two or three words, and one or two words follow
  rcases hsm with ⟨hm, hmark⟩ | ⟨hm, hmark⟩ | ⟨n, w, hm, hmark⟩ | ⟨n, w, hm, hi, hmark⟩ <;>
    rcases htm with ⟨hm', hmark'⟩ | ⟨hm', hmark'⟩ | ⟨n', w', hm', hmark'⟩ | ⟨n', w', hm', hi', hmark'⟩ <;>
    rw [hm, hm'] at h <;> cases o <;> cases o' <;> simp at h <;> grind [numberWord_injective]

theorem Proper.eq_of_name (hs : s.Proper classWords) (ht : t.Proper classWords)
    (h : joined (s.words classWords) = joined (t.words classWords)) :
    s.owner = t.owner ∧ s.base = t.base ∧ (s.mark = t.mark ∨
      s.mark = .shared ∧ t.mark = .own 0 ∨ s.mark = .own 0 ∧ t.mark = .shared) :=
  hs.eq_of_words ht (joined_injective hs.oneWord ht.oneWord (by simp [Spelling.words])
    (by simp [Spelling.words]) h)

end Spelling

end ShaderCompose.Mix
