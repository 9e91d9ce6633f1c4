import ShaderCompose.Proofs.Reader.Reads
import ShaderCompose.Request.Reader

/-!
Requests survive printing.
-/

namespace ShaderCompose.Request

open List
open Reader (Parser Gap gap_nil gap_space isSpace)
open Reader.Parser (Reads Misses)

/-! ## Plain requests -/

def isNameChar (ch : Char) : Bool := Text.isAlphanumeric ch || ch == '_'

def IsName (name : String) : Prop := name ≠ "" ∧ ∀ ch ∈ name.toList, isNameChar ch = true

structure IsGeneric (g : String) : Prop where
  ne : g ≠ ""
  inside : ∀ ch ∈ g.toList, ch ≠ ',' ∧ ch ≠ '>'
  first : ∀ ch ∈ g.toList.head?, Text.isBlank ch = false
  last : ∀ ch ∈ g.toList.getLast?, Text.isBlank ch = false

structure IsClass (c : ClassRef) : Prop where
  name : IsName c.name
  generics : ∀ g ∈ c.generics, IsGeneric g

/-- The requests that their texts can tell. -/
inductive Plain : Request → Prop
  | single {cls : ClassRef} : IsClass cls → Plain (.single cls)
  | mixin {bases : List ClassRef} {slots : List (String × Request)} : bases ≠ [] → (2 ≤ bases.length ∨ slots ≠ []) →
    (∀ c ∈ bases, IsClass c) → (∀ s ∈ slots, IsName s.1) → (∀ s ∈ slots, Plain s.2) → Plain (.mixin bases slots [])
  | array {values : List Request} : values ≠ [] → (∀ r ∈ values, Plain r) → Plain (.array values)

/-! ## Lists in texts -/

def listed {α : Type} (between : List Char) (print : α → List Char) : List α → List Char
  | [] => []
  | a :: as => print a ++ as.flatMap fun a => between ++ print a

section

variable {α : Type}

theorem length_le_listed (between : List Char) (print : α → List Char) {a : α} {as : List α} (h : a ∈ as) :
    (print a).length ≤ (listed between print as).length := by
  cases as with
  | nil => cases h
  | cons b bs =>
    rw [listed, length_append]
    rcases mem_cons.mp h with rfl | h
    · omega
    · obtain ⟨before, behind, rfl⟩ := append_of_mem h
      simp only [flatMap_append, flatMap_cons, length_append]
      omega

theorem toList_joinWith (between : String) (f : α → String) (as : List α) :
    (joinWith between (as.map f)).toList = listed between.toList (fun a => (f a).toList) as := by
  cases as with
  | nil => rfl
  | cons a as =>
    induction as generalizing a with
    | nil => simp [joinWith, listed]
    | cons b bs ih => simp_all [joinWith, listed]

theorem toList_intercalate_listed (between : String) (ss : List String) :
    (between.intercalate ss).toList = listed between.toList String.toList ss := by
  rw [String.toList_intercalate]
  cases ss with
  | nil => rfl
  | cons s ss =>
    induction ss generalizing s with
    | nil => simp [listed]
    | cons t ts ih => simp_all [listed, intercalate_cons_cons]

end

theorem slotTexts_eq_map (slots : List (String × Request)) :
    slotTexts slots = slots.map fun s => s.1 ++ "=" ++ s.2.text := by
  induction slots with
  | nil => rfl
  | cons s slots ih => rw [slotTexts, ih]; rfl

theorem listTexts_eq_map (values : List Request) : listTexts values = values.map text := by
  induction values with
  | nil => rfl
  | cons r values ih => rw [listTexts, ih]; rfl

/-! ## Parts and what follows them -/

section

variable {α : Type} {p : Parser α} {marks text gap rest : List Char} {mark : Char} {a : α}

def Ends (marks rest : List Char) : Prop := ∀ ch ∈ rest.head?, ch ∈ marks

theorem Ends.cons (h : mark ∈ marks) (rest : List Char) : Ends marks (mark :: rest) := by
  rintro ch ⟨⟩
  exact h

variable {q : Char → Bool}

theorem Ends.other (h : Ends marks rest) (hmarks : marks.all fun ch => !q ch) :
    ∀ ch ∈ rest.head?, q ch = false := fun ch hch => by
  simpa using all_eq_true.mp hmarks ch (h ch hch)

def Comes (marks : List Char) (p : Parser α) (text : List Char) (a : α) : Prop :=
  ∀ gap rest, Gap gap → Ends marks rest → Reads p (gap ++ text) rest (· = a)

theorem isSpace_of_gap (hgap : Gap gap) : ∀ ch ∈ gap, isSpace ch = true := by
  intro ch hch
  rw [hgap ch hch]
  rfl

theorem reads_spaced {P : α → Prop} (hgap : Gap gap) (hp : Reads p text rest P)
    (hfirst : ∀ ch ∈ (text ++ rest).head?, isSpace ch = false) (hrest : ∀ ch ∈ rest.head?, isSpace ch = false) :
    Reads (spaced p) (gap ++ text) rest P := by
  refine (Reads.takeWhile (isSpace_of_gap hgap) hfirst).bind fun _ _ => hp.last fun a ha => ?_
  exact (Reads.takeWhile (forall_mem_nil _) hrest).last fun _ _ => .pure ha

theorem misses_spaced (hgap : Gap gap) (hfirst : ∀ ch ∈ rest.head?, isSpace ch = false) (h : Misses p rest) :
    Misses (spaced p) (gap ++ rest) :=
  .after (Reads.takeWhile (isSpace_of_gap hgap) hfirst) fun _ _ => .bind h

theorem reads_spacedTag (hgap : Gap gap) (hmark : isSpace mark = false) (hrest : ∀ ch ∈ rest.head?, isSpace ch = false) :
    Reads (spacedTag mark) (gap ++ [mark]) rest fun _ => True :=
  reads_spaced hgap (.tag _ _) (by rintro ch ⟨⟩; exact hmark) hrest

theorem misses_tag (h : ∀ ch ∈ rest.head?, (ch == mark) = false) : Misses (Parser.tag [mark]) rest := by
  cases rest with
  | nil => exact .tag rfl
  | cons ch rest => exact .tag_of_ne (by simpa using h ch rfl)

def Starts (q : Char → Bool) (text : List Char) : Prop := ∃ ch chs, text = ch :: chs ∧ q ch = true

theorem Starts.head (h : Starts q text) (rest : List Char) : ∀ ch ∈ (text ++ rest).head?, q ch = true := by
  obtain ⟨ch, chs, rfl, hch⟩ := h
  rintro _ ⟨⟩
  exact hch

theorem Starts.append (h : Starts q text) (rest : List Char) : Starts q (text ++ rest) := by
  obtain ⟨ch, chs, rfl, hch⟩ := h
  exact ⟨ch, chs ++ rest, rfl, hch⟩

theorem Starts.listed {print : α → List Char} {as : List α} (has : as ≠ [])
    (h : ∀ a ∈ as, Starts q (print a)) (between : List Char) : Starts q (listed between print as) := by
  obtain ⟨a, as, rfl⟩ := exists_cons_of_ne_nil has
  exact (h a mem_cons_self).append _

theorem isSpace_eq_false {ch : Char} (h : isNameChar ch = true) : isSpace ch = false := by
  by_contra hspace
  simp only [isSpace, Bool.not_eq_false, Bool.or_eq_true, beq_iff_eq] at hspace
  rcases hspace with ((rfl | rfl) | rfl) | rfl <;> exact absurd h (by decide)

theorem Starts.solid (h : Starts isNameChar text) : Starts (!isSpace ·) text := by
  obtain ⟨ch, chs, htext, hch⟩ := h
  exact ⟨ch, chs, htext, by simp [isSpace_eq_false hch]⟩

theorem Starts.not_space (h : Starts (!isSpace ·) text) (rest : List Char) :
    ∀ ch ∈ (text ++ rest).head?, isSpace ch = false :=
  fun ch hch => by simpa using h.head rest ch hch

theorem reads_separated1 {print : α → List Char} {lead : List Char} {as : List α} (has : as ≠ [])
    (h : ∀ a ∈ as, Comes marks p (print a) a) (hgap : Gap gap) (hlead : Gap lead) (hmark : mark ∈ marks)
    (hrest : Ends marks rest) (hstop : ∀ ch ∈ rest.head?, (ch == mark) = false) :
    Reads (Parser.separated1 (Parser.tag [mark]) p) (gap ++ listed (mark :: lead) print as) rest (· = as) := by
  cases as with
  | nil => exact absurd rfl has
  | cons a as =>
    have hends : ∀ behind : List α, Ends marks ((behind.flatMap fun a => mark :: lead ++ print a) ++ rest)
      | [] => hrest
      | b :: behind => .cons hmark _
    rw [listed, ← append_assoc]
    refine (h a mem_cons_self gap _ hgap (hends as)).bind fun x hx => ?_
    refine (Reads.many (v := id) (w := id) (.bind (misses_tag hstop)) (by simp) fun b behind hb => ?_).last
      fun xs hxs => .pure ?_
    · refine .cons (.tag _ _) fun _ _ => h b (mem_cons_of_mem _ (hb.mem mem_cons_self)) lead _ hlead (hends behind)
    · rw [hx, show xs = as by simpa using hxs]

end

/-! ## Names and classes -/

section

variable {gap rest : List Char}

theorem IsName.starts {name : String} (h : IsName name) : Starts isNameChar name.toList := by
  obtain ⟨ch, chs, hname⟩ := exists_cons_of_ne_nil (show name.toList ≠ [] by simpa using h.1)
  exact ⟨ch, chs, hname, h.2 ch (by simp [hname])⟩

theorem IsName.comes {name : String} (h : IsName name) :
    Comes ['=', '<', '+', '(', ',', ')', ']'] nameText name.toList name := by
  intro gap rest hgap hrest
  have hname : Reads (Parser.takeWhile1 fun c => Text.isAlphanumeric c || c == '_') name.toList rest (· = name.toList) :=
    .takeWhile1 (by simpa using h.1) h.2 (hrest.other rfl)
  refine (reads_spaced hgap hname (h.starts.solid.not_space rest) (hrest.other rfl)).last fun x hx => .pure ?_
  rw [hx, String.ofList_toList]

theorem isBlank_of_isSpace {ch : Char} (h : isSpace ch = true) : Text.isBlank ch = true := by
  simp only [isSpace, Bool.or_eq_true, beq_iff_eq] at h
  rcases h with ((rfl | rfl) | rfl) | rfl <;> decide

theorem dropWhile_eq_self {q : Char → Bool} {cs : List Char} (h : ∀ ch ∈ cs.head?, q ch = false) :
    cs.dropWhile q = cs := by
  cases cs with
  | nil => rfl
  | cons ch cs => exact dropWhile_cons_of_neg (by simp [h ch rfl])

theorem IsGeneric.trim_eq {g : String} (h : IsGeneric g) : Text.trim g.toList = g.toList := by
  have hlast : ∀ ch ∈ g.toList.reverse.head?, Text.isBlank ch = false := by
    rw [head?_reverse]
    exact h.last
  rw [Text.trim, Text.trimStart, dropWhile_eq_self h.first, Text.dropEndWhile, dropWhile_eq_self hlast, reverse_reverse]

theorem IsGeneric.comes {g : String} (h : IsGeneric g) : Comes [',', '>'] genericText g.toList g := by
  intro gap rest hgap hrest
  have hne : g.toList ≠ [] := by simpa using h.ne
  have hgeneric : Reads (Parser.takeWhile1 fun c => c != ',' && c != '>') g.toList rest (· = g.toList) :=
    .takeWhile1 hne (fun ch hch => by simpa using h.inside ch hch) (hrest.other rfl)
  refine (reads_spaced hgap hgeneric ?_ (hrest.other rfl)).last fun x hx => .pure ?_
  · intro ch hch
    rw [head?_append_of_ne_nil _ hne] at hch
    by_contra hspace
    have hblank := h.first ch hch
    rw [isBlank_of_isSpace (by simpa using hspace)] at hblank
    cases hblank
  · rw [hx, h.trim_eq, String.ofList_toList]

theorem IsClass.comes {c : ClassRef} (h : IsClass c) : Comes ['+', '(', ',', ')', ']'] classRef c.text.toList c := by
  obtain ⟨name, generics⟩ := c
  intro gap rest hgap hrest
  by_cases hnil : generics = []
  · subst hnil
    refine (h.name.comes gap rest hgap fun ch hch => ?_).last fun x hx => ?_
    · have := hrest ch hch
      simp_all
    · refine (Reads.optional_of_misses (.bind (misses_tag (hrest.other rfl)))).last fun o ho => ?_
      subst hx ho
      exact .pure rfl
  · have htext : ClassRef.text ⟨name, generics⟩ = name ++ "<" ++ ",".intercalate generics ++ ">" :=
      if_neg (by simpa using hnil)
    simp only [htext, String.toList_append, toList_intercalate_listed, append_assoc]
    rw [← append_assoc]
    refine (h.name.comes gap ('<' :: _) hgap (.cons (by simp) _)).bind fun x hx => ?_
    have hgenerics : Reads genericTexts ('<' :: (listed [','] String.toList generics ++ ['>'])) rest (· = generics) := by
      refine .cons (.tag _ _) fun _ _ => ?_
      refine Reads.bind (reads_separated1 hnil (fun g hg => (h.generics g hg).comes) gap_nil gap_nil (by simp)
        (.cons (by simp) _) ?_) fun gs hgs => (Reads.tag _ _).last fun _ _ => .pure hgs
      rintro _ ⟨⟩
      rfl
    refine hgenerics.optional.last fun o ho => ?_
    obtain ⟨gs, rfl, rfl⟩ := ho
    subst hx
    exact .pure rfl

theorem IsClass.starts {c : ClassRef} (h : IsClass c) : Starts isNameChar c.text.toList := by
  rw [ClassRef.text]
  split
  · exact h.name.starts
  · simp only [String.toList_append, append_assoc]
    exact h.name.starts.append _

end

section

variable {nested : Parser Request} {gap rest : List Char}

def closing : List Char := [',', ')', ']']

def slotChars (s : String × Request) : List Char := s.1.toList ++ '=' :: s.2.text.toList

def slotsChars : List (String × Request) → List Char
  | [] => []
  | slots => '(' :: (listed [',', ' '] slotChars slots ++ [')'])

theorem reads_slotText {s : String × Request} (hname : IsName s.1)
    (hnested : Comes closing nested s.2.text.toList s.2) : Comes closing (slotText nested) (slotChars s) s := by
  intro gap rest hgap hrest
  rw [slotChars, ← append_assoc]
  refine (hname.comes gap _ hgap (.cons (by simp) _)).bind fun slot hslot => ?_
  refine .cons (.tag _ _) fun _ _ => (hnested [] rest gap_nil hrest).last fun r hr => .pure ?_
  rw [hslot, hr]

theorem reads_bracketed {α β : Type} {p : Parser α} {f : List α → β} {print : α → List Char} {as : List α}
    {lead : List Char} {o c : Char} (ho : isSpace o = false) (hc : c ∈ closing) (hcomma : (c == ',') = false)
    (hne : as ≠ []) (hlead : Gap lead) (hstarts : ∀ a ∈ as, Starts (!isSpace ·) (print a))
    (h : ∀ a ∈ as, Comes closing p (print a) a) (hgap : Gap gap) (hrest : Ends closing rest) :
    Reads (do spacedTag o; let as ← Parser.separated1 (Parser.tag [',']) p; spacedTag c; return f as)
      (gap ++ o :: (listed (',' :: lead) print as ++ [c])) rest (· = f as) := by
  have hspace : isSpace c = false := by
    simpa using all_eq_true.mp (show closing.all (!isSpace ·) = true from rfl) c hc
  rw [append_cons]
  refine (reads_spacedTag hgap ho ?_).bind fun _ _ => ?_
  · rw [append_assoc]
    exact (Starts.listed hne hstarts _).not_space _
  · refine Reads.bind (reads_separated1 hne h gap_nil hlead (by simp [closing]) (.cons hc _) ?_) fun found hfound => ?_
    · rintro _ ⟨⟩
      exact hcomma
    · exact (reads_spacedTag gap_nil hspace (hrest.other rfl)).last fun _ _ => .pure (by rw [hfound])

theorem reads_slotsText {slots : List (String × Request)} (hnames : ∀ s ∈ slots, IsName s.1)
    (hnested : ∀ s ∈ slots, Comes closing nested s.2.text.toList s.2) (hrest : Ends closing rest) :
    Reads (Parser.optional (slotsText nested)) (slotsChars slots) rest
      (· = if slots = [] then none else some slots) := by
  cases slots with
  | nil =>
    refine Reads.optional_of_misses (.bind (misses_spaced gap_nil (hrest.other rfl) (misses_tag (hrest.other rfl))))
  | cons s slots =>
    have hslots : Reads (slotsText nested) (slotsChars (s :: slots)) rest (· = s :: slots) :=
      reads_bracketed rfl (by simp [closing]) rfl (cons_ne_nil _ _) gap_space
        (fun s hs => (hnames s hs).starts.solid.append _) (fun s hs => reads_slotText (hnames s hs) (hnested s hs))
        gap_nil hrest
    refine hslots.optional.mono fun o ho => ?_
    obtain ⟨found, rfl, rfl⟩ := ho
    rfl

def baseChars (bases : List ClassRef) : List Char := listed ['+'] (fun c => c.text.toList) bases

theorem comes_mixinText {bases : List ClassRef} {slots : List (String × Request)} (hne : bases ≠ [])
    (hbases : ∀ c ∈ bases, IsClass c) (hnames : ∀ s ∈ slots, IsName s.1)
    (hnested : ∀ s ∈ slots, Comes closing nested s.2.text.toList s.2) :
    Comes closing (mixinText nested) (baseChars bases ++ slotsChars slots)
      (match bases, slots with
        | [cls], [] => .single cls
        | bases, slots => .mixin bases slots []) := by
  intro gap rest hgap hrest
  have hends : Ends ['+', '(', ',', ')', ']'] (slotsChars slots ++ rest) := by
    cases slots with
    | nil => exact fun ch hch => mem_cons_of_mem _ (mem_cons_of_mem _ (hrest ch hch))
    | cons s slots => exact .cons (by simp) _
  have hplus : ∀ ch ∈ (slotsChars slots ++ rest).head?, (ch == '+') = false := by
    cases slots with
    | nil => exact hrest.other rfl
    | cons s slots => rintro _ ⟨⟩; rfl
  rw [← append_assoc]
  refine (reads_separated1 hne (fun c hc => (hbases c hc).comes) hgap gap_nil (by simp) hends hplus).bind
    fun found hfound => ?_
  refine (reads_slotsText hnames hnested hrest).last fun filled hfilled => .pure ?_
  subst hfound hfilled
  match found, slots with
  | [cls], [] => rfl
  | [cls], s :: slots => rfl
  | c :: c' :: cs, [] => rfl
  | c :: c' :: cs, s :: slots => rfl

theorem misses_arrayText {text : List Char} (hgap : Gap gap) (h : Starts isNameChar text) :
    Misses (arrayText nested) (gap ++ text ++ rest) := by
  rw [append_assoc]
  refine .bind (misses_spaced hgap (h.solid.not_space rest) (misses_tag fun ch hch => ?_))
  have hname := h.head rest ch hch
  by_contra hmark
  rw [show ch = '[' by simpa using hmark] at hname
  revert hname
  decide

end

/-! ## Whole texts -/

theorem starts_baseChars {bases : List ClassRef} (hne : bases ≠ []) (hbases : ∀ c ∈ bases, IsClass c) :
    Starts isNameChar (baseChars bases) :=
  .listed hne (fun c hc => (hbases c hc).starts) _

theorem length_lt_slotsChars {s : String × Request} {slots : List (String × Request)} (h : s ∈ slots) :
    s.2.text.toList.length < (slotsChars slots).length := by
  have hslot := length_le_listed [',', ' '] slotChars h
  cases slots with
  | nil => cases h
  | cons t slots =>
    simp only [slotsChars, slotChars, length_cons, length_append] at hslot ⊢
    omega

theorem text_mixin (bases : List ClassRef) (slots : List (String × Request)) (macros : List MacroDef) :
    (text (.mixin bases slots macros)).toList = baseChars bases ++ slotsChars slots := by
  cases slots with
  | nil => simp [text, toList_joinWith, baseChars, slotsChars]
  | cons s slots =>
    rw [text, slotTexts_eq_map]
    simp only [String.toList_append, toList_joinWith, append_assoc]
    rfl

theorem text_array (values : List Request) :
    (text (.array values)).toList = '[' :: (listed [','] (fun r => r.text.toList) values ++ [']']) := by
  simp [text, listTexts_eq_map, toList_joinWith]

namespace Plain

variable {r : Request}

theorem starts (h : r.Plain) : Starts (!isSpace ·) r.text.toList := by
  cases h with
  | single hcls => exact hcls.starts.solid
  | mixin hne _ hbases _ _ =>
    rw [text_mixin]
    exact ((starts_baseChars hne hbases).append _).solid
  | array _ _ =>
    rw [text_array]
    exact ⟨'[', _, rfl, rfl⟩

theorem comes (h : r.Plain) {fuel : Nat} (hfuel : r.text.toList.length < fuel) :
    Comes closing (treeFrom fuel) r.text.toList r := by
  induction h generalizing fuel with
  | @single cls hcls =>
    obtain ⟨fuel, rfl⟩ := Nat.exists_eq_succ_of_ne_zero (Nat.ne_zero_of_lt hfuel)
    have hmixin := @comes_mixinText (treeFrom fuel) _ _ (cons_ne_nil cls []) (by simpa using hcls) (forall_mem_nil _)
      (forall_mem_nil _)
    rw [baseChars, slotsChars, listed, flatMap_nil, append_nil, append_nil] at hmixin
    exact fun gap rest hgap hrest => .orElse_of_misses (misses_arrayText hgap hcls.starts) (hmixin gap rest hgap hrest)
  | @mixin bases slots hne hmixin hbases hnames _ ih =>
    obtain ⟨fuel, rfl⟩ := Nat.exists_eq_succ_of_ne_zero (Nat.ne_zero_of_lt hfuel)
    rw [text_mixin] at hfuel ⊢
    have hnested : ∀ s ∈ slots, Comes closing (treeFrom fuel) s.2.text.toList s.2 := by
      intro s hs
      have hslot := length_lt_slotsChars hs
      exact ih s hs (by grind)
    have hwhole := comes_mixinText hne hbases hnames hnested
    intro gap rest hgap hrest
    refine .orElse_of_misses (misses_arrayText hgap ((starts_baseChars hne hbases).append _)) ?_
    have hread := hwhole gap rest hgap hrest
    match bases, slots, hmixin with
    | [cls], s :: slots, _ => exact hread
    | c :: c' :: cs, slots, _ => exact hread
  | @array values hne hvalues ih =>
    obtain ⟨fuel, rfl⟩ := Nat.exists_eq_succ_of_ne_zero (Nat.ne_zero_of_lt hfuel)
    rw [text_array] at hfuel ⊢
    refine fun gap rest hgap hrest => .orElse ?_
    refine reads_bracketed rfl (by simp [closing]) rfl hne gap_nil (fun r hr => (hvalues r hr).starts)
      (fun r hr => ih r hr ?_) hgap hrest
    have hvalue := length_le_listed [','] (fun r : Request => r.text.toList) hr
    simp only [length_cons, length_append] at hfuel
    omega

/-- A plain request survives printing. -/
theorem ofText_text (h : r.Plain) : ofText r.text = .ok r := by
  have htree : Reads tree r.text.toList [] (· = r) := by
    intro c hc
    have hfuel : r.text.toList.length < c.rest.length + 1 := by
      rw [hc, append_nil]
      omega
    exact h.comes hfuel [] [] gap_nil (fun _ hch => nomatch hch) c hc
  have hall : Reads (do let r ← tree; Parser.atEnd; return r) r.text.toList [] (· = r) :=
    htree.last fun found hfound => Reads.atEnd.last fun _ _ => .pure hfound
  obtain ⟨found, c, hok, -, rfl⟩ := hall (.start "" r.text.toList) (append_nil _).symm
  rw [ofText, hok]

theorem filled_ofText_text :
    let r : Request := .mixin [⟨"Root", ["1", "2.0 f"]⟩]
      [("light", .single ⟨"Spot_2", []⟩), ("lights", .array [.mixin [⟨"A", []⟩, ⟨"B", []⟩] [] [], .single ⟨"A", []⟩])] []
    ofText r.text = .ok r := by
  have plain {name : String} (hname : IsName name) : IsClass ⟨name, []⟩ := ⟨hname, forall_mem_nil _⟩
  have hroot : IsClass ⟨"Root", ["1", "2.0 f"]⟩ := by
    refine ⟨⟨by decide, all_eq_true.mp rfl⟩, ?_⟩
    simp only [forall_mem_cons]
    refine ⟨⟨by decide, by simp, ?_, ?_⟩, ⟨by decide, by simp, ?_, ?_⟩, forall_mem_nil _⟩ <;> simp <;> decide
  have ha : IsClass ⟨"A", []⟩ := plain ⟨by decide, all_eq_true.mp rfl⟩
  have hb : IsClass ⟨"B", []⟩ := plain ⟨by decide, all_eq_true.mp rfl⟩
  have hspot : IsClass ⟨"Spot_2", []⟩ := plain ⟨by decide, all_eq_true.mp rfl⟩
  have hlights : Plain (.array [.mixin [⟨"A", []⟩, ⟨"B", []⟩] [] [], .single ⟨"A", []⟩]) := by
    refine .array (cons_ne_nil _ _) ?_
    simp only [forall_mem_cons]
    refine ⟨.mixin (cons_ne_nil _ _) (.inl le_rfl) ?_ (forall_mem_nil _) (forall_mem_nil _), .single ha, forall_mem_nil _⟩
    simpa using ⟨ha, hb⟩
  refine ofText_text (.mixin (cons_ne_nil _ _) (.inr (cons_ne_nil _ _)) (by simpa using hroot) ?_ ?_)
  · simp only [forall_mem_cons]
    exact ⟨⟨by decide, all_eq_true.mp rfl⟩, ⟨by decide, all_eq_true.mp rfl⟩, forall_mem_nil _⟩
  · simp only [forall_mem_cons]
    exact ⟨.single hspot, hlights, forall_mem_nil _⟩

end Plain

end ShaderCompose.Request
