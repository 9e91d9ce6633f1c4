import ShaderCompose.Proofs.Text.Lines
import ShaderCompose.Reader.Expr

/-!
What parsers make of a known text.
-/

namespace ShaderCompose.Reader

open List

namespace Parser

variable {α β : Type}

def Reads (p : Parser α) (text rest : List Char) (P : α → Prop) : Prop :=
  ∀ c : Cursor, c.rest = text ++ rest → ∃ a c', p c = .ok a c' ∧ c'.rest = rest ∧ P a

def Misses (p : Parser α) (text : List Char) : Prop :=
  ∀ c : Cursor, c.rest = text → ∃ place, p c = .miss place

section

variable {p q : Parser α} {f : α → Parser β} {text more rest : List Char} {P : α → Prop}

namespace Reads

theorem pure {a : α} (h : P a) : Reads (Pure.pure a) [] rest P := fun c hc => ⟨a, c, rfl, hc, h⟩

theorem bind {Q : β → Prop} (hp : Reads p text (more ++ rest) P)
    (hf : ∀ a, P a → Reads (f a) more rest Q) : Reads (p >>= f) (text ++ more) rest Q := by
  intro c hc
  obtain ⟨a, c', hok, hrest, ha⟩ := hp c (by rw [hc, append_assoc])
  obtain ⟨b, c'', hok', hrest', hb⟩ := hf a ha c' hrest
  refine ⟨b, c'', ?_, hrest', hb⟩
  change Parser.bind p f c = _
  rw [Parser.bind, hok]
  exact hok'

theorem cons {Q : β → Prop} {ch : Char} (hp : Reads p [ch] (more ++ rest) P)
    (hf : ∀ a, P a → Reads (f a) more rest Q) : Reads (p >>= f) (ch :: more) rest Q :=
  bind hp hf

theorem last {Q : β → Prop} (hp : Reads p text rest P) (hf : ∀ a, P a → Reads (f a) [] rest Q) :
    Reads (p >>= f) text rest Q := by
  have h : Reads (p >>= f) (text ++ []) rest Q := Reads.bind hp hf
  rwa [append_nil] at h

theorem first {Q : β → Prop} (hp : Reads p [] (text ++ rest) P) (hf : ∀ a, P a → Reads (f a) text rest Q) :
    Reads (p >>= f) text rest Q :=
  bind hp hf

theorem mono {Q : α → Prop} (h : Reads p text rest P) (hsub : ∀ a, P a → Q a) : Reads p text rest Q := by
  intro c hc
  obtain ⟨a, c', hok, hrest, ha⟩ := h c hc
  exact ⟨a, c', hok, hrest, hsub a ha⟩

theorem orElse (h : Reads p text rest P) : Reads (Parser.orElse p q) text rest P := by
  intro c hc
  obtain ⟨a, c', hok, hrest⟩ := h c hc
  exact ⟨a, c', by rw [Parser.orElse, hok], hrest⟩

theorem orElse_of_misses (hp : Misses p (text ++ rest)) (hq : Reads q text rest P) :
    Reads (Parser.orElse p q) text rest P := by
  intro c hc
  obtain ⟨place, hmiss⟩ := hp c hc
  obtain ⟨a, c', hok, hrest⟩ := hq c hc
  exact ⟨a, c', by rw [Parser.orElse, hmiss]; exact hok, hrest⟩

theorem optional (h : Reads p text rest P) : Reads (Parser.optional p) text rest fun o => ∃ a, o = some a ∧ P a := by
  intro c hc
  obtain ⟨a, c', hok, hrest, ha⟩ := h c hc
  exact ⟨some a, c', by rw [Parser.optional, hok], hrest, a, rfl, ha⟩

theorem optional_of_misses (h : Misses p rest) : Reads (Parser.optional p) [] rest (· = none) := by
  intro c hc
  obtain ⟨place, hmiss⟩ := h c hc
  exact ⟨none, c, by rw [Parser.optional, hmiss], hc, rfl⟩

theorem filterMap {g : α → Option β} {Q : β → Prop} (h : Reads p text rest P)
    (hg : ∀ a, P a → ∃ b, g a = some b ∧ Q b) : Reads (Parser.filterMap p g) text rest Q := by
  intro c hc
  obtain ⟨a, c', hok, hrest, ha⟩ := h c hc
  obtain ⟨b, hb, hQ⟩ := hg a ha
  exact ⟨b, c', by simp only [Parser.filterMap, hok, hb], hrest, hQ⟩

theorem tag (text rest : List Char) : Reads (Parser.tag text) text rest fun _ => True := by
  intro c hc
  refine ⟨(), c.drop text.length, ?_, ?_, trivial⟩
  · rw [Parser.tag, hc, Text.after?_self]
  · rw [Cursor.rest_drop, hc, drop_left]

theorem takeWhile {p : Char → Bool} (htext : ∀ ch ∈ text, p ch = true) (hrest : ∀ ch ∈ rest.head?, p ch = false) :
    Reads (Parser.takeWhile p) text rest (· = text) := by
  have htaken : (text ++ rest).takeWhile p = text := by
    rw [takeWhile_append_of_pos htext]
    cases rest with
    | nil => simp
    | cons ch rest => simp [hrest ch rfl]
  intro c hc
  refine ⟨text, c.drop text.length, ?_, ?_, rfl⟩
  · rw [Parser.takeWhile, hc, htaken]
  · rw [Cursor.rest_drop, hc, drop_left]

theorem takeWhile1 {p : Char → Bool} (hne : text ≠ []) (htext : ∀ ch ∈ text, p ch = true)
    (hrest : ∀ ch ∈ rest.head?, p ch = false) : Reads (Parser.takeWhile1 p) text rest (· = text) := by
  intro c hc
  obtain ⟨a, c', hok, hrest, rfl⟩ := takeWhile htext hrest c hc
  simp only [Parser.takeWhile, Outcome.ok.injEq] at hok
  refine ⟨a, c', ?_, hrest, rfl⟩
  rw [Parser.takeWhile1]
  cases a with
  | nil => exact absurd rfl hne
  | cons ch a => rw [← hok.2, hok.1]

theorem satisfy {p : Char → Bool} {ch : Char} (h : p ch = true) : Reads (Parser.satisfy p) [ch] rest (· = ch) := by
  intro c hc
  refine ⟨ch, c.drop 1, ?_, ?_, rfl⟩
  · simp only [Parser.satisfy, hc, singleton_append, h, if_true]
  · rw [Cursor.rest_drop, hc]
    rfl

theorem notNext {p : Char → Bool} (h : ∀ ch ∈ rest.head?, p ch = false) :
    Reads (Parser.notNext p) [] rest fun _ => True := by
  intro c hc
  refine ⟨(), c, ?_, hc, trivial⟩
  cases rest with
  | nil => rw [Parser.notNext, hc, nil_append]
  | cons ch rest => simp [Parser.notNext, hc, h ch rfl]

theorem atEnd : Reads Parser.atEnd [] [] fun _ => True :=
  fun c hc => ⟨(), c, by rw [Parser.atEnd, hc]; rfl, hc, trivial⟩

theorem manyFrom_nil (h : Misses p rest) (fuel : Nat) : Reads (manyFrom p fuel) [] rest (· = []) := by
  intro c hc
  refine ⟨[], c, ?_, hc, rfl⟩
  obtain ⟨place, hmiss⟩ := h c hc
  cases fuel with
  | zero => rfl
  | succ fuel => rw [manyFrom, hmiss]

theorem manyFrom_cons {fuel : Nat} {Q R : List α → Prop} (hp : Reads p text (more ++ rest) P)
    (hmore : Reads (manyFrom p fuel) more rest Q) (hR : ∀ a as, P a → Q as → R (a :: as)) :
    Reads (manyFrom p (fuel + 1)) (text ++ more) rest R := by
  intro c hc
  obtain ⟨a, c', hok, hrest, ha⟩ := hp c (by rw [hc, append_assoc])
  obtain ⟨as, c'', hok', hrest', has⟩ := hmore c' hrest
  exact ⟨a :: as, c'', by simp only [manyFrom, hok, hok'], hrest', hR a as ha has⟩

theorem many {γ : Type} {print : β → List Char} {v : α → γ} {w : β → γ} {bs : List β} (hstop : Misses p rest)
    (hne : ∀ b ∈ bs, print b ≠ [])
    (h : ∀ b behind, b :: behind <:+ bs → Reads p (print b) (behind.flatMap print ++ rest) (v · = w b)) :
    Reads (Parser.many p) (bs.flatMap print) rest (·.map v = bs.map w) := by
  have hfrom : ∀ fuel, (bs.flatMap print ++ rest).length ≤ fuel →
      Reads (manyFrom p fuel) (bs.flatMap print) rest (·.map v = bs.map w) := by
    induction bs with
    | nil => exact fun fuel _ => (manyFrom_nil hstop fuel).mono fun as has => by rw [has]; rfl
    | cons b bs ih =>
      intro fuel hfuel
      rw [flatMap_cons, append_assoc, length_append] at hfuel
      have hpos := length_pos_iff.mpr (hne b mem_cons_self)
      obtain ⟨fuel, rfl⟩ : ∃ n, fuel = n + 1 := ⟨fuel - 1, by omega⟩
      refine manyFrom_cons (h b bs (suffix_refl _)) (ih (fun b hb => hne b (mem_cons_of_mem _ hb))
        (fun b behind hb => h b behind (hb.trans (suffix_cons _ _))) fuel (by omega)) fun a as ha has => ?_
      rw [map_cons, ha, has, map_cons]
  exact fun c hc => hfrom _ (by rw [hc]) c hc

end Reads

theorem oneOf_cons (p : Parser α) {ps : List (Parser α)} (h : ps ≠ []) :
    Parser.oneOf (p :: ps) = Parser.orElse p (Parser.oneOf ps) := by
  cases ps with
  | nil => exact absurd rfl h
  | cons q ps => rfl

namespace Misses

theorem bind (h : Misses p text) : Misses (p >>= f) text := by
  intro c hc
  obtain ⟨place, hmiss⟩ := h c hc
  refine ⟨place, ?_⟩
  change Parser.bind p f c = _
  rw [Parser.bind, hmiss]

theorem after (hp : Reads p text rest P) (hf : ∀ a, P a → Misses (f a) rest) : Misses (p >>= f) (text ++ rest) := by
  intro c hc
  obtain ⟨a, c', hok, hrest, ha⟩ := hp c hc
  obtain ⟨place, hmiss⟩ := hf a ha c' hrest
  refine ⟨place, ?_⟩
  change Parser.bind p f c = _
  rw [Parser.bind, hok]
  exact hmiss

theorem orElse (hp : Misses p text) (hq : Misses q text) : Misses (Parser.orElse p q) text := by
  intro c hc
  obtain ⟨place, hmiss⟩ := hp c hc
  obtain ⟨place', hmiss'⟩ := hq c hc
  exact ⟨place', by rw [Parser.orElse, hmiss]; exact hmiss'⟩

theorem oneOf {ps : List (Parser α)} (h : ∀ p ∈ ps, Misses p text) : Misses (Parser.oneOf ps) text := by
  induction ps with
  | nil => exact fun c _ => ⟨c, rfl⟩
  | cons p ps ih =>
    cases ps with
    | nil => exact h p (by simp)
    | cons q ps => exact (h p (by simp)).orElse (ih fun r hr => h r (mem_cons_of_mem _ hr))

theorem filterMap {g : α → Option β} (h : Misses p text) : Misses (Parser.filterMap p g) text := by
  intro c hc
  obtain ⟨place, hmiss⟩ := h c hc
  exact ⟨place, by rw [Parser.filterMap, hmiss]⟩

theorem tag {start text : List Char} (h : Text.after? start text = none) : Misses (Parser.tag start) text := by
  intro c hc
  exact ⟨c, by rw [Parser.tag, hc, h]⟩

theorem tag_of_ne {mark ch : Char} {marks text : List Char} (h : ch ≠ mark) :
    Misses (Parser.tag (mark :: marks)) (ch :: text) :=
  .tag (if_neg fun heq => h heq.symm)

theorem satisfy {p : Char → Bool} (h : ∀ ch ∈ text.head?, p ch = false) : Misses (Parser.satisfy p) text := by
  intro c hc
  refine ⟨c, ?_⟩
  cases text with
  | nil => simp [Parser.satisfy, hc]
  | cons ch text => simp [Parser.satisfy, hc, h ch rfl]

theorem takeWhile1 {p : Char → Bool} (h : ∀ ch ∈ text.head?, p ch = false) : Misses (Parser.takeWhile1 p) text := by
  intro c hc
  refine ⟨c, ?_⟩
  cases text with
  | nil => simp [Parser.takeWhile1, hc]
  | cons ch text => simp [Parser.takeWhile1, hc, h ch rfl]

theorem notNext {p : Char → Bool} {ch : Char} (h : p ch = true) : Misses (Parser.notNext p) (ch :: text) := by
  intro c hc
  exact ⟨c, by simp [Parser.notNext, hc, h]⟩

end Misses

end

end Parser

open ShaderCompose.Reader.Parser (Reads Misses)

/-! ## Between the words -/

def Gap (gap : List Char) : Prop := ∀ ch ∈ gap, ch = ' '

@[simp] theorem gap_nil : Gap [] := forall_mem_nil _

@[simp] theorem gap_space : Gap [' '] := forall_mem_singleton.mpr rfl

def isAtWord : List Char → Bool
  | '#' :: _ | '/' :: '/' :: _ | '/' :: '*' :: _ => false
  | ch :: _ => !isSpace ch
  | [] => true

def endsWord (text : List Char) : Bool := text.head?.all fun ch => !isIdentChar ch

theorem endsWord_iff {text : List Char} : endsWord text = true ↔ ∀ ch ∈ text.head?, isIdentChar ch = false := by
  cases text <;> simp [endsWord]

theorem isAtWord_cons {ch : Char} (hspace : isSpace ch = false) (hhash : ch ≠ '#') (hslash : ch ≠ '/')
    (text : List Char) : isAtWord (ch :: text) = true := by
  unfold isAtWord
  split <;> simp_all

variable {gap rest : List Char}

theorem takeWhile_isSpace (hgap : Gap gap) (h : isAtWord rest = true) :
    (gap ++ rest).takeWhile isSpace = gap := by
  have hnone : rest.takeWhile isSpace = [] := by
    unfold isAtWord at h
    split at h
    · cases h
    · cases h
    · cases h
    · exact takeWhile_cons_of_neg (by simpa using h)
    · rfl
  have hspace : ∀ ch ∈ gap, isSpace ch = true := by
    intro ch hch
    rw [hgap ch hch]
    rfl
  rw [takeWhile_append_of_pos hspace, hnone, append_nil]

theorem reads_skip (hgap : Gap gap) (h : isAtWord rest = true) :
    Reads skip gap rest fun _ => True := by
  intro c hc
  have hrest : (c.drop gap.length).rest = rest := by rw [Cursor.rest_drop, hc, drop_left]
  refine ⟨(), c.drop gap.length, ?_, hrest, trivial⟩
  unfold skip skipFrom
  simp only [hc, takeWhile_isSpace hgap h]
  generalize c.drop gap.length = d at hrest ⊢
  subst hrest
  unfold isAtWord at h
  split <;> simp_all

theorem reads_located (hgap : Gap gap) (h : isAtWord rest = true) :
    Reads located gap rest fun _ => True :=
  (reads_skip hgap h).last fun _ _ c hc => ⟨c.span, c, rfl, hc, trivial⟩

section

variable {gap rest : List Char}

theorem reads_symbol {text : String} (hgap : Gap gap) (h : isAtWord (text.toList ++ rest) = true) :
    Reads (symbol text) (gap ++ text.toList) rest fun _ => True :=
  (reads_skip hgap h).bind fun _ _ => .tag _ _

theorem misses_symbol {text : String} (hgap : Gap gap) (h : isAtWord rest = true)
    (hother : Text.after? text.toList rest = none) : Misses (symbol text) (gap ++ rest) :=
  .after (reads_skip hgap h) fun _ _ => .tag hother

variable {ch : Char} {text : List Char}

theorem misses_mark {mark : String} (h : isAtWord (ch :: text) = true)
    (hother : Text.after? mark.toList (ch :: text) = none) : Misses (symbol mark) (ch :: text) :=
  misses_symbol gap_nil h hother

def isName (name : String) : Bool :=
  (match name.toList with
    | [] => false
    | ch :: chs => isIdentStart ch && chs.all isIdentChar) && !keywords.contains name

theorem isIdentChar_of_isIdentStart (h : isIdentStart ch = true) : isIdentChar ch = true := by
  unfold isIdentChar
  rcases Bool.or_eq_true_iff.mp h with h | h <;> simp [h]

variable {name : String}

theorem isName_iff : isName name = true ↔ ∃ ch chs, name.toList = ch :: chs ∧ isIdentStart ch = true ∧
      (∀ x ∈ chs, isIdentChar x = true) ∧ name ∉ keywords := by
  unfold isName
  cases name.toList with
  | nil => simp
  | cons ch chs => simp [and_assoc]

theorem isAtWord_of_isIdentStart (h : isIdentStart ch = true) (text : List Char) :
    isAtWord (ch :: text) = true := by
  refine isAtWord_cons ?_ ?_ ?_ text
  · by_contra hspace
    simp only [isSpace, Bool.not_eq_false, Bool.or_eq_true, beq_iff_eq] at hspace
    rcases hspace with ((rfl | rfl) | rfl) | rfl <;> exact absurd h (by decide)
  · rintro rfl
    exact absurd h (by decide)
  · rintro rfl
    exact absurd h (by decide)

theorem reads_word {chs : List Char} (hch : isIdentStart ch = true)
    (hchs : ∀ x ∈ chs, isIdentChar x = true) (hrest : endsWord rest = true) :
    Reads word (ch :: chs) rest (· = ch :: chs) := by
  refine (Reads.satisfy hch).cons fun a ha => ?_
  refine (Reads.takeWhile hchs (endsWord_iff.mp hrest)).last fun b hb => ?_
  exact .pure (by rw [ha, hb])

theorem reads_identifier (hname : isName name = true) (hgap : Gap gap)
    (hrest : endsWord rest = true) : Reads identifier (gap ++ name.toList) rest (· = name) := by
  obtain ⟨ch, chs, htext, hch, hchs, hkeyword⟩ := isName_iff.mp hname
  have hofList : String.ofList (ch :: chs) = name := by rw [← htext, String.ofList_toList]
  rw [htext]
  refine (reads_skip hgap (isAtWord_of_isIdentStart hch _)).bind fun _ _ => ?_
  refine (reads_word hch hchs hrest).filterMap fun w hw => ?_
  refine ⟨name, ?_, rfl⟩
  rw [hw, hofList]
  simp [hkeyword]

theorem misses_identifier (hgap : Gap gap) (h : isAtWord (ch :: text) = true)
    (hother : isIdentStart ch = false) : Misses identifier (gap ++ ch :: text) :=
  .after (reads_skip hgap h) fun _ _ => .filterMap (.bind (.satisfy (by simpa using hother)))

theorem reads_wholeWord {text : String} (hrest : endsWord rest = true) :
    Reads (wholeWord text) text.toList rest fun _ => True :=
  (Reads.tag text.toList rest).last fun _ _ => .notNext (endsWord_iff.mp hrest)

theorem after?_word {word name rest after : List Char} (hname : ∀ x ∈ name, isIdentChar x = true)
    (hrest : endsWord rest = true) (hword : ∀ x ∈ word, isIdentChar x = true)
    (h : Text.after? word (name ++ rest) = some after) : name = word ∨ endsWord after = false := by
  induction word generalizing name with
  | nil =>
    cases name with
    | nil => exact .inl rfl
    | cons x name =>
      cases h
      exact .inr (by simp [endsWord, hname x (by simp)])
  | cons w word ih =>
    cases name with
    | nil =>
      cases rest with
      | nil => cases h
      | cons x rest =>
        simp only [nil_append, Text.after?] at h
        split at h
        · next hw =>
          have hx := endsWord_iff.mp hrest x rfl
          rw [← hw, hword w (by simp)] at hx
          cases hx
        · cases h
    | cons x name =>
      simp only [cons_append, Text.after?] at h
      split at h
      · next hw =>
        have hmore := ih (fun y hy => hname y (mem_cons_of_mem _ hy)) (fun y hy => hword y (mem_cons_of_mem _ hy)) h
        exact hmore.imp_left fun hsame => by rw [hsame, hw]
      · cases h

theorem misses_wholeWord {text : String} {name : List Char} (hname : ∀ x ∈ name, isIdentChar x = true)
    (hrest : endsWord rest = true) (htext : ∀ x ∈ text.toList, isIdentChar x = true)
    (hne : name ≠ text.toList) : Misses (wholeWord text) (name ++ rest) := by
  cases hafter : Text.after? text.toList (name ++ rest) with
  | none => exact .bind (.tag hafter)
  | some after =>
    have hends := (after?_word hname hrest htext hafter).resolve_left hne
    rw [Text.eq_append_of_after? hafter]
    refine .after (.tag _ _) fun _ _ => ?_
    cases after with
    | nil => cases hends
    | cons x after => exact .notNext (by simpa [endsWord] using hends)

theorem other_of_endsWord (hrest : endsWord rest = true) {p : Char → Bool}
    (hp : ∀ ch, p ch = true → isIdentChar ch = true) : ∀ ch ∈ rest.head?, p ch = false := by
  intro ch hch
  by_contra hmark
  have hident := hp ch (by simpa using hmark)
  rw [endsWord_iff.mp hrest ch hch] at hident
  cases hident

theorem isIdentChar_of_isDigit (h : Text.isDigit ch = true) : isIdentChar ch = true := by
  simp [isIdentChar, h]

def Numeral.ofDigits (digits : List Char) : Numeral := ⟨false, digits, false, [], none⟩

section

variable {digits : List Char} (hdigits : ∀ ch ∈ digits, Text.isDigit ch = true) (hne : digits ≠ [])
  (hrest : endsWord rest = true)

include hdigits hne in
theorem other_of_digits {p : Char → Bool} (hp : ∀ ch, p ch = true → Text.isDigit ch = false) :
    ∀ ch ∈ (digits ++ rest).head?, p ch = false := by
  obtain ⟨d, ds, rfl⟩ := exists_cons_of_ne_nil hne
  intro ch hch
  cases hch
  by_contra hmark
  have hdigit := hp d (by simpa using hmark)
  rw [hdigits d (by simp)] at hdigit
  cases hdigit

include hdigits hne hrest

theorem misses_hexNumber : Misses hexNumber (digits ++ rest) := by
  obtain ⟨d, ds, rfl⟩ := exists_cons_of_ne_nil hne
  refine .filterMap ?_
  by_cases hzero : d = '0'
  · subst hzero
    change Misses _ (['0'] ++ (ds ++ rest))
    refine .after (.tag _ _) fun _ _ => .bind (.satisfy ?_)
    by_cases hds : ds = []
    · subst hds
      refine other_of_endsWord hrest fun ch hch => ?_
      simp only [Bool.or_eq_true, beq_iff_eq] at hch
      rcases hch with rfl | rfl <;> decide
    · refine other_of_digits (fun ch hch => hdigits ch (mem_cons_of_mem _ hch)) hds fun ch hch => ?_
      simp only [Bool.or_eq_true, beq_iff_eq] at hch
      rcases hch with rfl | rfl <;> decide
  · exact .bind (.tag_of_ne hzero)

theorem reads_numeral (hpoint : rest.head? ≠ some '.') : Reads numeral digits rest (· = .ofDigits digits) := by
  have hsign : Misses sign (digits ++ rest) := by
    refine .bind (.satisfy (other_of_digits hdigits hne fun ch hch => ?_))
    simp only [Bool.or_eq_true, beq_iff_eq] at hch
    rcases hch with rfl | rfl <;> decide
  have hpart : Misses (Parser.tag ['.']) rest := by
    cases rest with
    | nil => exact .tag rfl
    | cons ch rest => exact .tag_of_ne fun h => hpoint (congrArg some h)
  have hparts : Reads numeralDigits digits rest (· = (digits, false, [])) := by
    have hstop := other_of_endsWord hrest fun ch => isIdentChar_of_isDigit
    refine .orElse ((Reads.takeWhile1 hne hdigits hstop).last fun whole hwhole => ?_)
    refine (Reads.optional_of_misses hpart).first fun point hpoint => ?_
    subst hpoint hwhole
    exact .pure rfl
  have hexponent : Misses numeralExponent rest := by
    refine .bind (.satisfy (other_of_endsWord hrest fun ch hch => ?_))
    simp only [Bool.or_eq_true, beq_iff_eq] at hch
    rcases hch with rfl | rfl <;> decide
  refine (Reads.optional_of_misses hsign).first fun negative hnegative => ?_
  refine hparts.last fun parts hparts => ?_
  refine (Reads.optional_of_misses hexponent).last fun exponent hexponent => ?_
  subst hnegative hparts hexponent
  exact .pure rfl

theorem reads_number (hpoint : rest.head? ≠ some '.') {n : Int}
    (hn : Text.asInt64 (Text.ofDigits 10 digits) = some n) : Reads number digits rest (· = .int n) := by
  have hsuffix : Misses (Parser.satisfy fun ch => "fFhHuUlL".toList.contains ch) rest := by
    refine .satisfy (other_of_endsWord hrest fun ch hch => ?_)
    have hletters : ∀ x ∈ "fFhHuUlL".toList, isIdentChar x = true := all_eq_true.mp rfl
    exact hletters ch (by simpa using hch)
  refine .orElse_of_misses (misses_hexNumber hdigits hne hrest) ?_
  refine Reads.filterMap (P := (· = (Numeral.ofDigits digits, none)))
    ((reads_numeral hdigits hne hrest hpoint).last fun value hvalue => ?_) ?_
  · refine (Reads.optional_of_misses hsuffix).last fun suffix hsuffix => ?_
    refine (Reads.notNext (endsWord_iff.mp hrest)).last fun _ _ => ?_
    subst hvalue hsuffix
    exact .pure rfl
  · rintro _ rfl
    refine ⟨.int n, ?_, rfl⟩
    simp [Numeral.literal?, Numeral.isReal, Numeral.toInt?, Numeral.ofDigits, hn]

end

theorem reads_stringLiteral (h : '"' ∉ text) :
    Reads stringLiteral ('"' :: (text ++ ['"'])) rest (· = String.ofList text) := by
  refine .cons (.tag _ _) fun _ _ => ?_
  refine Reads.bind (P := (· = text)) (.takeWhile (fun ch hch => ?_) fun ch hch => ?_) fun a ha => ?_
  · exact bne_iff_ne.mpr fun heq => h (heq ▸ hch)
  · cases hch
    rfl
  · subst ha
    exact (Reads.tag ['"'] rest).last fun _ _ => .pure rfl

def startsNoLiteral (ch : Char) : Bool :=
  !(Text.isDigit ch || ch == '+' || ch == '-' || ch == '.' || ch == '"')

theorem isDigit_of_isIdentStart (h : isIdentStart ch = true) : Text.isDigit ch = false := by
  simp only [isIdentStart, Text.isAsciiLetter, Bool.or_eq_true, Bool.and_eq_true, decide_eq_true_eq,
    beq_iff_eq] at h
  simp only [Text.isDigit, Bool.and_eq_false_iff, decide_eq_false_iff_not]
  rcases h with (⟨hlow, -⟩ | ⟨hlow, -⟩) | rfl
  · change 97 ≤ ch.val.toNat at hlow
    exact .inr fun hhigh : ch.val.toNat ≤ 57 => by omega
  · change 65 ≤ ch.val.toNat at hlow
    exact .inr fun hhigh : ch.val.toNat ≤ 57 => by omega
  · decide

theorem startsNoLiteral_of_isIdentStart (h : isIdentStart ch = true) : startsNoLiteral ch = true := by
  have hother : ∀ x, isIdentStart x = false → ch ≠ x := by
    rintro x hx rfl
    rw [h] at hx
    cases hx
  simp [startsNoLiteral, isDigit_of_isIdentStart h, hother '+' (by decide), hother '-' (by decide), hother '.' (by decide),
    hother '"' (by decide)]

theorem misses_number (h : startsNoLiteral ch = true) :
    Misses number (ch :: text) := by
  have hch : Text.isDigit ch = false ∧ ch ≠ '+' ∧ ch ≠ '-' ∧ ch ≠ '.' := by
    simp only [startsNoLiteral, Bool.not_eq_true', Bool.or_eq_false_iff, beq_eq_false_iff_ne] at h
    exact ⟨h.1.1.1.1, h.1.1.1.2, h.1.1.2, h.1.2⟩
  obtain ⟨hdigit, hplus, hminus, hpoint⟩ := hch
  have hzero : ch ≠ '0' := by
    rintro rfl
    exact absurd hdigit (by decide)
  have hhex : Misses hexNumber (ch :: text) := .filterMap (.bind (.tag_of_ne hzero))
  have hsign : Misses sign (ch :: text) := by
    refine .bind (.satisfy fun x hx => ?_)
    cases hx
    simp [hplus, hminus]
  have hdigits : Misses numeralDigits (ch :: text) := by
    refine .orElse (.bind (.takeWhile1 fun x hx => ?_)) (.bind (.tag_of_ne hpoint))
    cases hx
    exact hdigit
  refine .orElse hhex (.filterMap (.bind ?_))
  exact .after (.optional_of_misses hsign) fun _ _ => .bind hdigits

theorem misses_stringLiteral (h : ch ≠ '"') : Misses stringLiteral (ch :: text) :=
  .bind (.tag_of_ne h)

/-! ## Literals after a gap -/

theorem isIdentChar_bool (b : Bool) : ∀ x ∈ (cond b "true" "false").toList, isIdentChar x = true := by
  cases b <;> exact all_eq_true.mp rfl

theorem misses_bool (b : Bool) (h : ch ≠ 't' ∧ ch ≠ 'f') :
    Misses (wholeWord (cond b "true" "false")) (ch :: text) := by
  cases b
  · exact .bind (.tag_of_ne h.2)
  · exact .bind (.tag_of_ne h.1)

theorem reads_literal_bool (b : Bool) (hgap : Gap gap) (hrest : endsWord rest = true) :
    Reads literal (gap ++ (cond b "true" "false").toList) rest (· = .bool b) := by
  refine (reads_skip hgap (by cases b <;> rfl)).bind fun _ _ => ?_
  cases b with
  | true => exact .orElse ((reads_wholeWord hrest).last fun _ _ => .pure rfl)
  | false =>
    refine .orElse_of_misses (.bind ?_) (.orElse ((reads_wholeWord hrest).last fun _ _ => .pure rfl))
    exact misses_wholeWord (isIdentChar_bool false) hrest (isIdentChar_bool true) (by decide)

theorem reads_literal_int {digits : List Char} (hdigits : ∀ ch ∈ digits, Text.isDigit ch = true)
    (hne : digits ≠ []) (hgap : Gap gap) (hrest : endsWord rest = true) (hpoint : rest.head? ≠ some '.') {n : Int}
    (hn : Text.asInt64 (Text.ofDigits 10 digits) = some n) :
    Reads literal (gap ++ digits) rest (· = .int n) := by
  have hnumber := reads_number hdigits hne hrest hpoint hn
  obtain ⟨d, ds, rfl⟩ := exists_cons_of_ne_nil hne
  have hother : ∀ ch, Text.isDigit ch = false → d ≠ ch := by
    rintro ch hch rfl
    rw [hdigits d (by simp)] at hch
    cases hch
  have hletters : d ≠ 't' ∧ d ≠ 'f' := ⟨hother _ (by decide), hother _ (by decide)⟩
  have hword : isAtWord (d :: (ds ++ rest)) = true := by
    refine isAtWord_cons ?_ (hother _ (by decide)) (hother _ (by decide)) _
    simp [isSpace, hother ' ' (by decide), hother '\t' (by decide), hother '\r' (by decide), hother '\n' (by decide)]
  refine (reads_skip hgap hword).bind fun _ _ => ?_
  refine .orElse_of_misses (.bind (misses_bool true hletters)) ?_
  refine .orElse_of_misses (.bind (misses_bool false hletters)) ?_
  exact .orElse_of_misses (.bind (misses_stringLiteral (hother _ (by decide)))) hnumber

theorem reads_literal_string (h : '"' ∉ text) (hgap : Gap gap) :
    Reads literal (gap ++ '"' :: (text ++ ['"'])) rest (· = .string (String.ofList text)) := by
  refine (reads_skip hgap rfl).bind fun _ _ => ?_
  refine .orElse_of_misses (.bind (misses_bool true (by decide))) ?_
  refine .orElse_of_misses (.bind (misses_bool false (by decide))) ?_
  exact .orElse ((reads_stringLiteral h).last fun a ha => .pure (by rw [ha]))

theorem misses_literal (hgap : Gap gap) (hword : isAtWord (ch :: text) = true)
    (hstart : ch ≠ 't' ∧ ch ≠ 'f') (h : startsNoLiteral ch = true) :
    Misses literal (gap ++ ch :: text) := by
  have hquote : ch ≠ '"' := by
    rintro rfl
    exact absurd h (by decide)
  refine .after (reads_skip hgap hword) fun _ _ => .orElse (.bind (misses_bool true hstart)) ?_
  exact .orElse (.bind (misses_bool false hstart)) (.orElse (.bind (misses_stringLiteral hquote)) (misses_number h))

theorem misses_literal_name (hname : isName name = true) (hgap : Gap gap)
    (hrest : endsWord rest = true) : Misses literal (gap ++ (name.toList ++ rest)) := by
  obtain ⟨ch, chs, htext, hch, hchs, hkeyword⟩ := isName_iff.mp hname
  have hchars : ∀ x ∈ name.toList, isIdentChar x = true := by
    rw [htext]
    exact forall_mem_cons.mpr ⟨isIdentChar_of_isIdentStart hch, hchs⟩
  have hword : ∀ b, Misses (wholeWord (cond b "true" "false")) (name.toList ++ rest) := by
    intro b
    refine misses_wholeWord hchars hrest (isIdentChar_bool b) fun hsame => hkeyword ?_
    rw [String.toList_inj.mp hsame]
    cases b <;> decide
  have hquote : ch ≠ '"' := by
    rintro rfl
    exact absurd hch (by decide)
  have hskip : isAtWord (name.toList ++ rest) = true := by
    rw [htext]
    exact isAtWord_of_isIdentStart hch _
  refine .after (reads_skip hgap hskip) fun _ _ => ?_
  refine .orElse (.bind (hword true)) (.orElse (.bind (hword false)) ?_)
  rw [htext]
  exact .orElse (.bind (misses_stringLiteral hquote)) (misses_number (startsNoLiteral_of_isIdentStart hch))

end

end ShaderCompose.Reader
