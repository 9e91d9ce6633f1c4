import ShaderCompose.Preprocess.Directives
import ShaderCompose.Proofs.Lang.Constants
import ShaderCompose.Proofs.Reader.Reads

/-!
Conditions as they are written.
-/

namespace ShaderCompose.Preprocess

open List

/-! ## What is written -/

def Gaps (g : List Char) : Prop := ∀ ch ∈ g, isGap ch = true

def IsWord : List Char → Prop
  | [] => False
  | ch :: w => isWordStart ch = true ∧ ∀ x ∈ w, isWordChar x = true

inductive Rank where
  | atom
  | comparison
  | conjunction
  | disjunction

/-- A condition of a rank is written as a text. -/
inductive Spelled : Rank → Condition → List Char → Prop
  | number {digits : List Char} : digits ≠ [] → (∀ ch ∈ digits, Text.isDigit ch = true) →
      Text.ofDigits 10 digits < 9223372036854775808 → Spelled .atom (.number (Text.ofDigits 10 digits)) digits
  | value {w : List Char} : IsWord w → ¬"defined".toList <+: w → Spelled .atom (.value (String.ofList w)) w
  | defined {g w : List Char} : Gaps g → IsWord w →
      Spelled .atom (.defined (String.ofList w)) ("defined".toList ++ (g ++ w))
  | definedIn {g g' g'' w : List Char} : Gaps g → Gaps g' → Gaps g'' → IsWord w →
      Spelled .atom (.defined (String.ofList w)) ("defined".toList ++ (g ++ '(' :: (g' ++ (w ++ (g'' ++ [')'])))))
  | not {g t : List Char} {c : Condition} : Gaps g → Spelled .atom c t → Spelled .atom (.not c) ('!' :: (g ++ t))
  | neg {g t : List Char} {c : Condition} : Gaps g → Spelled .atom c t → Spelled .atom (.neg c) ('-' :: (g ++ t))
  | group {g g' t : List Char} {c : Condition} : Gaps g → Gaps g' → Spelled .disjunction c t →
      Spelled .atom c ('(' :: (g ++ (t ++ (g' ++ [')']))))
  | compare {g g' t u : List Char} {op : Compare} {a b : Condition} : Gaps g → Gaps g' → Spelled .atom a t →
      Spelled .atom b u → Spelled .comparison (.compare op a b) (t ++ (g ++ (op.text ++ (g' ++ u))))
  | and {g g' t u : List Char} {a b : Condition} : Gaps g → Gaps g' → Spelled .conjunction a t →
      Spelled .conjunction b u → Spelled .conjunction (.and a b) (t ++ (g ++ (['&', '&'] ++ (g' ++ u))))
  | or {g g' t u : List Char} {a b : Condition} : Gaps g → Gaps g' → Spelled .disjunction a t →
      Spelled .disjunction b u → Spelled .disjunction (.or a b) (t ++ (g ++ (['|', '|'] ++ (g' ++ u))))
  | ofAtom {c : Condition} {t : List Char} : Spelled .atom c t → Spelled .comparison c t
  | ofComparison {c : Condition} {t : List Char} : Spelled .comparison c t → Spelled .conjunction c t
  | ofConjunction {c : Condition} {t : List Char} : Spelled .conjunction c t → Spelled .disjunction c t

/-! ## Values in words -/

def Compare.relates : Compare → Int64 → Int64 → Bool
  | eq, a, b => a = b
  | ne, a, b => a ≠ b
  | le, a, b => a ≤ b
  | ge, a, b => b ≤ a
  | lt, a, b => a < b
  | gt, a, b => b < a

def Condition.word (ds : Defines) : Condition → Int64
  | number n => .ofInt n
  | defined name => if ds.has name then 1 else 0
  | value name => .ofInt (ds.value name)
  | not c => if c.word ds = 0 then 1 else 0
  | neg c => -c.word ds
  | compare op a b => if op.relates (a.word ds) (b.word ds) then 1 else 0
  | and a b => if a.word ds ≠ 0 ∧ b.word ds ≠ 0 then 1 else 0
  | or a b => if a.word ds ≠ 0 ∨ b.word ds ≠ 0 then 1 else 0

theorem Defines.fitsInt64_value (ds : Defines) (name : String) : Text.fitsInt64 (ds.value name) = true := by
  have hread : ∀ cs n, Text.readInt64 cs = some n → Text.fitsInt64 n = true := by
    intro cs n h
    rw [Text.readInt64.eq_def] at h
    split at h <;>
    · obtain ⟨m, -, h⟩ := Option.bind_eq_some_iff.mp h
      obtain ⟨rfl, hfits⟩ := Text.asInt64_eq_some_iff.mp h
      exact hfits
  rw [Defines.value]
  cases h : (ds.lookup name).bind fun text => Text.readInt64 (Text.trim text.toList) with
  | none => rfl
  | some n =>
    obtain ⟨text, -, hn⟩ := Option.bind_eq_some_iff.mp h
    exact hread _ n hn

def Stands (w : Int64) (n : Int) : Prop := w.toInt = n ∧ n ≠ -9223372036854775808

theorem stands_truth {p : Prop} [Decidable p] {b : Bool} (h : p ↔ b = true) : Stands (if p then 1 else 0) (truth b) := by
  cases b with
  | false =>
    rw [if_neg (by simp [h])]
    exact ⟨rfl, by decide⟩
  | true =>
    rw [if_pos (h.mpr rfl)]
    exact ⟨rfl, by decide⟩

theorem Stands.eq_zero_iff {w : Int64} {n : Int} (h : Stands w n) : w = 0 ↔ n = 0 := by
  rw [← Int64.toInt_inj, h.1]
  rfl

theorem Stands.neg {w : Int64} {n : Int} (h : Stands w n) : Stands (-w) (-Int64.ofInt n).toInt := by
  obtain ⟨rfl, hleast⟩ := h
  have hlow := w.le_toInt
  have hhigh := w.toInt_lt
  rw [Int64.ofInt_toInt]
  refine ⟨rfl, ?_⟩
  rw [Int64.toInt_neg, Int.bmod_eq_of_le] <;> omega

theorem Compare.relates_iff {v w : Int64} {m n : Int} (op : Compare) (hv : Stands v m) (hw : Stands w n) :
    op.relates v w = true ↔ op.holds m n = true := by
  obtain ⟨rfl, -⟩ := hv
  obtain ⟨rfl, -⟩ := hw
  cases op <;> simp [relates, holds, Int64.toInt_inj, Int64.le_iff_toInt_le, Int64.lt_iff_toInt_lt]

theorem Spelled.stands {rank : Rank} {c : Condition} {t : List Char} {ds : Defines}
    (hds : ∀ name, ds.value name ≠ -9223372036854775808) (h : Spelled rank c t) : Stands (c.word ds) (c.eval ds) := by
  induction h with
  | number _ _ hn => exact ⟨Int64.toInt_ofInt_of_le (by omega) (by omega), by simp only [Condition.eval]; omega⟩
  | @value w _ _ =>
    have hfits := fitsInt64_iff.mp (ds.fitsInt64_value (String.ofList w))
    exact ⟨Int64.toInt_ofInt_of_le (by omega) (by omega), hds _⟩
  | defined _ _ => exact stands_truth Iff.rfl
  | definedIn _ _ _ _ => exact stands_truth Iff.rfl
  | not _ _ ih => exact stands_truth (by simp [ih.eq_zero_iff])
  | neg _ _ ih => exact ih.neg
  | group _ _ _ ih => exact ih
  | compare _ _ _ _ iha ihb => exact stands_truth (Compare.relates_iff _ iha ihb)
  | and _ _ _ _ iha ihb => exact stands_truth (by simp [iha.eq_zero_iff, ihb.eq_zero_iff])
  | or _ _ _ _ iha ihb => exact stands_truth (by simp [iha.eq_zero_iff, ihb.eq_zero_iff])
  | ofAtom _ ih => exact ih
  | ofComparison _ ih => exact ih
  | ofConjunction _ ih => exact ih

/-! ## Reading what is written -/

section

variable {g t w r cs : List Char} {c d : Condition} {marks : List Char}

theorem skipGaps_append (hg : Gaps g) (hr : ∀ ch ∈ r.head?, isGap ch = false) : skipGaps (g ++ r) = r := by
  rw [skipGaps, dropWhile_append_of_pos hg]
  cases r with
  | nil => rfl
  | cons ch r => simp [hr ch rfl]

variable {ch : Char}

theorem skipGaps_cons (hg : Gaps g) (hch : isGap ch = false) : skipGaps (g ++ ch :: r) = ch :: r :=
  skipGaps_append hg fun _ heq => by cases heq; exact hch

theorem span_append {p : Char → Bool} (ht : ∀ ch ∈ t, p ch = true) (hr : ∀ ch ∈ r.head?, p ch = false) :
    (t ++ r).takeWhile p = t ∧ (t ++ r).dropWhile p = r := by
  rw [takeWhile_append_of_pos ht, dropWhile_append_of_pos ht]
  cases r with
  | nil => simp
  | cons ch r => simp [hr ch rfl]

def EndsWord (r : List Char) : Prop := ∀ ch ∈ r.head?, isWordChar ch = false

def EndsAt (marks r : List Char) : Prop := EndsWord r ∧ ∀ ch ∈ (skipGaps r).head?, ch ∈ marks

theorem isWordChar_of_isGap (h : isGap ch = true) : isWordChar ch = false := by
  simp only [isGap, Bool.or_eq_true, beq_iff_eq] at h
  rcases h with ((rfl | rfl) | rfl) | rfl <;> decide

theorem endsWord_append (hg : Gaps g) (hr : EndsWord r) : EndsWord (g ++ r) := by
  cases g with
  | nil => exact hr
  | cons x g =>
    rintro ch ⟨⟩
    exact isWordChar_of_isGap (hg x mem_cons_self)

theorem ends_append (hg : Gaps g) (hword : isWordChar ch = false) (hgap : isGap ch = false)
    (hch : ch ∈ marks) : EndsAt marks (g ++ ch :: r) := by
  constructor
  · exact endsWord_append hg fun _ heq => by cases heq; exact hword
  · rw [skipGaps_append hg fun _ heq => by cases heq; exact hgap]
    rintro _ ⟨⟩
    exact hch

def Gives (p : ConditionReader Condition) (c : Condition) (cs r : List Char) : Prop :=
  ∃ d, p cs = some (d, r) ∧ ∀ ds, d.eval ds = c.eval ds

def startsToken (ch : Char) : Bool := isWordChar ch || ch == '(' || ch == '!' || ch == '-'

theorem isGap_of_startsToken (h : startsToken ch = true) : isGap ch = false := by
  by_contra hgap
  simp only [isGap, Bool.not_eq_false, Bool.or_eq_true, beq_iff_eq] at hgap
  rcases hgap with ((rfl | rfl) | rfl) | rfl <;> exact absurd h (by decide)

theorem IsWord.head (h : IsWord w) : ∃ ch w', w = ch :: w' ∧ isWordStart ch = true := by
  cases w with
  | nil => cases h
  | cons ch w => exact ⟨ch, w, rfl, h.1⟩

theorem startsToken_of_isWordChar (h : isWordChar ch = true) : startsToken ch = true := by
  simp [startsToken, h]

theorem Spelled.head {rank : Rank} (h : Spelled rank c t) : ∃ ch t', t = ch :: t' ∧ startsToken ch = true := by
  induction h with
  | @number digits hne hdigits _ =>
    obtain ⟨ch, t', rfl⟩ := exists_cons_of_ne_nil hne
    exact ⟨ch, t', rfl, startsToken_of_isWordChar (by simp [isWordChar, hdigits ch mem_cons_self])⟩
  | value hw _ =>
    obtain ⟨ch, w', rfl, hch⟩ := hw.head
    exact ⟨ch, w', rfl, startsToken_of_isWordChar (Reader.isIdentChar_of_isIdentStart hch)⟩
  | defined _ _ => exact ⟨'d', _, rfl, rfl⟩
  | definedIn _ _ _ _ => exact ⟨'d', _, rfl, rfl⟩
  | not _ _ _ => exact ⟨'!', _, rfl, rfl⟩
  | neg _ _ _ => exact ⟨'-', _, rfl, rfl⟩
  | group _ _ _ _ => exact ⟨'(', _, rfl, rfl⟩
  | compare _ _ _ _ ih _ | and _ _ _ _ ih _ | or _ _ _ _ ih _ =>
    obtain ⟨ch, t', rfl, hch⟩ := ih
    exact ⟨ch, _, rfl, hch⟩
  | ofAtom _ ih | ofComparison _ ih | ofConjunction _ ih => exact ih

theorem skipGaps_word (hg : Gaps g) (hw : IsWord w) : skipGaps (g ++ (w ++ r)) = w ++ r := by
  obtain ⟨ch, w', rfl, hch⟩ := hw.head
  exact skipGaps_cons hg (isGap_of_startsToken (startsToken_of_isWordChar (Reader.isIdentChar_of_isIdentStart hch)))

theorem readWord_append (hw : IsWord w) (hr : EndsWord r) : readWord (w ++ r) = some (String.ofList w, r) := by
  cases w with
  | nil => cases hw
  | cons ch w =>
    obtain ⟨htake, hdrop⟩ := span_append hw.2 hr
    simp [readWord, hw.1, htake, hdrop]

theorem after?_word {start : List Char} (hstart : ∀ ch ∈ start, isWordChar ch = true) (h : ¬start <+: w)
    (hr : EndsWord r) : Text.after? start (w ++ r) = none := by
  induction start generalizing w with
  | nil => exact absurd nil_prefix h
  | cons s start ih =>
    cases w with
    | nil =>
      cases r with
      | nil => rfl
      | cons ch r =>
        refine if_neg ?_
        rintro rfl
        exact absurd (hstart s mem_cons_self) (by simp [hr s rfl])
    | cons ch w =>
      rw [cons_append, Text.after?]
      split
      · next heq =>
        subst heq
        exact ih (fun x hx => hstart x (mem_cons_of_mem _ hx)) fun hprefix => h (cons_prefix_cons.mpr ⟨rfl, hprefix⟩)
      · rfl

theorem readDefined_eq_none (h : Text.after? "defined".toList cs = none) : readDefined cs = none := by
  rw [readDefined, h]
  rfl

theorem readNumber_eq_none (h : ∀ ch ∈ cs.head?, Text.isDigit ch = false) : readNumber cs = none := by
  have hnone : cs.takeWhile Text.isDigit = [] := (span_append (t := []) nofun h).1
  rw [readNumber, hnone]
  rfl

theorem readDefined_mark (h : ch ≠ 'd') : readDefined (ch :: cs) = none := readDefined_eq_none (if_neg h.symm)

theorem readNumber_mark (h : Text.isDigit ch = false) : readNumber (ch :: cs) = none :=
  readNumber_eq_none fun _ heq => by cases heq; exact h

theorem readNumber_append {digits : List Char} (hne : digits ≠ []) (hdigits : ∀ ch ∈ digits, Text.isDigit ch = true)
    (hn : Text.ofDigits 10 digits < 9223372036854775808) (hr : EndsWord r) :
    readNumber (digits ++ r) = some (.number (Text.ofDigits 10 digits), r) := by
  have hnat : Text.readNat digits = some (Text.ofDigits 10 digits) := by
    simpa [Text.readNat, hne] using hdigits
  have hfits : Text.asInt64 (Text.ofDigits 10 digits) = some (Text.ofDigits 10 digits : Int) :=
    Text.asInt64_eq_some_iff.mpr ⟨rfl, fitsInt64_iff.mpr (by omega)⟩
  have hsign : ∀ sign rest, Text.isDigit sign = false → digits ≠ sign :: rest := by
    rintro sign rest hsign rfl
    simp [hdigits sign mem_cons_self] at hsign
  have hread : Text.readInt64 digits = some (Text.ofDigits 10 digits : Int) := by
    rw [Text.readInt64.eq_3 _ (fun rest => hsign '-' rest rfl) (fun rest => hsign '+' rest rfl), hnat, Option.bind_some, hfits]
  have hspan := span_append hdigits fun ch hch => by
    have := hr ch hch
    simp_all [isWordChar]
  rw [readNumber, hspan.1, hread, hspan.2]
  rfl

theorem readDefinedName_append (hw : IsWord w) (hr : EndsWord r) :
    readDefinedName (w ++ r) = some (String.ofList w, r) := by
  obtain ⟨ch, w', rfl, hch⟩ := hw.head
  rw [readDefinedName.eq_2, readWord_append hw hr]
  rintro inner heq
  cases heq
  exact absurd hch (by decide)

section

variable {nested : ConditionReader Condition} {fuel : Nat}

theorem readAtomFrom_append {rank : Rank} (h : Spelled rank c t) (hg : Gaps g) (r : List Char) :
    readAtomFrom nested (fuel + 1) (g ++ (t ++ r)) = (readDefined (t ++ r) <|> readNumber (t ++ r) <|>
      readGroup nested (t ++ r) <|>
      ((Text.after? ['!'] (t ++ r)).bind fun rest => (readAtomFrom nested fuel rest).map fun (c, rest) => (.not c, rest)) <|>
      ((Text.after? ['-'] (t ++ r)).bind fun rest => (readAtomFrom nested fuel rest).map fun (c, rest) => (.neg c, rest)) <|>
      (readWord (t ++ r)).map fun (name, rest) => (.value name, rest)) := by
  obtain ⟨ch, t', rfl, hch⟩ := h.head
  have hskip : skipGaps (g ++ (ch :: t' ++ r)) = ch :: t' ++ r :=
    skipGaps_append hg fun _ heq => by cases heq; exact isGap_of_startsToken hch
  simp only [readAtomFrom, hskip]

theorem readDefined_append (hcs : readDefinedName (skipGaps cs) = some (String.ofList w, r)) :
    readDefined ("defined".toList ++ cs) = some (.defined (String.ofList w), r) := by
  rw [readDefined, Text.after?_self, Option.bind_some, hcs]
  rfl

theorem alternatives_value (hr : EndsWord r) (hw : IsWord w) (hdefined : ¬"defined".toList <+: w) :
    readDefined (w ++ r) = none ∧ readNumber (w ++ r) = none ∧ readGroup nested (w ++ r) = none ∧
      Text.after? ['!'] (w ++ r) = none ∧ Text.after? ['-'] (w ++ r) = none := by
  have hword : ∀ ch ∈ "defined".toList, isWordChar ch = true := all_eq_true.mp rfl
  refine ⟨readDefined_eq_none (after?_word hword hdefined hr), ?_⟩
  obtain ⟨ch, w', rfl, hch⟩ := hw.head
  have hmark : ∀ mark, isWordStart mark = false → mark ≠ ch := by
    rintro mark hmark rfl
    simp [hch] at hmark
  refine ⟨readNumber_eq_none fun _ heq => ?_, ?_, if_neg (hmark '!' rfl), if_neg (hmark '-' rfl)⟩
  · cases heq
    exact Reader.isDigit_of_isIdentStart hch
  · rw [cons_append, readGroup.eq_2]
    rintro inner heq
    cases heq
    exact hmark '(' rfl rfl

end

theorem readCompare_append {op : Compare} (hg : Gaps g) (hcs : ∀ ch ∈ cs.head?, ch ≠ '=') :
    readCompare (g ++ (op.text ++ cs)) = some (op, cs) := by
  have hskip : skipGaps (g ++ (op.text ++ cs)) = op.text ++ cs := by
    refine skipGaps_append hg ?_
    cases op <;> simp [Compare.text, isGap]
  rw [readCompare, hskip]
  cases cs with
  | nil => cases op <;> rfl
  | cons ch cs => cases op <;> simp [Compare.all, Compare.text, Text.after?, (hcs ch rfl).symm]

theorem readCompare_eq_none (hr : ∀ ch ∈ (skipGaps r).head?, ch ∈ ['&', '|', ')']) : readCompare r = none := by
  rw [readCompare]
  cases h : skipGaps r with
  | nil => rfl
  | cons ch cs =>
    have hch := hr ch (by rw [h]; rfl)
    simp only [mem_cons, not_mem_nil, or_false] at hch
    rcases hch with rfl | rfl | rfl <;> rfl

/-! ### Joined parts -/

section

/-- An operator of two equal signs. -/
structure Junction (o : Char) (make : Condition → Condition → Condition) : Prop where
  gap : isGap o = false
  word : isWordChar o = false
  congr : ∀ {a a' b b' ds}, a.eval ds = a'.eval ds → b.eval ds = b'.eval ds → (make a b).eval ds = (make a' b').eval ds
  assoc : ∀ a b c ds, (make (make a b) c).eval ds = (make a (make b c)).eval ds

theorem truth_ne_zero (b : Bool) : (truth b != 0) = b := by cases b <;> rfl

theorem junction_and : Junction '&' .and :=
  ⟨rfl, rfl, by simp +contextual [Condition.eval], by simp [Condition.eval, truth_ne_zero, Bool.and_assoc]⟩

theorem junction_or : Junction '|' .or :=
  ⟨rfl, rfl, by simp +contextual [Condition.eval], by simp [Condition.eval, truth_ne_zero, Bool.or_assoc]⟩

variable {o : Char} {make : Condition → Condition → Condition} {part : ConditionReader Condition}

structure Joins (o : Char) (make : Condition → Condition → Condition) (part : ConditionReader Condition)
    (marks : List Char) (c : Condition) (t : List Char) : Prop where
  first : ∀ g r, Gaps g → EndsAt marks r → ∃ d fuel, r.length ≤ fuel ∧ (∀ ds, d.eval ds = c.eval ds) ∧
    readJoined [o, o] make part (g ++ (t ++ r)) = some (joinFrom [o, o] make part fuel d r)
  next : ∀ g g' r d fuel, Gaps g → Gaps g' → EndsAt marks r → (g ++ ([o, o] ++ (g' ++ (t ++ r)))).length ≤ fuel →
    ∃ d' fuel', r.length ≤ fuel' ∧ (∀ ds, d'.eval ds = (make d c).eval ds) ∧
      joinFrom [o, o] make part fuel d (g ++ ([o, o] ++ (g' ++ (t ++ r)))) = joinFrom [o, o] make part fuel' d' r

theorem Joins.single (hj : Junction o make) (h : ∀ g r, Gaps g → EndsAt marks r → Gives part c (g ++ (t ++ r)) r) :
    Joins o make part marks c t where
  first g r hg hr := by
    obtain ⟨d, hd, heval⟩ := h g r hg hr
    exact ⟨d, r.length, Nat.le_refl _, heval, by rw [readJoined, hd]; rfl⟩
  next g g' r d fuel hg hg' hr hfuel := by
    obtain ⟨e, he, heval⟩ := h g' r hg' hr
    obtain ⟨fuel, rfl⟩ : ∃ n, fuel = n + 1 := ⟨fuel - 1, by simp at hfuel; omega⟩
    refine ⟨make d e, fuel, ?_, fun ds => hj.congr rfl (heval ds), ?_⟩
    · simp at hfuel
      omega
    · have hskip : skipGaps (g ++ ([o, o] ++ (g' ++ (t ++ r)))) = [o, o] ++ (g' ++ (t ++ r)) :=
        skipGaps_append hg fun _ heq => by cases heq; exact hj.gap
      rw [joinFrom, hskip, Text.after?_self, Option.bind_some, he]

theorem Joins.join {a b : Condition} {u g₁ g₂ : List Char} (hj : Junction o make) (hmark : o ∈ marks)
    (ha : Joins o make part marks a t) (hb : Joins o make part marks b u) (hg₁ : Gaps g₁) (hg₂ : Gaps g₂) :
    Joins o make part marks (make a b) (t ++ (g₁ ++ ([o, o] ++ (g₂ ++ u)))) where
  first g r hg hr := by
    obtain ⟨d, fuel, hfuel, heval, hread⟩ := ha.first g (g₁ ++ ([o, o] ++ (g₂ ++ (u ++ r)))) hg (ends_append hg₁ hj.word hj.gap hmark)
    obtain ⟨d', fuel', hfuel', heval', hread'⟩ := hb.next g₁ g₂ r d fuel hg₁ hg₂ hr hfuel
    refine ⟨d', fuel', hfuel', fun ds => (heval' ds).trans (hj.congr (heval ds) rfl), ?_⟩
    rw [hread'] at hread
    simpa using hread
  next g g' r d fuel hg hg' hr hfuel := by
    obtain ⟨d₁, fuel₁, hfuel₁, heval₁, hread₁⟩ := ha.next g g' (g₁ ++ ([o, o] ++ (g₂ ++ (u ++ r)))) d fuel hg hg'
      (ends_append hg₁ hj.word hj.gap hmark) (by simpa using hfuel)
    obtain ⟨d₂, fuel₂, hfuel₂, heval₂, hread₂⟩ := hb.next g₁ g₂ r d₁ fuel₁ hg₁ hg₂ hr hfuel₁
    refine ⟨d₂, fuel₂, hfuel₂, fun ds => ?_, ?_⟩
    · rw [heval₂, ← hj.assoc]
      exact hj.congr (heval₁ ds) rfl
    · rw [hread₂] at hread₁
      simpa using hread₁

theorem Joins.gives (h : Joins o make part marks c t) (hg : Gaps g) (hr : EndsAt marks r)
    (hstop : ∀ ch ∈ (skipGaps r).head?, ch ≠ o) : Gives (readJoined [o, o] make part) c (g ++ (t ++ r)) r := by
  obtain ⟨d, fuel, -, heval, hread⟩ := h.first g r hg hr
  refine ⟨d, hread.trans ?_, heval⟩
  have hafter : Text.after? [o, o] (skipGaps r) = none := by
    cases hskip : skipGaps r with
    | nil => rfl
    | cons ch cs => exact if_neg fun heq => hstop ch (by rw [hskip]; rfl) heq.symm
  cases fuel with
  | zero => rfl
  | succ fuel => rw [joinFrom, hafter]; rfl

end

def ReadsAs : Rank → Condition → List Char → Prop
  | .atom, c, t => ∀ depth fuel g r, t.length ≤ depth → t.length ≤ fuel + 1 → Gaps g → EndsWord r →
      Gives (readAtomFrom (readConditionFrom depth) (fuel + 1)) c (g ++ (t ++ r)) r
  | .comparison, c, t => ∀ depth g r, t.length ≤ depth → Gaps g → EndsAt ['&', '|', ')'] r →
      Gives (readComparison (readConditionFrom depth)) c (g ++ (t ++ r)) r
  | .conjunction, c, t => ∀ depth, t.length ≤ depth →
      Joins '&' .and (readComparison (readConditionFrom depth)) ['&', '|', ')'] c t
  | .disjunction, c, t => ∀ depth, t.length ≤ depth →
      Joins '|' .or (readAnd (readConditionFrom depth)) ['|', ')'] c t

theorem ReadsAs.readAtom (h : ReadsAs .atom c t) (depth : Nat) (hdepth : t.length ≤ depth) (hg : Gaps g)
    (hr : EndsWord r) : Gives (readAtom (readConditionFrom depth)) c (g ++ (t ++ r)) r :=
  h depth _ g r hdepth (by simp; omega) hg hr

theorem EndsAt.mono {marks' : List Char} (h : EndsAt marks r) (hsub : marks ⊆ marks') : EndsAt marks' r :=
  ⟨h.1, fun ch hch => hsub (h.2 ch hch)⟩

theorem ReadsAs.nested (h : ReadsAs .disjunction c t) (depth : Nat) (hdepth : t.length ≤ depth) (hg : Gaps g)
    (hr : EndsAt [')'] r) : Gives (readConditionFrom (depth + 1)) c (g ++ (t ++ r)) r := by
  refine (h depth hdepth).gives hg (hr.mono (by simp)) fun ch hch => ?_
  rw [mem_singleton.mp (hr.2 ch hch)]
  decide

theorem Spelled.exists_succ {rank : Rank} (h : Spelled rank c t) (n : Nat) (hn : t.length ≤ n) : ∃ m, n = m + 1 := by
  obtain ⟨ch, t', rfl, -⟩ := h.head
  exact ⟨n - 1, by simp at hn; omega⟩

theorem Spelled.readsAs {rank : Rank} (h : Spelled rank c t) : ReadsAs rank c t := by
  induction h with
  | number hne hdigits hn =>
    intro depth fuel g r _ _ hg hr
    refine ⟨_, ?_, fun _ => rfl⟩
    rw [readAtomFrom_append (.number hne hdigits hn) hg, readNumber_append hne hdigits hn hr, readDefined_eq_none]
    · rfl
    · obtain ⟨ch, digits, rfl⟩ := exists_cons_of_ne_nil hne
      exact if_neg fun heq => absurd (hdigits ch mem_cons_self) (by rw [← heq]; decide)
  | value hw hdefined =>
    intro depth fuel g r _ _ hg hr
    obtain ⟨h₁, h₂, h₃, h₄, h₅⟩ := alternatives_value hr hw hdefined
    refine ⟨_, ?_, fun _ => rfl⟩
    rw [readAtomFrom_append (.value hw hdefined) hg, h₁, h₂, h₃, h₄, h₅, readWord_append hw hr]
    rfl
  | @defined g₁ w hg₁ hw =>
    intro depth fuel g r _ _ hg hr
    refine ⟨_, ?_, fun _ => rfl⟩
    have hread : readDefinedName (skipGaps (g₁ ++ (w ++ r))) = some (String.ofList w, r) := by
      rw [skipGaps_word hg₁ hw, readDefinedName_append hw hr]
    rw [readAtomFrom_append (.defined hg₁ hw) hg, append_assoc, append_assoc, readDefined_append hread]
    rfl
  | @definedIn g₁ g₂ g₃ w hg₁ hg₂ hg₃ hw =>
    intro depth fuel g r _ _ hg hr
    refine ⟨_, ?_, fun _ => rfl⟩
    have hclose : EndsWord (g₃ ++ ')' :: r) := endsWord_append hg₃ fun _ heq => by cases heq; rfl
    have hread : readDefinedName (skipGaps (g₁ ++ '(' :: (g₂ ++ (w ++ (g₃ ++ ')' :: r))))) = some (String.ofList w, r) := by
      rw [skipGaps_cons hg₁ rfl, readDefinedName, skipGaps_word hg₂ hw, readWord_append hw hclose]
      simp [skipGaps_cons hg₃, isGap, Text.after?]
    rw [readAtomFrom_append (.definedIn hg₁ hg₂ hg₃ hw) hg]
    simp only [append_assoc, cons_append, nil_append, readDefined_append hread]
    rfl
  | @not g₁ t c hg₁ h ih =>
    intro depth fuel g r hdepth hfuel hg hr
    simp only [length_cons, length_append] at hdepth hfuel
    obtain ⟨fuel, rfl⟩ := h.exists_succ fuel (by omega)
    obtain ⟨d, hd, heval⟩ := ih depth fuel g₁ r (by omega) (by omega) hg₁ hr
    refine ⟨.not d, ?_, fun ds => by simp [Condition.eval, heval]⟩
    rw [readAtomFrom_append (.not hg₁ h) hg, cons_append, append_assoc, readDefined_mark (by decide),
      readNumber_mark rfl]
    simp only [readGroup, Text.after?, if_true, Option.bind_some, hd]
    rfl
  | @neg g₁ t c hg₁ h ih =>
    intro depth fuel g r hdepth hfuel hg hr
    simp only [length_cons, length_append] at hdepth hfuel
    obtain ⟨fuel, rfl⟩ := h.exists_succ fuel (by omega)
    obtain ⟨d, hd, heval⟩ := ih depth fuel g₁ r (by omega) (by omega) hg₁ hr
    refine ⟨.neg d, ?_, fun ds => by simp [Condition.eval, heval]⟩
    rw [readAtomFrom_append (.neg hg₁ h) hg, cons_append, append_assoc, readDefined_mark (by decide),
      readNumber_mark rfl]
    simp only [readGroup, Text.after?, if_true, Option.bind_some, hd]
    rfl
  | @group g₁ g₂ t c hg₁ hg₂ h ih =>
    intro depth fuel g r hdepth hfuel hg hr
    simp only [length_cons, length_append] at hdepth hfuel
    obtain ⟨depth, rfl⟩ := h.exists_succ depth (by omega)
    have hclose : isGap ')' = false := rfl
    have hends : EndsAt [')'] (g₂ ++ ')' :: r) := ends_append hg₂ rfl hclose (by simp)
    obtain ⟨d, hd, heval⟩ := ih.nested depth (by omega) hg₁ hends
    refine ⟨d, ?_, heval⟩
    rw [readAtomFrom_append (.group hg₁ hg₂ h) hg]
    simp only [append_assoc, cons_append, nil_append]
    rw [readDefined_mark (by decide), readNumber_mark rfl]
    simp only [readGroup, hd, Option.bind_some, skipGaps_cons hg₂ hclose]
    rfl
  | @compare g₁ g₂ t u op a b hg₁ hg₂ ha hb iha ihb =>
    intro depth g r hdepth hg hr
    simp only [length_append] at hdepth
    have hends : EndsWord (g₁ ++ (op.text ++ (g₂ ++ (u ++ r)))) := by
      refine endsWord_append hg₁ ?_
      cases op <;> exact fun _ heq => by cases heq; rfl
    have hequals : ∀ ch ∈ (g₂ ++ (u ++ r)).head?, ch ≠ '=' := by
      obtain ⟨ch, u', rfl, hch⟩ := hb.head
      cases g₂ with
      | nil =>
        rintro _ ⟨⟩ rfl
        cases hch
      | cons x g₂ =>
        rintro _ ⟨⟩ rfl
        cases hg₂ '=' mem_cons_self
    obtain ⟨a', ha', hevala⟩ := iha.readAtom depth (by omega) hg hends
    obtain ⟨b', hb', hevalb⟩ := ihb.readAtom depth (by omega) hg₂ hr.1
    refine ⟨.compare op a' b', ?_, fun ds => by simp [Condition.eval, hevala, hevalb]⟩
    simp only [append_assoc]
    rw [readComparison, ha', Option.map_some]
    simp only [readCompareRest, readCompare_append hg₁ hequals, Option.bind_some, hb', Option.map_some]
  | and hg₁ hg₂ _ _ iha ihb =>
    intro depth hdepth
    simp only [length_append] at hdepth
    exact .join junction_and (by simp) (iha depth (by omega)) (ihb depth (by omega)) hg₁ hg₂
  | or hg₁ hg₂ _ _ iha ihb =>
    intro depth hdepth
    simp only [length_append] at hdepth
    exact .join junction_or (by simp) (iha depth (by omega)) (ihb depth (by omega)) hg₁ hg₂
  | ofAtom _ ih =>
    intro depth g r hdepth hg hr
    obtain ⟨d, hd, heval⟩ := ih.readAtom depth hdepth hg hr.1
    refine ⟨d, ?_, heval⟩
    simp only [readComparison, hd, Option.map_some, readCompareRest, readCompare_eq_none hr.2, Option.bind_none]
  | ofComparison _ ih =>
    intro depth hdepth
    exact .single junction_and fun g r => ih depth g r hdepth
  | ofConjunction _ ih =>
    intro depth hdepth
    refine .single junction_or fun g r hg hr => ?_
    refine (ih depth hdepth).gives hg (hr.mono (by simp)) fun ch hch => ?_
    have hch := hr.2 ch hch
    rintro rfl
    exact absurd hch (by decide)

/-- A condition is evaluated as it is written, unless a definition is the least word. -/
theorem evaluate_spelled {ds : Defines} (hds : ∀ name, ds.value name ≠ -9223372036854775808) {g' : List Char}
    (hg : Gaps g) (h : Spelled .disjunction c t) (hg' : Gaps g') (number : Nat) :
    evaluate ds number (g ++ (t ++ g')) = .ok (c.word ds).toInt := by
  have hstart : skipGaps (g ++ (t ++ g')) = t ++ g' := by
    obtain ⟨ch, t', rfl, hch⟩ := h.head
    exact skipGaps_cons hg (isGap_of_startsToken hch)
  have hend : skipGaps g' = [] := by
    have hnone := skipGaps_append hg' (r := []) nofun
    rwa [append_nil] at hnone
  have hends : EndsAt [')'] g' := ⟨fun ch hch => isWordChar_of_isGap (hg' ch (mem_of_mem_head? hch)), by simp [hend]⟩
  obtain ⟨d, hd, heval⟩ := h.readsAs.nested (g ++ (t ++ g')).length (by simp; omega) (g := []) nofun hends
  rw [nil_append] at hd
  simp only [evaluate, Condition.ofText?, hstart, hd, hend, isEmpty_nil, if_true]
  rw [heval, (h.stands hds).1]

theorem signs_evaluate_spelled : (∀ name, Defines.value [("X", " -3 ")] name ≠ -9223372036854775808) ∧
    evaluate [("X", " -3 ")] 7 " !defined( A)&&X<- 02||definedX ".toList = .ok 1 := by
  have hds : ∀ name, Defines.value [("X", " -3 ")] name ≠ -9223372036854775808 := by
    intro name
    by_cases hname : name = "X"
    · subst hname
      decide
    · simp [Defines.value, lookup_cons, beq_false_of_ne hname]
  have gap : Gaps [' '] := by simp [Gaps, isGap]
  have close : Gaps [] := forall_mem_nil _
  have hA : Spelled .atom (.not (.defined "A")) _ := .not close (.definedIn close gap close (w := ['A']) ⟨rfl, forall_mem_nil _⟩)
  have hX : Spelled .atom (.value "X") ['X'] := .value ⟨rfl, forall_mem_nil _⟩ (by decide)
  have htwo : Spelled .atom (.number (Text.ofDigits 10 ['0', '2'])) ['0', '2'] :=
    .number (by simp) (all_eq_true.mp rfl) (by decide)
  have hless : Spelled .comparison (.compare .lt (.value "X") _) _ := .compare close close hX (.neg gap htwo)
  have hB : Spelled .atom (.defined "X") _ := .defined close (w := ['X']) ⟨rfl, forall_mem_nil _⟩
  have hboth := Spelled.and close close (.ofComparison (.ofAtom hA)) (.ofComparison hless)
  have hall := Spelled.or close close (.ofConjunction hboth) (.ofConjunction (.ofComparison (.ofAtom hB)))
  exact ⟨hds, (evaluate_spelled hds gap hall gap 7).trans rfl⟩

end

end ShaderCompose.Preprocess
