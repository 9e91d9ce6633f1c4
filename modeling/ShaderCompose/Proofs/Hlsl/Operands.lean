import ShaderCompose.Proofs.Hlsl.Follows

/-!
Reading back operands and their suffixes.
-/

namespace ShaderCompose.Hlsl

open List Reader
open Reader.Parser (Reads Misses)

theorem exprText_eq_wrap (place : Nat) (e : Expr) : exprText place e = wrap (strength e) place (exprText 0 e) := by
  cases e <;> simp [exprText, strength, wrap]

theorem exprText_of_le {place : Nat} {e : Expr} (h : place ≤ strength e) : exprText place e = exprText 0 e := by
  rw [exprText_eq_wrap, wrap, if_neg (by omega)]

theorem exprText_of_lt {place : Nat} {e : Expr} (h : strength e < place) :
    exprText place e = '(' :: (exprText 0 e ++ [')']) := by
  rw [exprText_eq_wrap, wrap, if_pos h]

theorem exprText_succ {place : Nat} {e : Expr} (h : strength e ≠ place) :
    exprText place e = exprText (place + 1) e := by
  rcases Nat.lt_or_ge (strength e) place with hlt | hge
  · rw [exprText_of_lt hlt, exprText_of_lt (Nat.lt_succ_of_lt hlt)]
  · rw [exprText_of_le hge, exprText_of_le (Nat.lt_of_le_of_ne hge h.symm)]

theorem exprText_tighter {bound place : Nat} {e : Expr} (hlow : bound ≤ place) (hhigh : place ≤ 13)
    (hbound : bound < 13) (h : place = bound → strength e ≠ bound) :
    ∃ place', bound + 1 ≤ place' ∧ place' ≤ 13 ∧ place ≤ place' ∧ exprText place e = exprText place' e := by
  rcases Nat.eq_or_lt_of_le hlow with rfl | hlt
  · exact ⟨bound + 1, le_rfl, hbound, Nat.le_succ _, exprText_succ (h rfl)⟩
  · exact ⟨place, hlt, hhigh, le_rfl, rfl⟩

def ReadsAt (length : Nat) (parser : Parser Expr) (strength : Nat) : Prop :=
  ∀ ⦃e : Expr⦄ ⦃place : Nat⦄ ⦃gap rest : List Char⦄, e.isSpelled = true → e.isApart = true →
    strength ≤ place → place ≤ 13 → Gap gap → Follows strength place rest →
    (gap ++ exprText place e ++ rest).length < length →
    Reads parser (gap ++ exprText place e) rest (·.bare = e.bare)

/-- A text that ends a list of expressions. -/
inductive EndsList : List Char → Prop
  | intro {gap text : List Char} {ch : Char} : Gap gap → ch ∈ [')', '\x7d'] → EndsList (gap ++ ch :: text)

theorem EndsList.follows {rest : List Char} (h : EndsList rest) : Follows 0 0 rest := by
  obtain ⟨hgap, hch⟩ := h
  refine .intro hgap (.close ?_)
  simp only [mem_cons, not_mem_nil, or_false] at hch
  rcases hch with rfl | rfl <;> simp

theorem EndsList.misses_comma {rest : List Char} (h : EndsList rest) : Misses (symbol ",") rest := by
  obtain ⟨hgap, hch⟩ := h
  simp only [mem_cons, not_mem_nil, or_false] at hch
  rcases hch with rfl | rfl <;> exact misses_symbol hgap rfl rfl

/-- It reads expressions, and misses the end of a list of them. -/
structure Nested (length : Nat) (nested : Parser Expr) : Prop where
  reads : ReadsAt length nested 0
  misses {rest : List Char} : EndsList rest → Misses nested rest

def moreText (es : List Expr) : List Char := es.flatMap fun e => ',' :: ' ' :: exprText 0 e

theorem listText_cons (e : Expr) (es : List Expr) : listText (e :: es) = exprText 0 e ++ moreText es := by
  induction es generalizing e with
  | nil => simp [listText, moreText]
  | cons e' es ih => simp [listText, ih, moreText]

theorem EndsList.follows_more {rest : List Char} (h : EndsList rest) (es : List Expr) :
    Follows 0 0 (moreText es ++ rest) := by
  cases es with
  | nil => exact h.follows
  | cons e es =>
    exact .word (.close (by simp))

/-! ## The start of an operand -/

def startsOperand (ch : Char) : Bool :=
  isIdentStart ch || Text.isDigit ch || ch == '"' || ch == '(' || ch == '\x7b'

theorem ne_of_startsOperand {ch : Char} (h : startsOperand ch = true) (other : Char)
    (hother : startsOperand other = false) : ch ≠ other := by
  rintro rfl
  rw [h] at hother
  cases hother

theorem isAtWord_of_startsOperand {ch : Char} (h : startsOperand ch = true) (text : List Char) :
    isAtWord (ch :: text) = true := by
  have hne := ne_of_startsOperand h
  refine isAtWord_cons ?_ (hne '#' (by decide)) (hne '/' (by decide)) text
  simp [isSpace, hne ' ' (by decide), hne '\t' (by decide), hne '\r' (by decide), hne '\n' (by decide)]

theorem literalText_start {value : Literal} (h : value.isSpelled = true) :
    ∃ ch text, literalText value = ch :: text ∧ startsOperand ch = true := by
  cases value with
  | bool b => cases b <;> exact ⟨_, _, rfl, by decide⟩
  | int n =>
    simp only [Literal.isSpelled, Bool.and_eq_true, decide_eq_true_eq] at h
    obtain ⟨m, rfl⟩ := Int.eq_ofNat_of_zero_le h.1
    obtain ⟨d, ds, hdigits⟩ := exists_cons_of_ne_nil (Text.natDigits_ne_nil m)
    refine ⟨d, ds, hdigits, ?_⟩
    have hdigit : Text.isDigit d = true := Text.isDigit_of_mem_natDigits (by rw [hdigits]; simp)
    simp [startsOperand, hdigit]
  | float x => cases h
  | string s => exact ⟨'"', _, rfl, by decide⟩

theorem exprText_start (e : Expr) (h : e.isSpelled = true) :
    ∃ ch text, exprText 13 e = ch :: text ∧ startsOperand ch = true := by
  by_cases hloose : strength e < 13
  · exact ⟨'(', _, exprText_of_lt hloose, by decide⟩
  · match e with
    | .literal loc value => exact literalText_start h
    | .ident loc name =>
      obtain ⟨ch, chs, htext, hch, -⟩ := isName_iff.mp h
      exact ⟨ch, chs, htext, by simp [startsOperand, hch]⟩
    | .member loc target name =>
      simp only [Expr.isSpelled, Bool.and_eq_true] at h
      obtain ⟨ch, text, htext, hch⟩ := exprText_start target h.1.1
      exact ⟨ch, _, by rw [exprText, htext]; rfl, hch⟩
    | .call _ target _ | .index _ target _ =>
      simp only [Expr.isSpelled, Bool.and_eq_true] at h
      obtain ⟨ch, text, htext, hch⟩ := exprText_start target h.1
      exact ⟨ch, _, by rw [exprText, htext]; rfl, hch⟩
    | .unary loc op operand =>
      obtain ⟨ch, text, htext, hch⟩ := exprText_start operand h
      cases op with
      | postInc | postDec => exact ⟨ch, _, by rw [exprText, unaryStrength, htext]; rfl, hch⟩
      | _ => simp [strength, unaryStrength] at hloose
    | .list loc items => exact ⟨'\x7b', _, rfl, by decide⟩
    | .binary loc op lhs rhs => cases op <;> simp [strength, binaryStrength] at hloose
    | .assign .. | .ternary .. => simp [strength] at hloose

theorem isAtWord_exprText {e : Expr} (h : e.isSpelled = true) (rest : List Char) :
    isAtWord (exprText 13 e ++ rest) = true := by
  obtain ⟨ch, text, htext, hstart⟩ := exprText_start e h
  rw [htext]
  exact isAtWord_of_startsOperand hstart _

theorem reads_literal {value : Literal} {gap rest : List Char} (h : value.isSpelled = true) (hgap : Gap gap)
    (hends : endsWord rest = true) (hpoint : (∃ n, value = .int n) → rest.head? ≠ some '.') :
    Reads literal (gap ++ literalText value) rest (· = value) := by
  cases value with
  | bool b => cases b with
    | true => exact reads_literal_bool true hgap hends
    | false => exact reads_literal_bool false hgap hends
  | int n =>
    simp only [Literal.isSpelled, Bool.and_eq_true, decide_eq_true_eq] at h
    obtain ⟨m, rfl⟩ := Int.eq_ofNat_of_zero_le h.1
    refine reads_literal_int (fun ch => Text.isDigit_of_mem_natDigits) (Text.natDigits_ne_nil m) hgap hends
      (hpoint ⟨_, rfl⟩) ?_
    rw [Text.ofDigits_natDigits]
    exact Text.asInt64_eq_some_iff.mpr ⟨rfl, h.2⟩
  | float x => cases h
  | string s =>
    have hplain : ∀ ch ∈ s.toList, 32 ≤ ch.toNat ∧ ch.toNat < 127 ∧ ch ≠ '"' ∧ ch ≠ '\\' := by
      intro ch hch
      simpa [isPlainChar] using all_eq_true.mp h ch hch
    rw [literalText, Text.quoted_eq_of_plain hplain]
    refine (reads_literal_string (fun hquote => (hplain _ hquote).2.2.1 rfl) hgap).mono fun a ha => ?_
    rw [ha, String.ofList_toList]

def Loops (parser : Parser Expr) (loop : Nat → Expr → Parser Expr) (text rest : List Char) (e : Expr) : Prop :=
  ∀ c : Cursor, c.rest = text ++ rest → ∃ fuel x c', parser c = loop fuel x c' ∧ c'.rest = rest ∧
    rest.length ≤ fuel ∧ x.bare = e.bare

namespace Loops

variable {parser first : Parser Expr} {loop : Nat → Expr → Parser Expr} {text more rest : List Char} {e e' : Expr}

theorem start (h : Reads first text rest (·.bare = e.bare)) :
    Loops (first >>= fun x c => loop c.rest.length x c) loop text rest e := by
  intro c hc
  obtain ⟨x, c', hok, hrest, hx⟩ := h c hc
  refine ⟨c'.rest.length, x, c', ?_, hrest, by rw [hrest], hx⟩
  change Parser.bind first (fun x c => loop c.rest.length x c) c = _
  unfold Parser.bind
  rw [hok]

theorem step (h : Loops parser loop text (more ++ rest) e) (hmore : more ≠ [])
    (hstep : ∀ fuel x c, x.bare = e.bare → c.rest = more ++ rest →
      ∃ y c', loop (fuel + 1) x c = loop fuel y c' ∧ c'.rest = rest ∧ y.bare = e'.bare) :
    Loops parser loop (text ++ more) rest e' := by
  intro c hc
  obtain ⟨fuel, x, c', hloop, hrest, hfuel, hx⟩ := h c (by rw [hc, append_assoc])
  have hpos : 0 < more.length := length_pos_of_ne_nil hmore
  rw [length_append] at hfuel
  -- the fuel of a loop is the length of the text, and a round takes some of it
  obtain ⟨fuel, rfl⟩ : ∃ n, fuel = n + 1 := ⟨fuel - 1, by omega⟩
  obtain ⟨y, c'', hnext, hrest', hy⟩ := hstep fuel x c' hx hrest
  exact ⟨fuel, y, c'', hloop.trans hnext, hrest', by omega, hy⟩

theorem reads (h : Loops parser loop text rest e) (hstop : ∀ fuel x c, c.rest = rest → loop fuel x c = .ok x c) :
    Reads parser text rest (·.bare = e.bare) := by
  intro c hc
  obtain ⟨fuel, x, c', hloop, hrest, -, hx⟩ := h c hc
  exact ⟨x, c', hloop.trans (hstop fuel x c' hrest), hrest, hx⟩

theorem suffix {nested : Parser Expr} (h : Loops (postfixed nested) (suffixes nested) text (more ++ rest) e)
    (hmore : more ≠ []) (hsuffix : Reads (Reader.suffix nested) more rest fun extend =>
      ∀ x, x.bare = e.bare → (extend x).bare = e'.bare) :
    Loops (postfixed nested) (suffixes nested) (text ++ more) rest e' := by
  refine h.step hmore fun fuel x c hx hc => ?_
  obtain ⟨extend, c', hok, hrest, hextend⟩ := hsuffix c hc
  exact ⟨extend x, c', by rw [suffixes, hok], hrest, hextend x hx⟩

end Loops

/-! ## Suffixes without nested expressions -/

section

variable {nested : Parser Expr}

theorem reads_suffix_member {e : Expr} {name : String} {rest : List Char} (loc : Span) (hname : isName name = true)
    (hends : endsWord rest = true) :
    Reads (suffix nested) ('.' :: name.toList) rest fun extend =>
      ∀ x, x.bare = e.bare → (extend x).bare = (Expr.member loc e name).bare := by
  refine .orElse (.cons (reads_symbol gap_nil rfl) fun _ _ => ?_)
  refine (reads_identifier hname gap_nil hends).last fun a ha => .pure fun x hx => ?_
  rw [ha, Expr.bare, hx, Expr.bare]

theorem exprText_post {op : UnaryOp} (hop : unaryStrength op = 13) (loc : Span) (operand : Expr) :
    exprText 13 (.unary loc op operand) = exprText 13 operand ++ (unaryText op).2 := by
  cases op <;> simp [exprText, unaryStrength, unaryText, wrap] at hop ⊢

theorem reads_suffix_post {e : Expr} {op : UnaryOp} {rest : List Char} (loc : Span) (hop : unaryStrength op = 13) :
    Reads (suffix nested) (unaryText op).2 rest fun extend =>
      ∀ x, x.bare = e.bare → (extend x).bare = (Expr.unary loc op e).bare := by
  cases op with
  | postInc | postDec =>
    refine .orElse_of_misses (.bind (misses_mark rfl rfl)) (.orElse_of_misses (.bind (misses_mark rfl rfl)) ?_)
    refine .orElse_of_misses (.bind (misses_mark rfl rfl)) ?_
    first
    | refine .orElse ((reads_symbol gap_nil rfl).last fun _ _ => .pure fun x hx => ?_)
    | refine .orElse_of_misses (.bind (misses_mark rfl rfl))
        ((reads_symbol gap_nil rfl).last fun _ _ => .pure fun x hx => ?_)
    rw [Expr.bare, hx, Expr.bare]
  | _ => cases hop

end

section

variable {length : Nat} {nested : Parser Expr} (hnested : Nested length nested)

include hnested

/-! ## Lists of expressions -/

theorem reads_more {es : List Expr} {rest : List Char} (hspelled : Expr.areSpelled es = true)
    (hapart : Expr.areApart es = true) (hrest : EndsList rest) (hlength : (moreText es ++ rest).length ≤ length) :
    Reads (Parser.many (do symbol ","; nested)) (moreText es) rest (Expr.bareAll · = Expr.bareAll es) := by
  simp only [Expr.areSpelled_eq_all, Expr.areApart_eq_all, all_eq_true] at hspelled hapart
  simp only [Expr.bareAll_eq_map]
  refine .many (.bind hrest.misses_comma) (by simp) fun e behind hsuffix => ?_
  have he := hsuffix.mem mem_cons_self
  obtain ⟨before, rfl⟩ := hsuffix
  refine .cons (reads_symbol gap_nil rfl) fun _ _ => ?_
  refine hnested.reads (hspelled e he) (hapart e he) le_rfl (Nat.zero_le _) gap_space (hrest.follows_more behind) ?_
  simp only [moreText, flatMap_append, flatMap_cons, length_append, length_cons] at hlength ⊢
  grind

theorem reads_exprList_nil {rest : List Char} (hrest : EndsList rest) : Reads (exprList nested) [] rest (· = []) := by
  refine (Reads.optional_of_misses (.bind (hnested.misses hrest))).last fun parts hparts => ?_
  subst hparts
  exact .pure rfl

theorem reads_exprList_cons {e : Expr} {es : List Expr} {gap rest : List Char}
    (hspelled : Expr.areSpelled (e :: es) = true) (hapart : Expr.areApart (e :: es) = true)
    (hgap : Gap gap) (hrest : EndsList rest)
    (hlength : (gap ++ listText (e :: es) ++ rest).length < length) :
    Reads (exprList nested) (gap ++ listText (e :: es)) rest (Expr.bareAll · = Expr.bareAll (e :: es)) := by
  simp only [Expr.areSpelled, Expr.areApart, Bool.and_eq_true] at hspelled hapart
  rw [listText_cons] at hlength ⊢
  have hparts : Reads (Parser.separated1 (symbol ",") nested) (gap ++ (exprText 0 e ++ moreText es)) rest
      (Expr.bareAll · = Expr.bareAll (e :: es)) := by
    rw [← append_assoc]
    refine (hnested.reads hspelled.1 hapart.1 le_rfl (Nat.zero_le _) hgap (hrest.follows_more es) ?_).bind
      fun a ha => ?_
    · simpa using hlength
    · refine (reads_more hnested hspelled.2 hapart.2 hrest (by grind)).last fun as has => .pure ?_
      rw [Expr.bareAll, ha, has, Expr.bareAll]
  refine hparts.optional.last fun parts hparts => ?_
  obtain ⟨as, rfl, has⟩ := hparts
  exact .pure has

/-! ## Operands -/

theorem reads_primary_paren {e : Expr} {gap rest : List Char} (hspelled : e.isSpelled = true)
    (hapart : e.isApart = true) (hgap : Gap gap)
    (hlength : (gap ++ '(' :: (exprText 0 e ++ [')']) ++ rest).length ≤ length) :
    Reads (primary nested) (gap ++ '(' :: (exprText 0 e ++ [')'])) rest (·.bare = e.bare) := by
  refine (reads_located hgap rfl).bind fun loc _ => ?_
  refine .orElse_of_misses (.bind (misses_literal gap_nil rfl (by decide) rfl)) ?_
  refine .orElse_of_misses (.bind (misses_identifier gap_nil rfl (by decide))) ?_
  refine .orElse (.cons (reads_symbol gap_nil rfl) fun _ _ => ?_)
  refine (hnested.reads hspelled hapart le_rfl (Nat.zero_le _) gap_nil (.word (.close (by simp)))
    (by grind [append_eq])).bind fun a ha => ?_
  exact (reads_symbol gap_nil rfl).last fun _ _ => .pure (by rw [Expr.bare_moveTo, ha])

theorem reads_primary_list {loc : Span} {es : List Expr} {gap rest : List Char}
    (hspelled : Expr.areSpelled es = true) (hapart : Expr.areApart es = true) (hgap : Gap gap)
    (hlength : (gap ++ '\x7b' :: ' ' :: (listText es ++ [' ', '\x7d']) ++ rest).length ≤ length) :
    Reads (primary nested) (gap ++ '\x7b' :: ' ' :: (listText es ++ [' ', '\x7d'])) rest
      (·.bare = (Expr.list loc es).bare) := by
  have hends : ∀ {gap : List Char}, Gap gap → EndsList (gap ++ ['\x7d'] ++ rest) := by
    intro gap hgap
    rw [append_assoc]
    exact .intro hgap (by simp)
  -- an empty list has the two spaces around its elements in one gap
  have hend : ∀ {gap : List Char} {as : List Expr} (loc' : Span), Gap gap → Expr.bareAll as = Expr.bareAll es →
      Reads (do let _ ← Parser.optional (symbol ","); symbol "\x7d"; return Expr.list loc' as)
        (gap ++ ['\x7d']) rest (·.bare = (Expr.list loc es).bare) := by
    intro gap as loc' hgap has
    refine (Reads.optional_of_misses (hends hgap).misses_comma).first fun _ _ => ?_
    exact (reads_symbol hgap rfl).last fun _ _ => .pure (by simp only [Expr.bare, has])
  refine (reads_located hgap rfl).bind fun loc' _ => ?_
  refine .orElse_of_misses (.bind (misses_literal gap_nil rfl (by decide) rfl)) ?_
  refine .orElse_of_misses (.bind (misses_identifier gap_nil rfl (by decide))) ?_
  refine .orElse_of_misses (.bind (misses_mark rfl rfl)) (.cons (reads_symbol gap_nil rfl) fun _ _ => ?_)
  cases es with
  | nil =>
    have hspaces : Gap [' ', ' '] := by simp [Gap]
    exact (reads_exprList_nil hnested (hends hspaces)).first fun as has =>
      hend loc' hspaces (congrArg Expr.bareAll has)
  | cons e es =>
    exact (reads_exprList_cons hnested hspelled hapart gap_space (hends gap_space) (by grind)).bind fun as has =>
      hend loc' gap_space has

theorem reads_primary {e : Expr} {gap rest : List Char} (hspelled : e.isSpelled = true) (hapart : e.isApart = true)
    (hstrength : strength e ≠ 13) (hgap : Gap gap) (hends : endsWord rest = true)
    (hpoint : e.isInt = true → rest.head? ≠ some '.') (hlength : (gap ++ exprText 13 e ++ rest).length ≤ length) :
    Reads (primary nested) (gap ++ exprText 13 e) rest (·.bare = e.bare) := by
  by_cases hloose : strength e < 13
  · rw [exprText_of_lt hloose] at hlength ⊢
    exact reads_primary_paren hnested hspelled hapart hgap hlength
  · have hword := isAtWord_exprText hspelled rest
    cases e with
    | literal loc value =>
      have hliteral := reads_literal hspelled gap_nil hends fun ⟨n, hn⟩ => hpoint (by rw [hn]; rfl)
      refine (reads_located hgap hword).bind fun _ _ => .orElse (hliteral.last fun a ha => .pure ?_)
      rw [ha, Expr.bare, Expr.bare]
    | ident loc name =>
      refine (reads_located hgap hword).bind fun _ _ => ?_
      refine .orElse_of_misses (.bind (misses_literal_name hspelled gap_nil hends)) (.orElse ?_)
      refine (reads_identifier hspelled gap_nil hends).last fun a ha => .pure ?_
      rw [ha, Expr.bare, Expr.bare]
    | list loc items => exact reads_primary_list hnested hspelled hapart hgap hlength
    | unary loc op operand => cases op <;> simp [strength, unaryStrength] at hstrength hloose
    | binary loc op lhs rhs => cases op <;> simp [strength, binaryStrength] at hloose
    | member | call | index => exact absurd rfl hstrength
    | assign | ternary => simp [strength] at hloose

/-! ## Suffixes -/

theorem reads_suffix_call {e : Expr} {args : List Expr} {rest : List Char} (loc : Span)
    (hspelled : Expr.areSpelled args = true) (hapart : Expr.areApart args = true)
    (hlength : ('(' :: (listText args ++ [')']) ++ rest).length ≤ length) :
    Reads (suffix nested) ('(' :: (listText args ++ [')'])) rest fun extend =>
      ∀ x, x.bare = e.bare → (extend x).bare = (Expr.call loc e args).bare := by
  have hends : EndsList ([')'] ++ rest) := .intro gap_nil (by simp)
  have hargs : Reads (exprList nested) (listText args) ([')'] ++ rest) (Expr.bareAll · = Expr.bareAll args) := by
    cases args with
    | nil => exact (reads_exprList_nil hnested hends).mono fun as has => congrArg Expr.bareAll has
    | cons e es => exact reads_exprList_cons hnested hspelled hapart gap_nil hends (by grind)
  refine .orElse_of_misses (.bind (misses_mark rfl rfl)) (.orElse (.cons (reads_symbol gap_nil rfl) fun _ _ => ?_))
  refine hargs.bind fun as has => (reads_symbol gap_nil rfl).last fun _ _ => .pure fun x hx => ?_
  rw [Expr.bare, hx, has, Expr.bare]

theorem reads_suffix_index {e position : Expr} {rest : List Char} (loc : Span)
    (hspelled : position.isSpelled = true) (hapart : position.isApart = true)
    (hlength : ('[' :: (exprText 0 position ++ [']']) ++ rest).length ≤ length) :
    Reads (suffix nested) ('[' :: (exprText 0 position ++ [']'])) rest fun extend =>
      ∀ x, x.bare = e.bare → (extend x).bare = (Expr.index loc e position).bare := by
  have hposition : Reads nested (exprText 0 position) ([']'] ++ rest) (·.bare = position.bare) :=
    hnested.reads hspelled hapart le_rfl (Nat.zero_le _) gap_nil (.word (.close (by simp))) (by grind)
  refine .orElse_of_misses (.bind (misses_mark rfl rfl)) (.orElse_of_misses (.bind (misses_mark rfl rfl)) ?_)
  refine .orElse (.cons (reads_symbol gap_nil rfl) fun _ _ => hposition.bind fun a ha => ?_)
  refine (reads_symbol gap_nil rfl).last fun _ _ => .pure fun x hx => ?_
  rw [Expr.bare, hx, ha, Expr.bare]

theorem postfixed_loop (e : Expr) {gap rest : List Char} (hspelled : e.isSpelled = true) (hapart : e.isApart = true)
    (hgap : Gap gap) (hends : endsWord rest = true) (hpoint : e.isInt = true → rest.head? ≠ some '.')
    (hlength : (gap ++ exprText 13 e ++ rest).length ≤ length) :
    Loops (postfixed nested) (suffixes nested) (gap ++ exprText 13 e) rest e := by
  by_cases hstrength : strength e = 13
  · match e with
    | .member loc target name =>
      simp only [Expr.isSpelled, Bool.and_eq_true, Bool.not_eq_true'] at hspelled
      simp only [exprText, wrap, Nat.lt_irrefl, if_false, ← append_assoc] at hlength ⊢
      rw [append_assoc _ _ rest] at hlength
      refine .suffix (postfixed_loop target hspelled.1.1 hapart hgap rfl (fun hint => ?_) hlength) (by simp)
        (reads_suffix_member loc hspelled.2 hends)
      -- an integer before the point would be read as a fraction
      rw [hspelled.1.2] at hint
      cases hint
    | .call loc callee args =>
      simp only [Expr.isSpelled, Expr.isApart, Bool.and_eq_true] at hspelled hapart
      simp only [exprText, wrap, Nat.lt_irrefl, if_false, ← append_assoc] at hlength ⊢
      rw [append_assoc _ _ rest] at hlength
      refine .suffix (postfixed_loop callee hspelled.1 hapart.1 hgap rfl (by simp) hlength) (by simp)
        (reads_suffix_call hnested loc hspelled.2 hapart.2 ?_)
      rw [length_append] at hlength
      omega
    | .index loc target position =>
      simp only [Expr.isSpelled, Expr.isApart, Bool.and_eq_true] at hspelled hapart
      simp only [exprText, wrap, Nat.lt_irrefl, if_false, ← append_assoc] at hlength ⊢
      rw [append_assoc _ _ rest] at hlength
      refine .suffix (postfixed_loop target hspelled.1 hapart.1 hgap rfl (by simp) hlength) (by simp)
        (reads_suffix_index hnested loc hspelled.2 hapart.2 ?_)
      rw [length_append] at hlength
      omega
    | .unary loc op operand =>
      have hinner : operand.isApart = true := (Bool.and_eq_true_iff.mp hapart).2
      rw [exprText_post hstrength, ← append_assoc] at hlength ⊢
      rw [append_assoc _ _ rest] at hlength
      obtain ⟨hne, hword, hhead⟩ : (unaryText op).2 ≠ [] ∧ endsWord ((unaryText op).2 ++ rest) = true ∧
          ((unaryText op).2 ++ rest).head? ≠ some '.' := by
        cases op <;> first | exact ⟨by simp [unaryText], rfl, by simp [unaryText]⟩ | cases hstrength
      exact .suffix (postfixed_loop operand hspelled hinner hgap hword (fun _ => hhead) hlength) hne
        (reads_suffix_post loc hstrength)
    | .binary loc op lhs rhs => cases op <;> simp [strength, binaryStrength] at hstrength
    | .literal .. | .ident .. | .list .. | .assign .. | .ternary .. => simp [strength] at hstrength
  · exact .start (reads_primary hnested hspelled hapart hstrength hgap hends hpoint hlength)

theorem readsAt_postfixed : ReadsAt (length + 1) (postfixed nested) 13 := by
  intro e place gap rest hspelled hapart hlow hhigh hgap hrest hlength
  obtain rfl : place = 13 := Nat.le_antisymm hhigh hlow
  obtain ⟨hends, hpoint⟩ := hrest.endsWord
  refine (postfixed_loop hnested e hspelled hapart hgap hends (fun _ => hpoint) (Nat.le_of_lt_succ hlength)).reads
    fun fuel x c hc => ?_
  cases fuel with
  | zero => rfl
  | succ fuel =>
    obtain ⟨p, hmiss⟩ := misses_suffix nested hrest c hc
    rw [suffixes, hmiss]

end

end ShaderCompose.Hlsl
