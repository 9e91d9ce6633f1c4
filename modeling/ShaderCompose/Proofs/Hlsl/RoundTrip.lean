import ShaderCompose.Proofs.Hlsl.Operands

/-!
Written expressions read back (`expression?_expr`).
-/

namespace ShaderCompose.Hlsl

open List Reader
open Reader.Parser (Reads Misses)

/-! ## Operators before an operand -/

theorem eq_unary_of_strength {e : Expr} (h : strength e = 12) :
    ∃ loc op operand, e = .unary loc op operand ∧ unaryStrength op = 12 := by
  cases e with
  | unary loc op operand => exact ⟨loc, op, operand, rfl, h⟩
  | binary _ op => cases op <;> cases h
  | _ => cases h

theorem operand_start {op : UnaryOp} {operand : Expr} (hspelled : operand.isSpelled = true)
    (hfuses : op.fuses operand = false) : ∃ ch text, exprText 12 operand = ch :: text ∧
      (op = .neg → ch ≠ '-') ∧ (op = .plus → ch ≠ '+') ∧ ch ≠ '=' := by
  by_cases hstrength : strength operand = 12
  · obtain ⟨loc, inner, x, rfl, hinner⟩ := eq_unary_of_strength hstrength
    cases inner with
    | postInc | postDec => cases hinner
    | _ => refine ⟨_, _, rfl, ?_, ?_, by decide⟩ <;> rintro rfl <;> first | decide | cases hfuses
  · obtain ⟨ch, text, htext, hstart⟩ := exprText_start operand hspelled
    have hne := ne_of_startsOperand hstart
    rw [exprText_succ hstrength]
    exact ⟨ch, text, htext, fun _ => hne _ (by decide), fun _ => hne _ (by decide), hne _ (by decide)⟩

theorem exprText_unary {op : UnaryOp} (hop : unaryStrength op = 12) (loc : Span) (operand : Expr) :
    exprText 12 (.unary loc op operand) = (unaryText op).1 ++ exprText 12 operand := by
  cases op <;> simp [exprText, unaryStrength, unaryText, wrap] at hop ⊢

theorem reads_unaryOp {op : UnaryOp} {operand : Expr} (hop : unaryStrength op = 12)
    (hspelled : operand.isSpelled = true) (hfuses : op.fuses operand = false) (rest : List Char) :
    Reads unaryOp (unaryText op).1 (exprText 12 operand ++ rest) (· = op) := by
  obtain ⟨ch, text, htext, hminus, hplus, hequals⟩ := operand_start hspelled hfuses
  rw [htext]
  refine (reads_skip gap_nil ?_).first fun _ _ => ?_
  · cases op <;> first | rfl | cases hop
  cases op with
  | preInc => exact .orElse ((Reads.tag _ _).last fun _ _ => .pure rfl)
  | preDec =>
    refine .orElse_of_misses (.bind (.tag rfl)) ?_
    exact .orElse ((Reads.tag _ _).last fun _ _ => .pure rfl)
  | neg =>
    refine .orElse_of_misses (.bind (.tag rfl)) (.orElse_of_misses (.bind (.tag ?_)) ?_)
    · simp [Text.after?, unaryText, (hminus rfl).symm]
    · exact .orElse ((Reads.tag _ _).last fun _ _ => .pure rfl)
  | plus =>
    refine .orElse_of_misses (.bind (.tag ?_)) (.orElse_of_misses (.bind (.tag rfl)) ?_)
    · simp [Text.after?, unaryText, (hplus rfl).symm]
    · refine .orElse_of_misses (.bind (.tag rfl)) ?_
      exact .orElse ((Reads.tag _ _).last fun _ _ => .pure rfl)
  | not =>
    refine .orElse_of_misses (.bind (.tag rfl)) (.orElse_of_misses (.bind (.tag rfl)) ?_)
    refine .orElse_of_misses (.bind (.tag rfl)) (.orElse_of_misses (.bind (.tag rfl)) (.orElse ?_))
    refine (Reads.tag _ _).last fun _ _ => (Reads.notNext ?_).last fun _ _ => .pure rfl
    rintro x ⟨rfl⟩
    simpa using hequals
  | bitNot =>
    refine .orElse_of_misses (.bind (.tag rfl)) (.orElse_of_misses (.bind (.tag rfl)) ?_)
    refine .orElse_of_misses (.bind (.tag rfl)) (.orElse_of_misses (.bind (.tag rfl)) ?_)
    refine .orElse_of_misses (.bind (.tag rfl)) ((Reads.tag _ _).last fun _ _ => .pure rfl)
  | postInc | postDec => cases hop

theorem misses_unaryOp {ch : Char} (h : ∀ mark ∈ ['+', '-', '!', '~'], ch ≠ mark) {text : List Char}
    (hword : isAtWord (ch :: text) = true) : Misses unaryOp (ch :: text) := by
  refine Misses.after (reads_skip gap_nil hword) fun _ _ => .oneOf fun p hp => ?_
  simp only [mem_cons, not_mem_nil, or_false] at hp
  rcases hp with rfl | rfl | rfl | rfl | rfl | rfl <;> exact .bind (.tag_of_ne (h _ (by simp)))

/-! ## Operators of one strength -/

section

variable {length bound : Nat} {nested : Parser Expr} {level : List BinaryOp} {tighter : List (List BinaryOp)}
  (hlow : 2 ≤ bound) (hhigh : bound < 12) (hlevel : ∀ op, op ∈ level ↔ binaryStrength op = bound)
  (htighter : ReadsAt (length + 1) (binary nested tighter) (bound + 1))

include hlow hhigh hlevel htighter

theorem binary_loop (e : Expr) {gap rest : List Char} (hspelled : e.isSpelled = true) (hapart : e.isApart = true)
    (hgap : Gap gap) (hrest : Follows (bound + 1) (bound + 1) rest)
    (hlength : (gap ++ exprText bound e ++ rest).length ≤ length) :
    Loops (binary nested (level :: tighter)) (chainFrom (binary nested tighter) level) (gap ++ exprText bound e)
      rest e := by
  by_cases hstrength : strength e = bound
  · match e with
    | .binary loc op lhs rhs =>
      have hop : binaryStrength op = bound := hstrength
      have htext : exprText bound (.binary loc op lhs rhs) =
          exprText bound lhs ++ (' ' :: op.text.toList ++ ([' '] ++ exprText (bound + 1) rhs)) := by
        simp [exprText, wrap, hop]
      simp only [Expr.isSpelled, Expr.isApart, Bool.and_eq_true] at hspelled hapart
      rw [htext, ← append_assoc] at hlength ⊢
      rw [append_assoc _ _ rest] at hlength
      have hnext : Follows (bound + 1) (bound + 1)
          (' ' :: op.text.toList ++ ([' '] ++ exprText (bound + 1) rhs) ++ rest) := by
        simp only [append_assoc]
        exact .space (.operator (by omega))
      -- the left operand may be of the same strength and is read by the same loop, the right one binds tighter
      refine (binary_loop lhs hspelled.1 hapart.1 hgap hnext hlength).step (by simp) fun fuel x c hx hc => ?_
      rw [append_assoc] at hc
      obtain ⟨op', c', hok, hc', rfl⟩ := reads_binaryOp ((hlevel op).mpr hop) _ c hc
      obtain ⟨y, c'', hok', hc'', hy⟩ := htighter hspelled.2 hapart.2 le_rfl (by omega) gap_space hrest
        (by simp only [length_append] at hlength ⊢; omega) c' hc'
      exact ⟨.binary x.loc op' x y, c'', by simp only [chainFrom, hok, hok'], hc'',
        by rw [Expr.bare, hx, hy, Expr.bare]⟩
    | .unary loc op operand => cases op <;> simp only [strength, unaryStrength] at hstrength <;> omega
    | .literal .. | .ident .. | .list .. | .member .. | .call .. | .index .. | .assign .. | .ternary .. =>
      simp only [strength] at hstrength
      omega
  · rw [exprText_succ hstrength] at hlength ⊢
    exact .start (htighter hspelled hapart le_rfl (by omega) hgap hrest (Nat.lt_succ_of_le hlength))

theorem readsAt_level : ReadsAt (length + 1) (binary nested (level :: tighter)) bound := by
  intro e place gap rest hspelled hapart hplace hplace' hgap hrest hlength
  have hloop : Loops (binary nested (level :: tighter)) (chainFrom (binary nested tighter) level)
      (gap ++ exprText place e) rest e := by
    rcases Nat.eq_or_lt_of_le hplace with rfl | hlt
    · exact binary_loop hlow hhigh hlevel htighter e hspelled hapart hgap (hrest.mono (by omega) (by omega))
        (Nat.le_of_lt_succ hlength)
    · exact .start (htighter hspelled hapart hlt hplace' hgap (hrest.mono (by omega) le_rfl) hlength)
  refine hloop.reads fun fuel x c hc => ?_
  cases fuel with
  | zero => rfl
  | succ fuel =>
    obtain ⟨p, hmiss⟩ := misses_binaryOp hrest (fun op hop => ((hlevel op).mp hop).ge) c hc
    rw [chainFrom, hmiss]

end

inductive Levels : Nat → List (List BinaryOp) → Prop
  | nil : Levels 12 []
  | cons {bound : Nat} {level : List BinaryOp} {tighter : List (List BinaryOp)} : 2 ≤ bound →
      (∀ op, op ∈ level ↔ binaryStrength op = bound) → Levels (bound + 1) tighter → Levels bound (level :: tighter)

theorem Levels.le {bound : Nat} {levels : List (List BinaryOp)} (h : Levels bound levels) : bound ≤ 12 := by
  induction h with
  | nil => exact le_rfl
  | cons _ _ _ ih => omega

theorem levels_binaryLevels : Levels 2 binaryLevels := by
  iterate 10 refine .cons (by decide) (fun op => by cases op <;> decide) ?_
  exact .nil

/-! ## The parsers of all strengths -/

section

variable {length : Nat} {nested : Parser Expr} (hnested : Nested length nested)

include hnested

theorem reads_unaryFrom_operand {e : Expr} {gap rest : List Char} (hspelled : e.isSpelled = true)
    (hapart : e.isApart = true) (hgap : Gap gap) (hrest : Follows 13 13 rest)
    (hlength : (gap ++ exprText 13 e ++ rest).length ≤ length) (fuel : Nat) :
    Reads (unaryFrom nested (fuel + 1)) (gap ++ exprText 13 e) rest (·.bare = e.bare) := by
  obtain ⟨ch, text, htext, hstart⟩ := exprText_start e hspelled
  have hword := isAtWord_exprText hspelled rest
  have hmisses : Misses unaryOp (exprText 13 e ++ rest) := by
    rw [htext] at hword ⊢
    have hmarks : ∀ mark ∈ ['+', '-', '!', '~'], startsOperand mark = false := by
      simp only [forall_mem_cons]
      exact ⟨rfl, rfl, rfl, rfl, forall_mem_nil _⟩
    exact misses_unaryOp (fun mark hmark => ne_of_startsOperand hstart mark (hmarks mark hmark)) hword
  refine (reads_located hgap hword).bind fun loc _ c hc => ?_
  obtain ⟨p, hmiss⟩ := hmisses c hc
  simp only [hmiss]
  exact readsAt_postfixed hnested hspelled hapart le_rfl le_rfl gap_nil hrest (by grind) c hc

theorem reads_unaryFrom {e : Expr} {gap rest : List Char} {fuel : Nat} (hspelled : e.isSpelled = true)
    (hapart : e.isApart = true) (hgap : Gap gap) (hrest : Follows 12 12 rest)
    (hlength : (gap ++ exprText 12 e ++ rest).length ≤ length)
    (hfuel : (gap ++ exprText 12 e ++ rest).length < fuel) :
    Reads (unaryFrom nested fuel) (gap ++ exprText 12 e) rest (·.bare = e.bare) := by
  induction fuel generalizing e gap with
  | zero => exact absurd hfuel (Nat.not_lt_zero _)
  | succ fuel ih =>
    by_cases hstrength : strength e = 12
    · obtain ⟨loc, op, operand, rfl, hop⟩ := eq_unary_of_strength hstrength
      have hoperand : operand.isSpelled = true := hspelled
      have hfuses := Bool.and_eq_true_iff.mp hapart
      have hne : (unaryText op).1 ≠ [] := by cases op <;> simp [unaryText, unaryStrength] at hop ⊢
      have hpos := length_pos_of_ne_nil hne
      have hoperator := reads_unaryOp hop hoperand (by simpa using hfuses.1) rest
      rw [exprText_unary hop] at hlength hfuel ⊢
      refine (reads_located hgap ?_).bind fun loc' _ c hc => ?_
      · cases op <;> first | rfl | cases hop
      · rw [append_assoc] at hc
        obtain ⟨a, c', hok, hc', rfl⟩ := hoperator c hc
        simp only [hok]
        refine Reads.last (ih hoperand hfuses.2 gap_nil (by grind) (by grind)) (fun x hx => .pure ?_) c' hc'
        rw [Expr.bare, hx, Expr.bare]
    · rw [exprText_succ hstrength] at hlength ⊢
      exact reads_unaryFrom_operand hnested hspelled hapart hgap (hrest.mono (by omega) (by omega)) hlength fuel

theorem readsAt_unary : ReadsAt (length + 1) (unary nested) 12 := by
  intro e place gap rest hspelled hapart hlow hhigh hgap hrest hlength c hc
  have hle := Nat.le_of_lt_succ hlength
  -- in the tightest place an operator stands in parentheses, so that an operand comes first
  rcases Nat.eq_or_lt_of_le hlow with rfl | hlt
  · refine reads_unaryFrom hnested hspelled hapart hgap hrest hle ?_ c hc
    rw [hc]
    exact Nat.lt_succ_self _
  · obtain rfl : place = 13 := Nat.le_antisymm hhigh hlt
    exact reads_unaryFrom_operand hnested hspelled hapart hgap (hrest.mono (by omega) le_rfl) hle _ c hc

theorem readsAt_binary {bound : Nat} {levels : List (List BinaryOp)} (h : Levels bound levels) :
    ReadsAt (length + 1) (binary nested levels) bound := by
  induction h with
  | nil => exact readsAt_unary hnested
  | cons hlow hlevel htighter ih => exact readsAt_level hlow htighter.le hlevel ih

/-! ## Conditional expressions and assignments -/

theorem readsAt_ternary : ReadsAt (length + 1) (ternary nested) 1 := by
  intro e place gap rest hspelled hapart hplace hplace' hgap hrest hlength
  have hbinary := readsAt_binary hnested levels_binaryLevels
  by_cases hloose : place = 1 ∧ strength e = 1
  · obtain ⟨rfl, hstrength⟩ := hloose
    cases e with
    | ternary loc condition yes no =>
      simp only [Expr.isSpelled, Expr.isApart, Bool.and_eq_true] at hspelled hapart
      have htext : exprText 1 (.ternary loc condition yes no) = exprText 2 condition ++
          (([' '] ++ "?".toList) ++ (([' '] ++ exprText 0 yes) ++ (([' '] ++ ":".toList) ++
            ([' '] ++ exprText 1 no)))) := by
        simp [exprText, wrap]
      rw [htext, ← append_assoc] at hlength ⊢
      -- both branches are read as nested expressions: the first up to the colon, the second up to the end
      have hcolon : Follows 0 0 (([' '] ++ ":".toList) ++ ([' '] ++ exprText 1 no) ++ rest) :=
        show Follows 0 0 (' ' :: ':' :: _) from .space (.close (by simp))
      have hbranches : Reads (branches nested) (([' '] ++ "?".toList) ++ (([' '] ++ exprText 0 yes) ++
          (([' '] ++ ":".toList) ++ ([' '] ++ exprText 1 no)))) rest
          fun both => both.1.bare = yes.bare ∧ both.2.bare = no.bare := by
        refine (reads_symbol gap_space rfl).bind fun _ _ => ?_
        refine (hnested.reads hspelled.1.2 hapart.1.2 le_rfl (by omega) gap_space hcolon (by grind)).bind
          fun y hy => (reads_symbol gap_space rfl).bind fun _ _ => ?_
        exact (hnested.reads hspelled.2 hapart.2 (by omega) (by omega) gap_space hrest.of_ternary (by grind)).last
          fun n hn => .pure ⟨hy, hn⟩
      rw [append_assoc _ _ rest] at hlength
      refine (hbinary hspelled.1.1 hapart.1.1 le_rfl (by omega) hgap (.space (.question le_rfl)) hlength).bind
        fun a ha => hbranches.optional.last fun more hmore => ?_
      obtain ⟨both, rfl, hy, hn⟩ := hmore
      exact .pure (by simp only [Expr.bare, ha, hy, hn])
    | unary _ op | binary _ op => cases op <;> cases hstrength
    | _ => cases hstrength
  · obtain ⟨place', hlow, hhigh, hle, htext⟩ :=
      exprText_tighter hplace hplace' (by omega) fun hp hs => hloose ⟨hp, hs⟩
    rw [htext] at hlength ⊢
    refine (hbinary hspelled hapart hlow hhigh hgap (hrest.mono (by omega) hle) hlength).last fun a ha => ?_
    obtain ⟨hgap', hword⟩ := hrest
    refine (Reads.optional_of_misses (.bind ?_)).last fun more hmore => ?_
    · exact misses_symbol hgap' hword.start.1 (hword.no_question le_rfl)
    · subst hmore
      exact .pure ha

theorem readsAt_assignment : ReadsAt (length + 1) (assignment nested) 0 := by
  intro e place gap rest hspelled hapart hplace hplace' hgap hrest hlength
  have hternary := readsAt_ternary hnested
  by_cases hloose : place = 0 ∧ strength e = 0
  · obtain ⟨rfl, hstrength⟩ := hloose
    cases e with
    | assign loc op target value =>
      simp only [Expr.isSpelled, Expr.isApart, Bool.and_eq_true] at hspelled hapart
      have hop : op ∈ none :: compoundOps.map some := by
        cases op with
        | none => simp
        | some op => simpa using hspelled.1.1
      have htext : exprText 0 (.assign loc op target value) = exprText 13 target ++
          (' ' :: assignText op ++ ([' '] ++ exprText 0 value)) := by
        simp [exprText, wrap]
      rw [htext, ← append_assoc] at hlength ⊢
      rw [append_assoc _ _ rest] at hlength
      have hnext : Follows 1 13 (' ' :: assignText op ++ ([' '] ++ exprText 0 value) ++ rest) := by
        simp only [append_assoc]
        exact .space (.assign hop le_rfl (by omega))
      refine (hternary hspelled.1.2 hapart.1 (by omega) le_rfl hgap hnext hlength).bind fun a ha c hc => ?_
      rw [append_assoc] at hc
      obtain ⟨op', c', hok, hc', rfl⟩ := reads_assignOp hop _ c hc
      simp only [hok]
      refine Reads.last (hnested.reads hspelled.2 hapart.2 le_rfl (by omega) gap_space hrest (by grind))
        (fun x hx => .pure ?_) c' hc'
      rw [Expr.bare, ha, hx, Expr.bare]
    | unary _ op | binary _ op => cases op <;> cases hstrength
    | _ => cases hstrength
  · obtain ⟨place', hlow, hhigh, hle, htext⟩ :=
      exprText_tighter hplace hplace' (by omega) fun hp hs => hloose ⟨hp, hs⟩
    rw [htext] at hlength ⊢
    refine (hternary hspelled hapart hlow hhigh hgap (hrest.mono (by omega) hle) hlength).last fun a ha c hc => ?_
    obtain ⟨p, hmiss⟩ := misses_assignOp hrest c hc
    exact ⟨a, c, by simp only [hmiss], hc, ha⟩

end

/-! ## Nested expressions -/

theorem misses_assignment (nested : Parser Expr) {rest : List Char} (h : EndsList rest) :
    Misses (assignment nested) rest := by
  obtain ⟨hgap, hch⟩ := h
  rename_i gap text ch
  simp only [mem_cons, not_mem_nil, or_false] at hch
  have hword : isAtWord (ch :: text) = true := by rcases hch with rfl | rfl <;> rfl
  have hoperator : Misses unaryOp (ch :: text) := by
    refine misses_unaryOp ?_ hword
    rcases hch with rfl | rfl <;> simp
  have hprimary : Misses (primary nested) (ch :: text) := by
    refine Misses.after (reads_located gap_nil hword) fun _ _ => ?_
    rcases hch with rfl | rfl <;>
      exact .orElse (.bind (misses_literal gap_nil hword (by decide) rfl))
        (.orElse (.bind (misses_identifier gap_nil hword (by decide)))
          (.orElse (.bind (misses_mark hword rfl)) (.bind (misses_mark hword rfl))))
  have hunary : Misses (unary nested) (gap ++ ch :: text) := by
    intro c hc
    refine Misses.after (reads_located hgap hword) (fun _ _ c' hc' => ?_) c hc
    obtain ⟨p, hmiss⟩ := hoperator c' hc'
    simp only [hmiss]
    exact Misses.bind hprimary c' hc'
  have hbinary : ∀ levels, Misses (binary nested levels) (gap ++ ch :: text) := by
    intro levels
    induction levels with
    | nil => exact hunary
    | cons level tighter ih => exact .bind ih
  exact .bind (.bind (hbinary binaryLevels))

theorem nested_exprFrom (fuel : Nat) : Nested fuel (exprFrom fuel) := by
  induction fuel with
  | zero => exact ⟨fun _ _ _ _ _ _ _ _ _ _ h => absurd h (Nat.not_lt_zero _), fun _ c _ => ⟨c, rfl⟩⟩
  | succ fuel ih => exact ⟨readsAt_assignment ih, misses_assignment (exprFrom fuel)⟩

theorem reads_expr {e : Expr} (hspelled : e.isSpelled = true) (hapart : e.isApart = true) :
    Reads Reader.expr (exprText 0 e) [] (·.bare = e.bare) := by
  intro c hc
  refine (nested_exprFrom (c.rest.length + 1)).reads hspelled hapart le_rfl (by omega) gap_nil (.word .stop) ?_ c hc
  rw [hc]
  exact Nat.lt_succ_self _

theorem expression?_regroup {e : Expr} (hspelled : e.isSpelled = true) :
    (expression? (Hlsl.expr e)).map Expr.bare = some e.regroup.bare := by
  have hexpr := reads_expr (Expr.regroup_isSpelled e hspelled) (Expr.regroup_isApart e)
  have hskip : Reads skip [] [] fun _ => True := reads_skip gap_nil rfl
  have hwhole : Reads (do let x ← Reader.expr; skip; Parser.atEnd; return x) (exprText 0 e.regroup) []
      (·.bare = e.regroup.bare) :=
    hexpr.last fun x hx => hskip.last fun _ _ => Reads.atEnd.last fun _ _ => .pure hx
  rw [Expr.exprText_regroup] at hwhole
  have hstart : (Cursor.start "<expression>" (Hlsl.expr e).toList).rest = exprText 0 e ++ [] := by
    rw [append_nil]
    exact String.toList_ofList
  obtain ⟨x, c, hok, -, hx⟩ := hwhole _ hstart
  have hread : expression? (Hlsl.expr e) = some x := by
    unfold expression?
    rw [hok]
  rw [hread, Option.map_some, hx]

/-- A spelled expression in which no sign joins the next one reads back, up to places. -/
theorem expression?_expr {e : Expr} (hspelled : e.isSpelled = true) (hapart : e.isApart = true) :
    (expression? (Hlsl.expr e)).map Expr.bare = some e.bare := by
  rw [expression?_regroup hspelled, Expr.regroup_of_isApart e hapart]

def mingled : Expr :=
  .assign .generated (some .shl) (.index .generated (.member .generated (.ident .generated "s") "xs")
      (.unary .generated .postInc (.ident .generated "i")))
    (.ternary .generated (.binary .generated .lt (.binary .generated .sub (.ident .generated "a")
          (.binary .generated .sub (.unary .generated .neg (.ident .generated "b")) (.literal .generated (.int 1))))
        (.unary .generated .neg (.unary .generated .plus (.unary .generated .preDec (.ident .generated "c")))))
      (.call .generated (.unary .generated .not (.ident .generated "f"))
        [.list .generated [], .assign .generated none (.ident .generated "x") (.literal .generated (.bool true))])
      (.list .generated [.literal .generated (.string "a b"), .ternary .generated (.ident .generated "p")
        (.ident .generated "q") (.literal .generated (.int 0))]))

theorem mingled_reads_back :
    Hlsl.expr mingled = "s.xs[i++] <<= a - (-b - 1) < -+--c ? (!f)(\x7b  \x7d, x = true) : \x7b \"a b\", p ? q : 0 \x7d" ∧
      (expression? (Hlsl.expr mingled)).map Expr.bare = some mingled.bare :=
  ⟨by decide, expression?_expr (by decide) (by decide)⟩

end ShaderCompose.Hlsl
