import ShaderCompose.Hlsl.Expr
import ShaderCompose.Proofs.Reader.Reads

/-!
Expressions that can be written.
-/

namespace ShaderCompose

open List

@[elab_as_elim]
theorem Expr.parts_induction {P : Expr → Prop} (literal : ∀ loc value, P (.literal loc value))
    (ident : ∀ loc name, P (.ident loc name)) (member : ∀ loc target name, P target → P (.member loc target name))
    (call : ∀ loc callee args, P callee → (∀ e ∈ args, P e) → P (.call loc callee args))
    (index : ∀ loc target position, P target → P position → P (.index loc target position))
    (unary : ∀ loc op operand, P operand → P (.unary loc op operand))
    (binary : ∀ loc op lhs rhs, P lhs → P rhs → P (.binary loc op lhs rhs))
    (assign : ∀ loc op target value, P target → P value → P (.assign loc op target value))
    (ternary : ∀ loc condition yes no, P condition → P yes → P no → P (.ternary loc condition yes no))
    (list : ∀ loc items, (∀ e ∈ items, P e) → P (.list loc items)) (e : Expr) : P e :=
  @Expr.rec P (fun es => ∀ e ∈ es, P e) literal ident member call index unary binary assign ternary list
    (fun _ h => absurd h not_mem_nil) (fun _ _ he hes => forall_mem_cons.mpr ⟨he, hes⟩) e

/-! ## Expressions without places -/

mutual

def Expr.bare : Expr → Expr
  | .literal _ value => .literal .generated value
  | .ident _ name => .ident .generated name
  | .member _ target name => .member .generated target.bare name
  | .call _ callee args => .call .generated callee.bare (Expr.bareAll args)
  | .index _ target position => .index .generated target.bare position.bare
  | .unary _ op operand => .unary .generated op operand.bare
  | .binary _ op lhs rhs => .binary .generated op lhs.bare rhs.bare
  | .assign _ op target value => .assign .generated op target.bare value.bare
  | .ternary _ condition yes no => .ternary .generated condition.bare yes.bare no.bare
  | .list _ items => .list .generated (Expr.bareAll items)

def Expr.bareAll : List Expr → List Expr
  | [] => []
  | e :: es => e.bare :: Expr.bareAll es

end

@[simp]
theorem Expr.bare_moveTo (loc : Span) (e : Expr) : (e.moveTo loc).bare = e.bare := by
  cases e <;> rfl

def isPlainChar (ch : Char) : Bool := decide (32 ≤ ch.toNat ∧ ch.toNat < 127 ∧ ch ≠ '"' ∧ ch ≠ '\\')

def Literal.isSpelled : Literal → Bool
  | .bool _ => true
  | .int n => decide (0 ≤ n) && Text.fitsInt64 n
  | .float _ => false
  | .string s => s.toList.all isPlainChar

def Expr.isInt : Expr → Bool
  | .literal _ (.int _) => true
  | _ => false

mutual

def Expr.isSpelled : Expr → Bool
  | .literal _ value => value.isSpelled
  | .ident _ name => Reader.isName name
  | .member _ target name => target.isSpelled && !target.isInt && Reader.isName name
  | .call _ callee args => callee.isSpelled && Expr.areSpelled args
  | .index _ target position => target.isSpelled && position.isSpelled
  | .unary _ _ operand => operand.isSpelled
  | .binary _ _ lhs rhs => lhs.isSpelled && rhs.isSpelled
  | .assign _ op target value => op.all Reader.compoundOps.contains && target.isSpelled && value.isSpelled
  | .ternary _ condition yes no => condition.isSpelled && yes.isSpelled && no.isSpelled
  | .list _ items => Expr.areSpelled items

def Expr.areSpelled : List Expr → Bool
  | [] => true
  | e :: es => e.isSpelled && Expr.areSpelled es

end

/-! ## Signs -/

def UnaryOp.doubled? : UnaryOp → Option UnaryOp
  | .neg => some .preDec
  | .plus => some .preInc
  | _ => none

def UnaryOp.fuses (op : UnaryOp) : Expr → Bool
  | .unary _ inner _ => op.doubled?.any fun double => inner == op || inner == double
  | _ => false

mutual

def Expr.isApart : Expr → Bool
  | .literal .. | .ident .. => true
  | .member _ target _ => target.isApart
  | .call _ callee args => callee.isApart && Expr.areApart args
  | .index _ target position => target.isApart && position.isApart
  | .unary _ op operand => !op.fuses operand && operand.isApart
  | .binary _ _ lhs rhs => lhs.isApart && rhs.isApart
  | .assign _ _ target value => target.isApart && value.isApart
  | .ternary _ condition yes no => condition.isApart && yes.isApart && no.isApart
  | .list _ items => Expr.areApart items

def Expr.areApart : List Expr → Bool
  | [] => true
  | e :: es => e.isApart && Expr.areApart es

end

def Expr.signed (loc : Span) (op : UnaryOp) : Expr → Expr
  | .unary l inner operand =>
    match op.doubled? with
    | some double =>
      if inner = op then .unary loc double operand
      else if inner = double then .unary loc double (signed l op operand)
      else .unary loc op (.unary l inner operand)
    | none => .unary loc op (.unary l inner operand)
  | e => .unary loc op e

mutual

def Expr.regroup : Expr → Expr
  | .literal loc value => .literal loc value
  | .ident loc name => .ident loc name
  | .member loc target name => .member loc target.regroup name
  | .call loc callee args => .call loc callee.regroup (Expr.regroupAll args)
  | .index loc target position => .index loc target.regroup position.regroup
  | .unary loc op operand => operand.regroup.signed loc op
  | .binary loc op lhs rhs => .binary loc op lhs.regroup rhs.regroup
  | .assign loc op target value => .assign loc op target.regroup value.regroup
  | .ternary loc condition yes no => .ternary loc condition.regroup yes.regroup no.regroup
  | .list loc items => .list loc (Expr.regroupAll items)

def Expr.regroupAll : List Expr → List Expr
  | [] => []
  | e :: es => e.regroup :: Expr.regroupAll es

end

theorem Expr.signed_of_not_fuses {op : UnaryOp} {e : Expr} (h : op.fuses e = false) (loc : Span) :
    e.signed loc op = .unary loc op e := by
  cases e with
  | unary l inner operand =>
    rw [signed]
    cases hdouble : op.doubled? with
    | none => rfl
    | some double =>
      simp only [UnaryOp.fuses, hdouble, Option.any_some, Bool.or_eq_false_iff, beq_eq_false_iff_ne] at h
      dsimp only
      rw [if_neg h.1, if_neg h.2]
  | _ => rfl

theorem UnaryOp.doubled?_text {op double : UnaryOp} (h : op.doubled? = some double) :
    Hlsl.unaryText double = ((Hlsl.unaryText op).1 ++ (Hlsl.unaryText op).1, []) ∧
      (Hlsl.unaryText op).2 = [] ∧ Hlsl.unaryStrength double = 12 ∧ Hlsl.unaryStrength op = 12 := by
  cases op <;> cases h <;> exact ⟨rfl, rfl, rfl, rfl⟩

theorem UnaryOp.doubled?_doubled {op double : UnaryOp} (h : op.doubled? = some double) : double.doubled? = none := by
  cases op <;> cases h <;> rfl

theorem Expr.exprText_signed (e : Expr) (op : UnaryOp) (loc : Span) (place : Nat) :
    Hlsl.exprText place (e.signed loc op) = Hlsl.exprText place (.unary loc op e) := by
  match e with
  | .unary l inner operand =>
    rw [signed]
    cases hdouble : op.doubled? with
    | none => rfl
    | some double =>
      obtain ⟨htext, hafter, hstrength, hown⟩ := UnaryOp.doubled?_text hdouble
      dsimp only
      split
      · next hsame =>
        subst hsame
        simp [Hlsl.exprText, htext, hafter, hstrength, hown, Hlsl.wrap]
      · split
        · next hinner =>
          subst hinner
          simp [Hlsl.exprText, exprText_signed operand op l 12, htext, hstrength, hown, Hlsl.wrap]
        · rfl
  | .literal .. | .ident .. | .member .. | .call .. | .index .. | .binary .. | .assign .. | .ternary ..
  | .list .. => rfl

namespace Expr

theorem regroupAll_eq_map (es : List Expr) : Expr.regroupAll es = es.map regroup := by
  induction es with
  | nil => rfl
  | cons e es ih => rw [regroupAll, ih, map_cons]

theorem bareAll_eq_map (es : List Expr) : Expr.bareAll es = es.map bare := by
  induction es with
  | nil => rfl
  | cons e es ih => rw [bareAll, ih, map_cons]

theorem areApart_eq_all (es : List Expr) : Expr.areApart es = es.all isApart := by
  induction es with
  | nil => rfl
  | cons e es ih => rw [areApart, ih, all_cons]

theorem areSpelled_eq_all (es : List Expr) : Expr.areSpelled es = es.all isSpelled := by
  induction es with
  | nil => rfl
  | cons e es ih => rw [areSpelled, ih, all_cons]

theorem listText_regroup {es : List Expr}
    (h : ∀ e ∈ es, ∀ place, Hlsl.exprText place e.regroup = Hlsl.exprText place e) :
    Hlsl.listText (es.map regroup) = Hlsl.listText es := by
  induction es with
  | nil => rfl
  | cons e es ih =>
    obtain ⟨he, hes⟩ := forall_mem_cons.mp h
    cases es with
    | nil => exact he 0
    | cons e' es =>
      have hmore := ih hes
      simp only [map_cons, Hlsl.listText, he] at hmore ⊢
      rw [hmore]

theorem exprText_regroup (e : Expr) (place : Nat) : Hlsl.exprText place e.regroup = Hlsl.exprText place e := by
  induction e using parts_induction generalizing place with
  | call loc callee args hcallee hargs =>
    simp only [regroup, regroupAll_eq_map, Hlsl.exprText, hcallee, listText_regroup hargs]
  | unary loc op operand ih => simp only [regroup, exprText_signed, Hlsl.exprText, ih]
  | list loc items hitems => simp only [regroup, regroupAll_eq_map, Hlsl.exprText, listText_regroup hitems]
  | _ => simp_all only [regroup, Hlsl.exprText]

theorem signed_isApart (e : Expr) (op : UnaryOp) (loc : Span) (h : e.isApart = true) :
    (e.signed loc op).isApart = true := by
  by_cases hfuses : op.fuses e = true
  · match e with
    | .unary l inner operand =>
      have hoperand : operand.isApart = true := (Bool.and_eq_true_iff.mp h).2
      rw [signed]
      cases hdouble : op.doubled? with
      | none => simp [UnaryOp.fuses, hdouble] at hfuses
      | some double =>
        -- a double sign fuses with nothing, so it is apart from whatever comes after it
        have hapart : ∀ x, double.fuses x = false := by
          intro x
          cases x <;> simp [UnaryOp.fuses, UnaryOp.doubled?_doubled hdouble]
        dsimp only
        split
        · simp [isApart, hapart, hoperand]
        · split
          · simp [isApart, hapart, signed_isApart operand op l hoperand]
          · next hne hne' => simp [UnaryOp.fuses, hdouble, hne, hne'] at hfuses
    | .literal .. | .ident .. | .member .. | .call .. | .index .. | .binary .. | .assign .. | .ternary ..
    | .list .. => cases hfuses
  · rw [signed_of_not_fuses (Bool.eq_false_iff.mpr hfuses), isApart]
    simp [hfuses, h]

theorem signed_isSpelled (e : Expr) (op : UnaryOp) (loc : Span) (h : e.isSpelled = true) :
    (e.signed loc op).isSpelled = true := by
  match e with
  | .unary l inner operand =>
    rw [signed]
    split
    · split
      · exact h
      · split
        · exact signed_isSpelled operand op l h
        · exact h
    · exact h
  | .literal .. | .ident .. | .member .. | .call .. | .index .. | .binary .. | .assign .. | .ternary ..
  | .list .. => exact h

theorem isInt_regroup (e : Expr) : e.regroup.isInt = e.isInt := by
  cases e with
  | unary loc op operand =>
    rw [regroup]
    cases operand.regroup with
    | unary l inner operand =>
      rw [signed]
      split
      · split
        · rfl
        · split <;> rfl
      · rfl
    | _ => rfl
  | literal loc value => cases value <;> rfl
  | _ => rfl

theorem regroup_isApart (e : Expr) : e.regroup.isApart = true := by
  induction e using parts_induction with
  | unary loc op operand ih => exact signed_isApart _ op loc ih
  | _ => simp_all [regroup, regroupAll_eq_map, isApart, areApart_eq_all]

theorem regroup_isSpelled (e : Expr) (h : e.isSpelled = true) : e.regroup.isSpelled = true := by
  induction e using parts_induction with
  | unary loc op operand ih => exact signed_isSpelled _ op loc (ih h)
  | _ => simp_all [regroup, regroupAll_eq_map, isSpelled, areSpelled_eq_all, isInt_regroup]

theorem regroup_of_isApart (e : Expr) (h : e.isApart = true) : e.regroup = e := by
  have same : ∀ {es : List Expr}, (∀ e ∈ es, e.isApart = true → e.regroup = e) → Expr.areApart es = true →
      Expr.regroupAll es = es := by
    intro es hes h
    rw [areApart_eq_all, all_eq_true] at h
    rw [regroupAll_eq_map, map_congr_left fun e he => hes e he (h e he), map_id']
  induction e using parts_induction with
  | unary loc op operand ih =>
    simp only [isApart, Bool.and_eq_true, Bool.not_eq_true'] at h
    rw [regroup, ih h.2, signed_of_not_fuses h.1]
  | _ => simp_all [regroup, isApart]

theorem fuses_bare (op : UnaryOp) (e : Expr) : op.fuses e.bare = op.fuses e := by
  cases e <;> rfl

theorem isApart_bare (e : Expr) : e.bare.isApart = e.isApart := by
  have same : ∀ {es : List Expr}, (∀ e ∈ es, e.bare.isApart = e.isApart) →
      Expr.areApart (Expr.bareAll es) = Expr.areApart es := by
    intro es hes
    rw [bareAll_eq_map, areApart_eq_all, areApart_eq_all, Bool.eq_iff_iff]
    simp +contextual [hes]
  induction e using parts_induction with
  | _ => simp_all [bare, isApart, fuses_bare]

theorem bare_regroup_iff {e : Expr} : e.regroup.bare = e.bare ↔ e.isApart = true := by
  refine ⟨fun h => ?_, fun h => by rw [regroup_of_isApart e h]⟩
  rw [← isApart_bare, ← h, isApart_bare]
  exact regroup_isApart e

end Expr

end ShaderCompose
