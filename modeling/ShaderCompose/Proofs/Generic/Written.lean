import ShaderCompose.Proofs.Hlsl.RoundTrip
import ShaderCompose.Proofs.Reader.Arithmetic

/-!
Arithmetic with arguments for its parameters, written and read back.
-/

namespace ShaderCompose

def Substitution.Arithmetic (σ : Substitution) : Prop :=
  ∀ entry ∈ σ, Reader.expression? entry.2.text = some entry.2.value ∧ entry.2.value.isArithmetic = true

theorem Substitution.isSpelled_expr {σ : Substitution} (hσ : ∀ entry ∈ σ, entry.2.value.isSpelled = true) (e : Expr)
    (harithmetic : e.isArithmetic = true) (hspelled : e.isSpelled = true) : (σ.expr e).isSpelled = true := by
  match e with
  | .literal loc value => exact hspelled
  | .ident loc name =>
    rw [expr]
    cases hlookup : σ.lookup name with
    | none => exact hspelled
    | some arg =>
      rw [Expr.isSpelled_moveTo]
      exact hσ (name, arg) (mem_of_lookup hlookup)
  | .unary loc op operand => exact isSpelled_expr hσ operand harithmetic hspelled
  | .binary loc op lhs rhs =>
    simp only [Expr.isArithmetic, Expr.isSpelled, Bool.and_eq_true, expr] at harithmetic hspelled ⊢
    exact ⟨isSpelled_expr hσ lhs harithmetic.1 hspelled.1, isSpelled_expr hσ rhs harithmetic.2 hspelled.2⟩

namespace Reader

/-- Instantiated arithmetic reads back as itself exactly if no sign joins the next one. -/
theorem expression?_expr_subst {text : String} {e : Expr} {σ : Substitution} (he : expression? text = some e)
    (harithmetic : e.isArithmetic = true) (hσ : σ.Arithmetic) :
    ∃ x, expression? (Hlsl.expr (σ.expr e)) = some x ∧ x.bare = (σ.expr e).regroup.bare ∧
      (x.bare = (σ.expr e).bare ↔ (σ.expr e).isApart = true) := by
  have hvalues : ∀ entry ∈ σ, entry.2.value.isSpelled = true := fun entry hentry =>
    expression?_isSpelled (hσ entry hentry).1 (hσ entry hentry).2
  have hspelled := σ.isSpelled_expr hvalues e harithmetic (expression?_isSpelled he harithmetic)
  obtain ⟨x, hx, hbare⟩ := Option.map_eq_some_iff.mp (Hlsl.expression?_regroup hspelled)
  exact ⟨x, hx, hbare, by rw [hbare, Expr.bare_regroup_iff]⟩

def argument (text : String) : GenericArg := ⟨text, (expression? text).getD default⟩

theorem product_reads_back :
    let σ : Substitution := [("N", argument "a - b"), ("M", argument "+2")]
    let e := (expression? "N * -M - K").getD default
    Hlsl.expr (σ.expr e) = "(a - b) * -+2 - K" ∧
      ∃ x, expression? (Hlsl.expr (σ.expr e)) = some x ∧ x.bare = (σ.expr e).bare := by
  intro σ e
  have hσ : σ.Arithmetic :=
    List.forall_mem_cons.mpr ⟨⟨rfl, rfl⟩, List.forall_mem_cons.mpr ⟨⟨rfl, rfl⟩, List.forall_mem_nil _⟩⟩
  have he : expression? "N * -M - K" = some e := rfl
  obtain ⟨x, hx, -, hiff⟩ := expression?_expr_subst he rfl hσ
  exact ⟨rfl, x, hx, hiff.mpr rfl⟩

theorem negated_argument_decrements :
    let σ : Substitution := [("N", argument "-1")]
    let e := (expression? "-N").getD default
    Hlsl.expr (σ.expr e) = "--1" ∧
      ∃ x, expression? (Hlsl.expr (σ.expr e)) = some x ∧ x.bare ≠ (σ.expr e).bare := by
  refine ⟨rfl, (expression? "--1").getD default, rfl, ?_⟩
  intro h
  cases h

end Reader

end ShaderCompose
