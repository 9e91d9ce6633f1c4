import ShaderCompose.Lang.Decl

/-!
Simultaneous substitution for the parameters of a generic class, by expressions, and by text in
types, semantics and bases.
-/

namespace ShaderCompose

/-- An argument as it is written and as an expression. -/
structure GenericArg where
  text : String
  value : Expr
  deriving Repr, Inhabited

abbrev Substitution := List (String × GenericArg)

namespace Substitution

/-- The text that stands for a name. -/
def text (σ : Substitution) (name : String) : String :=
  ((σ.lookup name).map GenericArg.text).getD name

mutual

/-- The argument takes the place of the parameter. -/
def expr (σ : Substitution) : Expr → Expr
  | .literal loc value => .literal loc value
  | .ident loc name =>
    match σ.lookup name with
    | some arg => arg.value.moveTo loc
    | none => .ident loc name
  | .member loc target name => .member loc (expr σ target) name
  | .call loc callee args => .call loc (expr σ callee) (exprs σ args)
  | .index loc target position => .index loc (expr σ target) (expr σ position)
  | .unary loc op operand => .unary loc op (expr σ operand)
  | .binary loc op lhs rhs => .binary loc op (expr σ lhs) (expr σ rhs)
  | .assign loc op target value => .assign loc op (expr σ target) (expr σ value)
  | .ternary loc condition yes no => .ternary loc (expr σ condition) (expr σ yes) (expr σ no)
  | .list loc items => .list loc (exprs σ items)

def exprs (σ : Substitution) : List Expr → List Expr
  | [] => []
  | e :: es => expr σ e :: exprs σ es

end

/-- Names, template arguments and sizes are replaced. -/
def type (σ : Substitution) (t : TypeRef) : TypeRef :=
  { name := σ.text t.name
    template := t.template.map σ.text
    array := t.array.map fun
      | .unsized => .unsized
      | .fixed size => .fixed (σ.expr size) }

def attr (σ : Substitution) (a : Attribute) : Attribute := { a with args := σ.exprs a.args }

def simple (σ : Substitution) : Simple → Simple
  | .declare quals type name init => .declare quals (σ.type type) name (init.map σ.expr)
  | .expr value => .expr (σ.expr value)

def lead (σ : Substitution) (l : Lead) : Lead := { l with attrs := l.attrs.map σ.attr }

mutual

def stmt (σ : Substitution) : Stmt → Stmt
  | .block l body => .block (σ.lead l) (stmts σ body)
  | .simple l what => .simple (σ.lead l) (σ.simple what)
  | .ret l value => .ret (σ.lead l) (value.map σ.expr)
  | .ifThen l condition yes => .ifThen (σ.lead l) (σ.expr condition) (stmt σ yes)
  | .ifElse l condition yes no => .ifElse (σ.lead l) (σ.expr condition) (stmt σ yes) (stmt σ no)
  | .forLoop l init condition step body =>
    .forLoop (σ.lead l) (init.map fun (loc, what) => (loc, σ.simple what)) (condition.map σ.expr)
      (step.map σ.expr) (stmt σ body)
  | .whileLoop l condition body => .whileLoop (σ.lead l) (σ.expr condition) (stmt σ body)
  | .forEach l name collection body =>
    .forEach (σ.lead l) name (σ.expr collection) (stmt σ body)
  | .breakLoop l => .breakLoop (σ.lead l)
  | .continueLoop l => .continueLoop (σ.lead l)
  | .discard l => .discard (σ.lead l)
  | .empty l => .empty (σ.lead l)

def stmts (σ : Substitution) : List Stmt → List Stmt
  | [] => []
  | s :: ss => stmt σ s :: stmts σ ss

end

def param (σ : Substitution) (p : Param) : Param :=
  { p with
    type := σ.type p.type
    semantic := p.semantic.map σ.text
    default := p.default.map σ.expr }

def initializer (σ : Substitution) : Initializer → Initializer
  | .expr value => .expr (σ.expr value)
  | .state fields => .state (fields.map fun f => { f with value := σ.expr f.value })

/-- All parts of a declaration but its name. -/
def decl (σ : Substitution) (d : Decl) : Decl :=
  { d with
    attrs := d.attrs.map σ.attr
    kind := match d.kind with
      | .var type semantic init =>
        .var (σ.type type) (semantic.map σ.text) (init.map σ.initializer)
      | .method returns params semantic body =>
        .method (σ.type returns) (params.map σ.param) (semantic.map σ.text) (body.map σ.stmts)
      | .struct fields => .struct (fields.map σ.param)
      | .buffer kind members => .buffer kind members }

/-- The arguments of a base are replaced, its name is not. -/
def base (σ : Substitution) (b : BaseRef) : BaseRef := { b with args := b.args.map σ.text }

end Substitution

end ShaderCompose
