import ShaderCompose.Lang.Expr
import ShaderCompose.Lang.Qualifiers

/-!
Types, attributes and statements of the shader language. Types refer to classes by name.
-/

namespace ShaderCompose

/-- The size in the brackets of an array. -/
inductive ArraySize where
  | unsized
  | fixed (size : Expr)
  deriving Repr, Inhabited

/-- A type by name, with the texts of its template arguments. -/
structure TypeRef where
  name : String
  template : List String := []
  array : Option ArraySize := none
  deriving Repr, Inhabited

namespace TypeRef

def isVoid (t : TypeRef) : Bool := t.name == "void" && t.array.isNone

def isArray (t : TypeRef) : Bool := t.array.isSome

/-- The length, if it is a constant 32-bit word. -/
def arrayLength? (t : TypeRef) : Option Nat :=
  match t.array with
  | some (.fixed size) => size.constInt.bind fun n => if n < 0 then none else Text.asUInt32 n.toNat
  | _ => none

def element (t : TypeRef) : TypeRef := { t with array := none }

/-- The type without its brackets. -/
def text (t : TypeRef) : String :=
  if t.template.isEmpty then t.name else t.name ++ "<" ++ ", ".intercalate t.template ++ ">"

end TypeRef

/-- An attribute in square brackets. -/
structure Attribute where
  name : String
  args : List Expr := []
  deriving Repr, Inhabited

namespace Attribute

/-- The first argument, if it is a string. -/
def text? (a : Attribute) : Option String := a.args.head?.bind Expr.string?

end Attribute

/-- What a `for` can begin with. -/
inductive Simple where
  | declare (quals : Qualifiers) (type : TypeRef) (name : String) (init : Option Expr)
  | expr (value : Expr)
  deriving Repr, Inhabited

/-- What every statement begins with. -/
structure Lead where
  loc : Span
  attrs : List Attribute := []
  deriving Repr, Inhabited

inductive Stmt where
  | block (lead : Lead) (body : List Stmt)
  | simple (lead : Lead) (what : Simple)
  | ret (lead : Lead) (value : Option Expr)
  | ifThen (lead : Lead) (condition : Expr) (yes : Stmt)
  | ifElse (lead : Lead) (condition : Expr) (yes no : Stmt)
  | forLoop (lead : Lead) (init : Option (Span × Simple)) (condition step : Option Expr) (body : Stmt)
  | whileLoop (lead : Lead) (condition : Expr) (body : Stmt)
  | forEach (lead : Lead) (name : String) (collection : Expr) (body : Stmt)
  | breakLoop (lead : Lead)
  | continueLoop (lead : Lead)
  | discard (lead : Lead)
  | empty (lead : Lead)
  deriving Repr, Inhabited

namespace Stmt

def lead : Stmt → Lead
  | block lead _ | simple lead _ | ret lead _ | ifThen lead _ _ | ifElse lead _ _ _
  | forLoop lead _ _ _ _ | whileLoop lead _ _ | forEach lead _ _ _ | breakLoop lead
  | continueLoop lead | discard lead | empty lead => lead

def generatedLead : Lead := ⟨Span.generated, []⟩

end Stmt

end ShaderCompose
