import ShaderCompose.Diagnostic.Message
import ShaderCompose.Generic.Substitute
import ShaderCompose.Reader.Expr
import ShaderCompose.Request.Key

/-!
Instances of generic classes: a class with arguments for its parameters. Arguments are texts that
read as expressions.
-/

namespace ShaderCompose

/-- The first name that occurs twice. -/
def firstRepeated? : (seen names : List String) → Option String
  | _, [] => none
  | seen, n :: ns => if seen.contains n then some n else firstRepeated? (n :: seen) ns

namespace GenericParam

def defaultText (g : GenericParam) : String := if g.type.name == "bool" then "false" else "0"

/-- A parameter with the argument given for it. -/
def bind (cls : String) (g : GenericParam) (text : String) : Except Message (String × GenericArg) :=
  match Reader.expression? text with
  | some value => .ok (g.name, ⟨text, value⟩)
  | none =>
    .error (.parseError s!"invalid argument `{text}` for generic parameter `{g.name}` of `{cls}`")

end GenericParam

namespace ShaderClass

/-- The arguments, filled up if that is asked for. -/
def completeArgs (c : ShaderClass) (args : List String) (fill : Bool) : Except Message (List String) :=
  if args.length = c.generics.length then .ok args
  else if fill && decide (args.length < c.generics.length) then
    .ok (args ++ (c.generics.drop args.length).map GenericParam.defaultText)
  else .error (.genericCount c.name c.generics.length args.length)

def bindArgs (c : ShaderClass) (args : List String) : Except Message Substitution :=
  (c.generics.zip args).mapM fun (g, text) => g.bind c.name text

/-- The instance of a class for the given arguments. -/
def instantiate (c : ShaderClass) (args : List String) (fill : Bool) :
    Except Message ShaderClass :=
  match firstRepeated? [] (c.generics.map GenericParam.name) with
  | some name => .error (.repeatedGeneric c.name name)
  | none =>
    if c.generics.isEmpty && args.isEmpty then .ok c
    else do
      let args ← c.completeArgs args fill
      let σ ← c.bindArgs args
      .ok { c with
        name := instanceName c.name args
        generics := []
        bases := c.bases.map σ.base
        table := c.table.map σ.decl }

end ShaderClass

end ShaderCompose
