import ShaderCompose.Diagnostic.Log
import ShaderCompose.Lang.Decl

/-!
The streams that an entry point uses. A stream is an input if it is read before it is written, and
an output if it is written.
-/

namespace ShaderCompose.Stream

/-- The numbers of the streams by name. -/
abbrev StreamIndex := List (String × Nat)

/-- Inputs and outputs in the order of their first use. -/
structure Usage where
  inputs : List Nat := []
  outputs : List Nat := []
  log : Log := []
  deriving Repr, Inhabited

namespace Usage

/-- An input, unless it was written before. -/
def read (u : Usage) (stream : Nat) : Usage :=
  if u.outputs.contains stream || u.inputs.contains stream then u
  else { u with inputs := u.inputs ++ [stream] }

/-- An output from here on. -/
def write (u : Usage) (stream : Nat) : Usage :=
  if u.outputs.contains stream then u else { u with outputs := u.outputs ++ [stream] }

end Usage

/-- What an expression is evaluated for. -/
inductive Access where
  | value
  | target
  deriving DecidableEq, Repr, Inhabited

/-- How an argument is passed. -/
structure Passing where
  read : Bool
  written : Bool

/-- An argument without a parameter is read. -/
def Passing.of (p : Option Param) : Passing :=
  match p with
  | none => ⟨true, false⟩
  | some p => ⟨p.quals.input || !p.quals.output, p.quals.output⟩

/-- Operators that also write. -/
def changesOperand : UnaryOp → Bool
  | .preInc | .preDec | .postInc | .postDec => true
  | _ => false

section Walk

variable (streams : StreamIndex) (params : String → List Param) (enter : String → Usage → Usage)

def useName (access : Access) (name : String) (u : Usage) : Usage :=
  match streams.lookup name, access with
  | some stream, .value => u.read stream
  | some stream, .target => u.write stream
  | none, _ => u

mutual

/-- An assignment writes the variable it names. -/
def walkExpr : Access → Expr → Usage → Usage
  | _, .literal .., u => u
  | access, .ident _ name, u => useName streams access name u
  | access, .member _ target _, u => walkExpr access target u
  | .value, .index _ target position, u =>
    walkExpr .value position (walkExpr .value target u)
  | .target, .index _ target position, u =>
    walkExpr .target target (walkExpr .value position u)
  | _, .call _ callee args, u =>
    match callee with
    | .ident _ name => enter name (walkArgs args (params name) u)
    | _ => walkList args (walkExpr .value callee u)
  | _, .unary _ op operand, u =>
    let u := walkExpr .value operand u
    if changesOperand op then walkExpr .target operand u else u
  | _, .binary _ _ lhs rhs, u => walkExpr .value rhs (walkExpr .value lhs u)
  | _, .assign _ op target value, u =>
    let u := walkExpr .value value u
    let u := if op.isSome then walkExpr .value target u else u
    walkExpr .target target u
  | _, .ternary _ condition yes no, u =>
    walkExpr .value no (walkExpr .value yes (walkExpr .value condition u))
  | _, .list _ items, u => walkList items u

def walkList : List Expr → Usage → Usage
  | [], u => u
  | e :: es, u => walkList es (walkExpr .value e u)

/-- Arguments are read and written as their parameters say. -/
def walkArgs : List Expr → List Param → Usage → Usage
  | [], _, u => u
  | e :: es, ps, u =>
    let passing := Passing.of ps.head?
    let u := if passing.read then walkExpr .value e u else u
    let u := if passing.written then walkExpr .target e u else u
    walkArgs es ps.tail u

end

def walkOption (e : Option Expr) (u : Usage) : Usage :=
  match e with
  | some e => walkExpr streams params enter .value e u
  | none => u

def walkSimple (s : Simple) (u : Usage) : Usage :=
  match s with
  | .declare _ _ _ init => walkOption streams params enter init u
  | .expr value => walkExpr streams params enter .value value u

mutual

/-- Walk a statement, loops once. -/
def walkStmt : Stmt → Usage → Usage
  | .block _ body, u => walkStmts body u
  | .simple _ what, u => walkSimple streams params enter what u
  | .ret _ value, u => walkOption streams params enter value u
  | .ifThen _ condition yes, u => walkStmt yes (walkExpr streams params enter .value condition u)
  | .ifElse _ condition yes no, u =>
    walkStmt no (walkStmt yes (walkExpr streams params enter .value condition u))
  | .forLoop _ init condition step body, u =>
    let u := match init with
      | some (_, what) => walkSimple streams params enter what u
      | none => u
    let u := walkOption streams params enter condition u
    walkOption streams params enter step (walkStmt body u)
  | .whileLoop _ condition body, u =>
    walkStmt body (walkExpr streams params enter .value condition u)
  | .forEach _ _ collection body, u =>
    walkStmt body (walkExpr streams params enter .value collection u)
  | .breakLoop _, u | .continueLoop _, u | .discard _, u | .empty _, u => u

def walkStmts : List Stmt → Usage → Usage
  | [], u => u
  | s :: ss, u => walkStmts ss (walkStmt s u)

end

end Walk

def methodParams (shader : Shader) (name : String) : List Param :=
  ((shader.methods.find? fun m => m.name == name).bind Decl.params?).getD []

/-- Walk a method below those on `path`; recursion is reported. -/
def walkMethod (shader : Shader) (streams : StreamIndex) : (fuel : Nat) → (path : List String) →
    String → Usage → Usage
  | 0, _, _, u => u
  | fuel + 1, path, name, u =>
    match shader.methods.find? fun m => m.name == name with
    | none => u
    | some method =>
      match method.body? with
      | none => u
      | some body =>
        if path.contains name then
          { u with log := u.log ++ [.errorAt method.loc (.recursiveCall name)] }
        else
          walkStmts streams (methodParams shader) (walkMethod shader streams fuel (name :: path)) body u

def usageOf (shader : Shader) (streams : StreamIndex) (entry : String) : Usage :=
  walkMethod shader streams (shader.methods.length + 1) [] entry {}

end ShaderCompose.Stream
