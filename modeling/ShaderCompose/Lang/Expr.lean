import ShaderCompose.Lang.Span
import ShaderCompose.Number.Binary
import ShaderCompose.Text.Integer

/-!
Expressions of the shader language, and the folding of constant integer expressions.
-/

namespace ShaderCompose

inductive Literal where
  | bool (value : Bool)
  | int (value : Int)
  | float (value : Number.Binary Number.double)
  | string (value : String)
  deriving DecidableEq, Repr, Inhabited

inductive UnaryOp where
  | neg
  | plus
  | not
  | bitNot
  | preInc
  | preDec
  | postInc
  | postDec
  deriving DecidableEq, Repr, Inhabited

inductive BinaryOp where
  | mul
  | div
  | rem
  | add
  | sub
  | shl
  | shr
  | lt
  | gt
  | le
  | ge
  | eq
  | ne
  | bitAnd
  | bitXor
  | bitOr
  | and
  | or
  deriving DecidableEq, Repr, Inhabited

namespace BinaryOp

def text : BinaryOp → String
  | mul => "*"
  | div => "/"
  | rem => "%"
  | add => "+"
  | sub => "-"
  | shl => "<<"
  | shr => ">>"
  | lt => "<"
  | gt => ">"
  | le => "<="
  | ge => ">="
  | eq => "=="
  | ne => "!="
  | bitAnd => "&"
  | bitXor => "^"
  | bitOr => "|"
  | and => "&&"
  | or => "||"

end BinaryOp

/-- An expression; each node knows its place. -/
inductive Expr where
  | literal (loc : Span) (value : Literal)
  | ident (loc : Span) (name : String)
  | member (loc : Span) (target : Expr) (name : String)
  | call (loc : Span) (callee : Expr) (args : List Expr)
  | index (loc : Span) (target position : Expr)
  | unary (loc : Span) (op : UnaryOp) (operand : Expr)
  | binary (loc : Span) (op : BinaryOp) (lhs rhs : Expr)
  | assign (loc : Span) (op : Option BinaryOp) (target value : Expr)
  | ternary (loc : Span) (condition yes no : Expr)
  | list (loc : Span) (items : List Expr)
  deriving Repr, Inhabited

namespace Expr

def loc : Expr → Span
  | literal loc _ | ident loc _ | member loc _ _ | call loc _ _ | index loc _ _ | unary loc _ _
  | binary loc _ _ _ | assign loc _ _ _ | ternary loc _ _ _ | list loc _ => loc

/-- The expression with another place for its outermost node. -/
def moveTo (loc : Span) : Expr → Expr
  | literal _ value => literal loc value
  | ident _ name => ident loc name
  | member _ target name => member loc target name
  | call _ callee args => call loc callee args
  | index _ target position => index loc target position
  | unary _ op operand => unary loc op operand
  | binary _ op lhs rhs => binary loc op lhs rhs
  | assign _ op target value => assign loc op target value
  | ternary _ condition yes no => ternary loc condition yes no
  | list _ items => list loc items

def string (loc : Span) (value : String) : Expr := literal loc (.string value)

/-- The name, if it is nothing but one. -/
def ident? : Expr → Option String
  | ident _ name => some name
  | _ => none

def string? : Expr → Option String
  | literal _ (.string value) => some value
  | _ => none

end Expr

/-! ## Constant integers -/

/-- An operation on 64-bit words, for integers. -/
def onWords (f : BitVec 64 → BitVec 64 → BitVec 64) (a b : Int) : Int :=
  (f (.ofInt 64 a) (.ofInt 64 b)).toInt

/-- A distance that a word can be shifted by. -/
def shiftDistance (n : Int) : Option Nat := if 0 ≤ n ∧ n < 64 then some n.toNat else none

/-- An operator on a constant, if the result fits. -/
def UnaryOp.fold : UnaryOp → Int → Option Int
  | neg, n => Text.asInt64 (-n)
  | plus, n => some n
  | bitNot, n => some (-n - 1)
  | _, _ => none

/-- An operator on two constants, if the result fits. -/
def BinaryOp.fold : BinaryOp → Int → Int → Option Int
  | add, a, b => Text.asInt64 (a + b)
  | sub, a, b => Text.asInt64 (a - b)
  | mul, a, b => Text.asInt64 (a * b)
  | div, a, b => if b = 0 then none else Text.asInt64 (a.tdiv b)
  | rem, a, b => if b = 0 ∨ (Text.asInt64 (a.tdiv b)).isNone then none else some (a.tmod b)
  | shl, a, b => (shiftDistance b).map fun n => (BitVec.ofInt 64 a <<< n).toInt
  | shr, a, b => (shiftDistance b).map fun n => a.shiftRight n
  | bitAnd, a, b => some (onWords (· &&& ·) a b)
  | bitOr, a, b => some (onWords (· ||| ·) a b)
  | bitXor, a, b => some (onWords (· ^^^ ·) a b)
  | _, _, _ => none

/-- The value of a constant expression. -/
def Expr.constInt : Expr → Option Int
  | .literal _ (.int n) => Text.asInt64 n
  | .unary _ op operand => operand.constInt.bind op.fold
  | .binary _ op lhs rhs => lhs.constInt.bind fun a => rhs.constInt.bind fun b => op.fold a b
  | _ => none

end ShaderCompose
