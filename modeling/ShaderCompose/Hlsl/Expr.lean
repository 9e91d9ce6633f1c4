import ShaderCompose.Lang.Expr
import ShaderCompose.Number.Shortest
import ShaderCompose.Text.Quoted

/-!
The HLSL text of expressions. Each place asks for a strength, and weaker expressions are put in
parentheses.
-/

namespace ShaderCompose.Hlsl

/-! ## Literals -/

def realStyle : Number.Style := ⟨-4, 16, [], .up⟩

def realText (x : Number.Binary Number.double) : List Char :=
  if x.isInfinite then (if x.negative then ['-'] else []) ++ ['i', 'n', 'f'] else x.text realStyle

def literalText : Literal → List Char
  | .bool true => "true".toList
  | .bool false => "false".toList
  | .int n => Text.intDigits n
  | .float x => realText x
  | .string s => Text.quoted s.toList

/-! ## Precedence -/

/-- How strongly an operator binds. -/
def binaryStrength : BinaryOp → Nat
  | .or => 2
  | .and => 3
  | .bitOr => 4
  | .bitXor => 5
  | .bitAnd => 6
  | .eq | .ne => 7
  | .lt | .gt | .le | .ge => 8
  | .shl | .shr => 9
  | .add | .sub => 10
  | .mul | .div | .rem => 11

def unaryStrength : UnaryOp → Nat
  | .postInc | .postDec => 13
  | _ => 12

/-- How strongly an expression binds. -/
def strength : Expr → Nat
  | .assign .. => 0
  | .ternary .. => 1
  | .binary _ op _ _ => binaryStrength op
  | .unary _ op _ => unaryStrength op
  | .member .. | .call .. | .index .. => 13
  | .literal .. | .ident .. | .list .. => 14

/-- What stands before and after the operand. -/
def unaryText : UnaryOp → List Char × List Char
  | .neg => (['-'], [])
  | .plus => (['+'], [])
  | .not => (['!'], [])
  | .bitNot => (['~'], [])
  | .preInc => (['+', '+'], [])
  | .preDec => (['-', '-'], [])
  | .postInc => ([], ['+', '+'])
  | .postDec => ([], ['-', '-'])

def assignText : Option BinaryOp → List Char
  | some op => (op.text ++ "=").toList
  | none => ['=']

/-- Parentheses where the place asks for more strength. -/
def wrap (own place : Nat) (text : List Char) : List Char :=
  if own < place then '(' :: (text ++ [')']) else text

/-! ## Expressions -/

mutual

/-- An expression at a place of the given strength. -/
def exprText (place : Nat) : Expr → List Char
  | .literal _ value => wrap 14 place (literalText value)
  | .ident _ name => wrap 14 place name.toList
  | .member _ target name => wrap 13 place (exprText 13 target ++ '.' :: name.toList)
  | .call _ callee args => wrap 13 place (exprText 13 callee ++ '(' :: (listText args ++ [')']))
  | .index _ target position =>
    wrap 13 place (exprText 13 target ++ '[' :: (exprText 0 position ++ [']']))
  | .unary _ op operand =>
    wrap (unaryStrength op) place ((unaryText op).1 ++ exprText (unaryStrength op) operand ++ (unaryText op).2)
  | .binary _ op lhs rhs =>
    wrap (binaryStrength op) place (exprText (binaryStrength op) lhs ++ ' ' :: (op.text.toList ++ ' ' ::
        exprText (binaryStrength op + 1) rhs))
  | .assign _ op target value =>
    wrap 0 place (exprText 13 target ++ ' ' :: (assignText op ++ ' ' :: exprText 0 value))
  | .ternary _ condition yes no =>
    wrap 1 place (exprText 2 condition ++ ' ' :: '?' :: ' ' :: (exprText 0 yes ++ ' ' :: ':' :: ' ' :: exprText 1 no))
  | .list _ items => wrap 14 place ('\x7b' :: ' ' :: (listText items ++ [' ', '\x7d']))

def listText : List Expr → List Char
  | [] => []
  | [e] => exprText 0 e
  | e :: es => exprText 0 e ++ ',' :: ' ' :: listText es

end

def expr (e : Expr) : String := String.ofList (exprText 0 e)

def args (es : List Expr) : String := String.ofList (listText es)

end ShaderCompose.Hlsl
