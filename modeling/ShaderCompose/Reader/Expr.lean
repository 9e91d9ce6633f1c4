import ShaderCompose.Reader.Token

/-!
Reading expressions. Binary operators are read level by level, the weakest first.
-/

namespace ShaderCompose.Reader

/-! ## Operators -/

/-- The operators by strength, the weakest first. -/
def binaryLevels : List (List BinaryOp) :=
  [[.or], [.and], [.bitOr], [.bitXor], [.bitAnd], [.eq, .ne], [.le, .ge, .lt, .gt], [.shl, .shr],
   [.add, .sub], [.mul, .div, .rem]]

def endsInEquals : BinaryOp → Bool
  | .eq | .ne | .le | .ge => true
  | _ => false

/-- The operator is only the beginning of another. -/
def extendsTo (op : BinaryOp) (next : Option Char) : Bool :=
  (next == some '=' && !endsInEquals op) || (op.text.length == 1 && next == op.text.toList.head?)

/-- The first operator of a level that stands here. -/
def operatorOf : List BinaryOp → Parser BinaryOp
  | [], c => .miss c
  | op :: ops, c =>
    match Text.after? op.text.toList c.rest with
    | some rest =>
      if extendsTo op rest.head? then operatorOf ops c else .ok op (c.drop op.text.length)
    | none => operatorOf ops c

def binaryOp (level : List BinaryOp) : Parser BinaryOp := do
  skip
  operatorOf level

def unaryOp : Parser UnaryOp := do
  skip
  Parser.oneOf [do Parser.tag ['+', '+']; return .preInc, do Parser.tag ['-', '-']; return .preDec,
     do Parser.tag ['-']; return .neg,
     do Parser.tag ['+']; return .plus,
     do Parser.tag ['!']; Parser.notNext (· == '='); return .not,
     do Parser.tag ['~']; return .bitNot]

/-- The operators with a compound assignment. -/
def compoundOps : List BinaryOp :=
  [.shl, .shr, .add, .sub, .mul, .div, .rem, .bitAnd, .bitOr, .bitXor]

/-- An assignment; none for the plain one. -/
def assignOp : Parser (Option BinaryOp) := do
  skip
  Parser.oneOf (compoundOps.map (fun op => do Parser.tag (op.text ++ "=").toList; return some op) ++
      [do equals; return none])

/-! ## Operands -/

section Nested

variable (nested : Parser Expr)

def exprList : Parser (List Expr) := Parser.separated (symbol ",") nested

/-- A member, a call, an index or a step behind an operand. -/
def suffix : Parser (Expr → Expr) :=
  Parser.oneOf
    [do
      symbol "."
      let name ← identifier
      return fun e => .member e.loc e name,
     do
      symbol "("
      let args ← exprList nested
      symbol ")"
      return fun e => .call e.loc e args,
     do
      symbol "["
      let position ← nested
      symbol "]"
      return fun e => .index e.loc e position,
     do symbol "++"; return fun e => .unary e.loc .postInc e,
     do symbol "--"; return fun e => .unary e.loc .postDec e]

def primary : Parser Expr := do
  let loc ← located
  Parser.oneOf [do let value ← literal; return .literal loc value, do let name ← identifier; return .ident loc name,
     do
      symbol "("
      let e ← nested
      symbol ")"
      return e.moveTo loc,
     do
      symbol "\x7b"
      let items ← exprList nested
      let _ ← Parser.optional (symbol ",")
      symbol "\x7d"
      return .list loc items]

/-- An operand with its suffixes; a wrong one is left unread. -/
def suffixes : (fuel : Nat) → Expr → Parser Expr
  | 0, e, c => .ok e c
  | fuel + 1, e, c =>
    match suffix nested c with
    | .ok extend rest => suffixes fuel (extend e) rest
    | _ => .ok e c

def postfixed : Parser Expr := do
  let e ← primary nested
  fun c => suffixes nested c.rest.length e c

def unaryFrom : (fuel : Nat) → Parser Expr
  | 0 => Parser.miss
  | fuel + 1 => do
    let loc ← located
    fun c =>
      match unaryOp c with
      | .ok op rest => (do let operand ← unaryFrom fuel; return Expr.unary loc op operand) rest
      | _ => postfixed nested c

def unary : Parser Expr := fun c => unaryFrom nested (c.rest.length + 1) c

/-! ## Levels -/

/-- Further operands of a level. -/
def chainFrom (operand : Parser Expr) (level : List BinaryOp) : (fuel : Nat) → Expr → Parser Expr
  | 0, lhs, c => .ok lhs c
  | fuel + 1, lhs, c =>
    match binaryOp level c with
    | .ok op afterOp =>
      match operand afterOp with
      | .ok rhs rest => chainFrom operand level fuel (.binary lhs.loc op lhs rhs) rest
      | .miss _ => .ok lhs c
      | .fail place => .fail place
    | _ => .ok lhs c

/-- The operators of the given levels. -/
def binary : (levels : List (List BinaryOp)) → Parser Expr
  | [] => unary nested
  | level :: tighter => do
    let lhs ← binary tighter
    fun c => chainFrom (binary tighter) level c.rest.length lhs c

def branches : Parser (Expr × Expr) := do
  symbol "?"
  let yes ← nested
  symbol ":"
  let no ← nested
  return (yes, no)

def ternary : Parser Expr := do
  let condition ← binary nested binaryLevels
  let rest ← Parser.optional (branches nested)
  return match rest with
    | some (yes, no) => .ternary condition.loc condition yes no
    | none => condition

/-- Assignments lean to the right. -/
def assignment : Parser Expr := do
  let target ← ternary nested
  fun c =>
    match assignOp c with
    | .ok op rest =>
      (do let value ← nested; return Expr.assign target.loc op target value) rest
    | _ => .ok target c

end Nested

/-- An expression that is nested less than `fuel` deep. -/
def exprFrom : (fuel : Nat) → Parser Expr
  | 0 => Parser.miss
  | fuel + 1 => assignment (exprFrom fuel)

def expr : Parser Expr := fun c => exprFrom (c.rest.length + 1) c

/-- The expression that a whole text is. -/
def expression? (text : String) : Option Expr :=
  match (do let e ← expr; skip; Parser.atEnd; return e : Parser Expr)
      (.start "<expression>" text.toList) with
  | .ok e _ => some e
  | _ => none

end ShaderCompose.Reader
