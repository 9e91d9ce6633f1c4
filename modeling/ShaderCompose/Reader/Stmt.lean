import ShaderCompose.Lang.Stmt
import ShaderCompose.Reader.Expr

/-!
Reading types, attributes and statements. A block that has begun must be right to its end.
-/

namespace ShaderCompose.Reader

/-! ## Types -/

/-- Numbers or types, kept as text. -/
def templateArgs (nested : Parser TypeRef) : Parser (List String) := do
  symbol "<"
  let args ← Parser.separated1 (symbol ",") (do
    skip
    let text ← Parser.orElse (Parser.recognize number) (Parser.recognize nested)
    return String.ofList text)
  symbol ">"
  return args

/-- A type that is nested less than `fuel` deep. -/
def typeRefFrom : (fuel : Nat) → Parser TypeRef
  | 0 => Parser.miss
  | fuel + 1 => do
    let name ← identifier
    let template ← Parser.optional (templateArgs (typeRefFrom fuel))
    return { name, template := template.getD [] }

/-- A type without its brackets. -/
def typeRef : Parser TypeRef := fun c => typeRefFrom (c.rest.length + 1) c

def templateArgs? : Parser (List String) := do
  let args ← Parser.optional (templateArgs typeRef)
  return args.getD []

/-- The brackets of an array. -/
def arraySize? : Parser (Option ArraySize) :=
  Parser.optional do
    symbol "["
    let size ← Parser.optional expr
    symbol "]"
    return match size with
      | some size => .fixed size
      | none => .unsized

/-! ## What stands before a declaration -/

def oneAttribute : Parser Attribute := do
  symbol "["
  let name ← identifier
  let args ← Parser.optional do
    symbol "("
    let args ← exprList expr
    symbol ")"
    return args
  symbol "]"
  return { name, args := args.getD [] }

def attributes : Parser (List Attribute) := Parser.many oneAttribute

/-- All qualifiers that stand here. -/
def qualifiers : Parser Qualifiers := do
  let found ← Parser.many (Parser.filterMap (do skip; word) fun w =>
    Qualifiers.ofKeyword? (String.ofList w))
  return found.foldl Qualifiers.union {}

def assigned : Parser Expr := do
  skip
  equals
  expr

/-! ## Statements -/

def localDeclaration : Parser Simple := do
  let quals ← qualifiers
  let type ← typeRef
  let name ← identifier
  let array ← arraySize?
  let init ← Parser.optional assigned
  symbol ";"
  return .declare quals { type with array } name init

def exprStatement : Parser Simple := do
  let e ← expr
  symbol ";"
  return .expr e

def parenthesized : Parser Expr := do
  symbol "("
  let e ← expr
  symbol ")"
  return e

def forInit : Parser (Option (Span × Simple)) :=
  Parser.orElse
    (do
      let loc ← located
      let what ← Parser.orElse localDeclaration exprStatement
      return some (loc, what))
    (do symbol ";"; return none)

section Nested

variable (nested : Parser Stmt)

def block : Parser (List Stmt) := do
  symbol "\x7b"
  Parser.must do
    let body ← Parser.many nested
    symbol "\x7d"
    return body

def ifStatement : Parser (Lead → Stmt) := do
  keyword "if"
  let condition ← parenthesized
  let yes ← nested
  let no ← Parser.optional (do keyword "else"; nested)
  return fun lead =>
    match no with
    | some no => .ifElse lead condition yes no
    | none => .ifThen lead condition yes

def forStatement : Parser (Lead → Stmt) := do
  keyword "for"
  symbol "("
  let init ← forInit
  let condition ← Parser.optional expr
  symbol ";"
  let step ← Parser.optional expr
  symbol ")"
  let body ← nested
  return fun lead => .forLoop lead init condition step body

def whileStatement : Parser (Lead → Stmt) := do
  keyword "while"
  let condition ← parenthesized
  let body ← nested
  return fun lead => .whileLoop lead condition body

/-- The type of the variable is not kept. -/
def forEachStatement : Parser (Lead → Stmt) := do
  keyword "foreach"
  symbol "("
  Parser.orElse (keyword "var") (do let _ ← typeRef; return ())
  let name ← identifier
  keyword "in"
  let collection ← expr
  symbol ")"
  let body ← nested
  return fun lead => .forEach lead name collection body

def returnStatement : Parser (Lead → Stmt) := do
  keyword "return"
  let value ← Parser.optional expr
  symbol ";"
  return fun lead => .ret lead value

def keywordStatement (text : String) (make : Lead → Stmt) : Parser (Lead → Stmt) := do
  keyword text
  symbol ";"
  return make

/-- A statement without its attributes. -/
def bareStatement : Parser (Lead → Stmt) :=
  Parser.oneOf [do let body ← block nested; return fun lead => .block lead body, ifStatement nested,
     forStatement nested,
     whileStatement nested,
     forEachStatement nested,
     returnStatement,
     keywordStatement "break" .breakLoop,
     keywordStatement "continue" .continueLoop,
     keywordStatement "discard" .discard,
     do symbol ";"; return .empty,
     do let what ← localDeclaration; return fun lead => .simple lead what,
     do let what ← exprStatement; return fun lead => .simple lead what]

end Nested

/-- A statement that is nested less than `fuel` deep. -/
def statementFrom : (fuel : Nat) → Parser Stmt
  | 0 => Parser.miss
  | fuel + 1 => do
    let loc ← located
    let attrs ← attributes
    let make ← bareStatement (statementFrom fuel)
    return make { loc, attrs }

def statement : Parser Stmt := fun c => statementFrom (c.rest.length + 1) c

end ShaderCompose.Reader
