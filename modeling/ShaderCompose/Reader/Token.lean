import ShaderCompose.Lang.Expr
import ShaderCompose.Reader.Parser

/-!
The words, symbols and literals of the shader language, and what may stand between them.
-/

namespace ShaderCompose.Reader

/-! ## Between the words -/

def isSpace (c : Char) : Bool := c == ' ' || c == '\t' || c == '\r' || c == '\n'

/-- The bytes up to the end of a comment. -/
def bytesToClose? : List Char → Option Nat
  | '*' :: '/' :: _ => some 2
  | c :: cs => (bytesToClose? cs).map (· + c.utf8Size)
  | [] => none

/-- Skip blanks, comments and directive lines. -/
def skipFrom : (fuel : Nat) → Parser Unit
  | 0, c => .ok () c
  | fuel + 1, c =>
    let c := c.drop (c.rest.takeWhile isSpace).length
    match c.rest with
    | '#' :: _ | '/' :: '/' :: _ => skipFrom fuel (c.drop (c.rest.takeWhile (· != '\n')).length)
    | '/' :: '*' :: _ =>
      match bytesToClose? c.rest with
      | none => skipFrom fuel (c.drop c.rest.length)
      | some n => if n ≤ c.rest.length then skipFrom fuel (c.drop n) else .miss c
    | _ => .ok () c

/-- Everything that may stand before a token. -/
def skip : Parser Unit := fun c => skipFrom (c.rest.length + 1) c

/-- The position of the next token. -/
def located : Parser Span := do
  skip
  fun c => .ok c.span c

/-! ## Words and symbols -/

def isIdentChar (c : Char) : Bool := Text.isAsciiLetter c || Text.isDigit c || c == '_'

def isIdentStart (c : Char) : Bool := Text.isAsciiLetter c || c == '_'

def symbol (text : String) : Parser Unit := do
  skip
  Parser.tag text.toList

/-- A word, which may be a keyword. -/
def word : Parser (List Char) := do
  let first ← Parser.satisfy isIdentStart
  let others ← Parser.takeWhile isIdentChar
  return first :: others

/-- This word, and not the beginning of another. -/
def wholeWord (text : String) : Parser Unit := do
  Parser.tag text.toList
  Parser.notNext isIdentChar

def keyword (text : String) : Parser Unit := do
  skip
  wholeWord text

/-- The words that are no identifiers. -/
def keywords : List String :=
  ["shader", "cbuffer", "rgroup", "struct", "return", "if", "else", "for", "foreach", "while",
   "break", "continue", "discard", "true", "false", "stage", "stream", "compose", "static",
   "const", "groupshared", "override", "abstract", "clone", "in", "out", "inout"]

/-- A word that is no keyword. -/
def identifier : Parser String := do
  skip
  Parser.filterMap word fun w =>
    let name := String.ofList w
    if keywords.contains name then none else some name

/-- An equals sign, not two. -/
def equals : Parser Unit := do
  Parser.tag ['=']
  Parser.notNext (· == '=')

/-! ## Literals -/

/-- A string; there are no escapes. -/
def stringLiteral : Parser String := do
  Parser.tag ['"']
  let text ← Parser.takeWhile (· != '"')
  Parser.tag ['"']
  return String.ofList text

/-- A decimal number as it is written. -/
structure Numeral where
  negative : Bool
  whole : List Char
  point : Bool
  fraction : List Char
  exponent : Option (Bool × List Char)

namespace Numeral

def isReal (n : Numeral) : Bool := n.point || n.exponent.isSome

def scale (n : Numeral) : Int :=
  (match n.exponent with
    | none => 0
    | some (negative, digits) =>
      let e : Int := Text.ofDigits 10 digits
      if negative then -e else e) - n.fraction.length

def toBinary (n : Numeral) : Number.Binary Number.double :=
  ⟨n.negative, Number.double.ofDecimal (Text.ofDigits 10 (n.whole ++ n.fraction)) n.scale⟩

def toInt? (n : Numeral) : Option Int :=
  let value : Int := Text.ofDigits 10 n.whole
  Text.asInt64 (if n.negative then -value else value)

end Numeral

def sign : Parser Bool := do
  let c ← Parser.satisfy fun c => c == '+' || c == '-'
  return c == '-'

def numeralDigits : Parser (List Char × Bool × List Char) :=
  Parser.orElse
    (do
      let whole ← Parser.takeWhile1 Text.isDigit
      let point ← Parser.optional (Parser.tag ['.'])
      if point.isSome then
        let fraction ← Parser.takeWhile Text.isDigit
        return (whole, true, fraction)
      return (whole, false, []))
    (do
      Parser.tag ['.']
      let fraction ← Parser.takeWhile1 Text.isDigit
      return ([], true, fraction))

/-- Digits must follow the mark. -/
def numeralExponent : Parser (Bool × List Char) := do
  let _ ← Parser.satisfy fun c => c == 'e' || c == 'E'
  let negative ← Parser.optional sign
  let digits ← Parser.must (Parser.takeWhile1 Text.isDigit)
  return (negative.getD false, digits)

def numeral : Parser Numeral := do
  let negative ← Parser.optional sign
  let (whole, point, fraction) ← numeralDigits
  let exponent ← Parser.optional numeralExponent
  return { negative := negative.getD false, whole, point, fraction, exponent }

/-- A hexadecimal number that fits a signed word. -/
def hexNumber : Parser Literal :=
  Parser.filterMap
    (do
      let _ ← Parser.tag ['0']
      let _ ← Parser.satisfy fun c => c == 'x' || c == 'X'
      let digits ← Parser.takeWhile1 Text.isHexDigit
      let _ ← Parser.optional (Parser.satisfy fun c => "uUlL".toList.contains c)
      return digits)
    fun digits => (Text.asInt64 (Text.ofDigits 16 digits)).map .int

/-- Reals and the suffixes `f` and `h` make floats. -/
def Numeral.literal? (n : Numeral) (suffix : Option Char) : Option Literal :=
  if n.isReal || suffix.any fun c => "fFhH".toList.contains c then some (.float n.toBinary)
  else n.toInt?.map .int

def decimalNumber : Parser Literal :=
  Parser.filterMap
    (do
      let n ← numeral
      let suffix ← Parser.optional (Parser.satisfy fun c => "fFhHuUlL".toList.contains c)
      Parser.notNext isIdentChar
      return (n, suffix))
    fun (n, suffix) => n.literal? suffix

def number : Parser Literal := Parser.orElse hexNumber decimalNumber

def literal : Parser Literal := do
  skip
  Parser.oneOf [do wholeWord "true"; return .bool true, do wholeWord "false"; return .bool false,
     do let text ← stringLiteral; return .string text,
     number]

end ShaderCompose.Reader
