/-!
Whole numbers written in decimal or hexadecimal digits, and the ranges in which they are accepted.
-/

namespace ShaderCompose.Text

def isDigit (c : Char) : Bool := '0' ≤ c && c ≤ '9'

def isAsciiLetter (c : Char) : Bool := ('a' ≤ c && c ≤ 'z') || ('A' ≤ c && c ≤ 'Z')

def isHexDigit (c : Char) : Bool :=
  isDigit c || ('a' ≤ c && c ≤ 'f') || ('A' ≤ c && c ≤ 'F')

/-- The value of a digit, hexadecimal ones included. -/
def digitValue (c : Char) : Nat :=
  if isDigit c then c.toNat - '0'.toNat
  else if 'a' ≤ c then c.toNat - 'a'.toNat + 10
  else c.toNat - 'A'.toNat + 10

/-- The number that digits stand for. -/
def ofDigits (base : Nat) (cs : List Char) : Nat :=
  cs.foldl (fun n c => n * base + digitValue c) 0

def readNat (cs : List Char) : Option Nat :=
  if cs.isEmpty || !cs.all isDigit then none else some (ofDigits 10 cs)

/-- The range of 64-bit signed words. -/
def fitsInt64 (n : Int) : Bool := -Int.pow 2 63 ≤ n && n < Int.pow 2 63

def asInt64 (n : Int) : Option Int := if fitsInt64 n then some n else none

/-- A signed word with an optional sign. -/
def readInt64 : List Char → Option Int
  | '-' :: cs => (readNat cs).bind fun n => asInt64 (-(n : Int))
  | '+' :: cs => (readNat cs).bind fun n => asInt64 n
  | cs => (readNat cs).bind fun n => asInt64 n

def asUInt32 (n : Nat) : Option Nat := if n < UInt32.size then some n else none

/-- An unsigned word with an optional plus sign. -/
def readUInt32 : List Char → Option Nat
  | '+' :: cs => (readNat cs).bind asUInt32
  | cs => (readNat cs).bind asUInt32

def natDigits (n : Nat) : List Char := Nat.toDigits 10 n

def intDigits : Int → List Char
  | .ofNat n => natDigits n
  | .negSucc n => '-' :: natDigits (n + 1)

/-- The low `count` digits of a number. -/
def hexDigits : (count : Nat) → Nat → List Char
  | 0, _ => []
  | count + 1, n => hexDigits count (n / 16) ++ [Nat.digitChar (n % 16)]

theorem asInt64_eq_some_iff {n m : Int} : asInt64 n = some m ↔ n = m ∧ fitsInt64 n = true := by
  unfold asInt64; split <;> simp_all

end ShaderCompose.Text
