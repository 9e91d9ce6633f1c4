import ShaderCompose.Preprocess.Defines

/-!
Conditions of `#if` and `#elif`: their trees, what they evaluate to, and how they are read.
-/

namespace ShaderCompose.Preprocess

inductive Compare where
  | eq
  | ne
  | le
  | ge
  | lt
  | gt
  deriving DecidableEq, Repr, Inhabited

namespace Compare

def text : Compare → List Char
  | eq => ['=', '=']
  | ne => ['!', '=']
  | le => ['<', '=']
  | ge => ['>', '=']
  | lt => ['<']
  | gt => ['>']

def all : List Compare := [eq, ne, le, ge, lt, gt]

def holds : Compare → Int → Int → Bool
  | eq, a, b => a == b
  | ne, a, b => a != b
  | le, a, b => a ≤ b
  | ge, a, b => b ≤ a
  | lt, a, b => a < b
  | gt, a, b => b < a

end Compare

inductive Condition where
  | number (n : Int)
  | defined (name : String)
  | value (name : String)
  | not (c : Condition)
  | neg (c : Condition)
  | compare (op : Compare) (a b : Condition)
  | and (a b : Condition)
  | or (a b : Condition)
  deriving DecidableEq, Repr, Inhabited

/-- Truth as a number. -/
def truth (b : Bool) : Int := if b then 1 else 0

/-- The number that a name stands for, or zero. -/
def Defines.value (ds : Defines) (name : String) : Int :=
  ((ds.lookup name).bind fun text => Text.readInt64 (Text.trim text.toList)).getD 0

/-- The value of a condition in 64-bit words.  Only a negation can leave them, and it wraps: the least word is
its own negative. -/
def Condition.eval (ds : Defines) : Condition → Int
  | number n => n
  | defined name => truth (ds.has name)
  | value name => ds.value name
  | not c => truth (c.eval ds == 0)
  | neg c => (-Int64.ofInt (c.eval ds)).toInt
  | compare op a b => truth (op.holds (a.eval ds) (b.eval ds))
  | and a b => truth (a.eval ds != 0 && b.eval ds != 0)
  | or a b => truth (a.eval ds != 0 || b.eval ds != 0)

/-! ## Reading -/

/-- What is read, and the rest. -/
abbrev ConditionReader (α : Type) := List Char → Option (α × List Char)

def isGap (c : Char) : Bool := c == ' ' || c == '\t' || c == '\r' || c == '\n'

def skipGaps (cs : List Char) : List Char := cs.dropWhile isGap

def readWord : ConditionReader String
  | [] => none
  | c :: cs =>
    if isWordStart c then
      some (String.ofList (c :: cs.takeWhile isWordChar), cs.dropWhile isWordChar)
    else none

/-- A name, possibly in parentheses. -/
def readDefinedName (cs : List Char) : Option (String × List Char) :=
  match cs with
  | '(' :: inner =>
    match readWord (skipGaps inner) with
    | some (name, rest) => (Text.after? [')'] (skipGaps rest)).map fun rest => (name, rest)
    | none => none
  | cs => readWord cs

def readDefined (cs : List Char) : Option (Condition × List Char) :=
  (Text.after? "defined".toList cs).bind fun rest =>
    (readDefinedName (skipGaps rest)).map fun (name, rest) => (.defined name, rest)

def readNumber (cs : List Char) : Option (Condition × List Char) :=
  (Text.readInt64 (cs.takeWhile Text.isDigit)).map fun n => (.number n, cs.dropWhile Text.isDigit)

section Nested

variable (nested : ConditionReader Condition)

def readGroup : ConditionReader Condition
  | '(' :: inner =>
    (nested inner).bind fun (c, rest) => (Text.after? [')'] (skipGaps rest)).map fun rest => (c, rest)
  | _ => none

/-- A part without operators; `fuel` bounds its signs. -/
def readAtomFrom : (fuel : Nat) → ConditionReader Condition
  | 0, _ => none
  | fuel + 1, cs =>
    let cs := skipGaps cs
    let signed (sign : Char) (make : Condition → Condition) : Option (Condition × List Char) :=
      (Text.after? [sign] cs).bind fun rest =>
        (readAtomFrom fuel rest).map fun (c, rest) => (make c, rest)
    readDefined cs <|> readNumber cs <|> readGroup nested cs <|> signed '!' .not <|> signed '-' .neg
      <|> (readWord cs).map fun (name, rest) => (.value name, rest)

def readAtom (cs : List Char) : Option (Condition × List Char) :=
  readAtomFrom nested (cs.length + 1) cs

def readCompare (cs : List Char) : Option (Compare × List Char) :=
  Compare.all.findSome? fun op => (Text.after? op.text (skipGaps cs)).map fun rest => (op, rest)

def readCompareRest (cs : List Char) : Option ((Compare × Condition) × List Char) :=
  (readCompare cs).bind fun (op, rest) =>
    (readAtom nested rest).map fun (c, rest) => ((op, c), rest)

/-- A part, or two that are compared. -/
def readComparison (cs : List Char) : Option (Condition × List Char) :=
  (readAtom nested cs).map fun (a, rest) =>
    match readCompareRest nested rest with
    | some ((op, b), rest) => (.compare op a b, rest)
    | none => (a, rest)

/-- Further parts, joined from the left. -/
def joinFrom (operator : List Char) (make : Condition → Condition → Condition)
    (part : ConditionReader Condition) : (fuel : Nat) → Condition → List Char →
    Condition × List Char
  | 0, c, cs => (c, cs)
  | fuel + 1, c, cs =>
    match (Text.after? operator (skipGaps cs)).bind part with
    | some (d, rest) => joinFrom operator make part fuel (make c d) rest
    | none => (c, cs)

/-- Parts joined by one operator. -/
def readJoined (operator : List Char) (make : Condition → Condition → Condition)
    (part : ConditionReader Condition) (cs : List Char) : Option (Condition × List Char) :=
  (part cs).map fun (c, rest) => joinFrom operator make part rest.length c rest

def readAnd (cs : List Char) : Option (Condition × List Char) :=
  readJoined ['&', '&'] .and (readComparison nested) cs

def readOr (cs : List Char) : Option (Condition × List Char) :=
  readJoined ['|', '|'] .or (readAnd nested) cs

end Nested

/-- A condition with fewer than `fuel` parentheses around a part. -/
def readConditionFrom : (fuel : Nat) → ConditionReader Condition
  | 0, _ => none
  | fuel + 1, cs => readOr (readConditionFrom fuel) cs

/-- The condition that a whole text is. -/
def Condition.ofText? (text : List Char) : Option Condition :=
  match readConditionFrom (text.length + 1) (skipGaps text) with
  | some (c, rest) => if (skipGaps rest).isEmpty then some c else none
  | none => none

end ShaderCompose.Preprocess
