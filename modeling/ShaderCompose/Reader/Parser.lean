import ShaderCompose.Reader.LineMap

/-!
Parsers over a cursor. A parser that misses lets another one try; one that fails ends the reading.
-/

namespace ShaderCompose.Reader

/-- The text ahead, and where it stands. -/
structure Cursor where
  rest : List Char
  line : Nat
  column : Nat
  lines : LineMap
  deriving Inhabited

namespace Cursor

def start (file : String) (text : List Char) : Cursor := ⟨text, 1, 1, .ofText file text⟩

def span (c : Cursor) : Span := c.lines.span c.line c.column

/-- Go on by `n` characters. -/
def drop : (n : Nat) → Cursor → Cursor
  | 0, c => c
  | n + 1, c =>
    match c.rest with
    | [] => c
    | '\n' :: rest => drop n { c with rest, line := c.line + 1, column := 1 }
    | _ :: rest => drop n { c with rest, column := c.column + 1 }

/-- The text between two cursors. -/
def upTo (c later : Cursor) : List Char := c.rest.take (c.rest.length - later.rest.length)

@[simp]
theorem rest_drop (n : Nat) (c : Cursor) : (c.drop n).rest = c.rest.drop n := by
  induction n generalizing c with
  | zero => rfl
  | succ n ih =>
    rw [drop]
    split <;> rename_i h <;> simp [h, ih]

end Cursor

/-- What a parser gives. -/
inductive Outcome (α : Type) where
  | ok (value : α) (rest : Cursor)
  | miss (place : Cursor)
  | fail (place : Cursor)

def Parser (α : Type) := Cursor → Outcome α

namespace Parser

variable {α β : Type}

def pure (a : α) : Parser α := fun c => .ok a c

/-- One parser after another. -/
def bind (p : Parser α) (f : α → Parser β) : Parser β := fun c =>
  match p c with
  | .ok a rest => f a rest
  | .miss place => .miss place
  | .fail place => .fail place

instance : Monad Parser where
  pure := Parser.pure
  bind := Parser.bind

def miss : Parser α := fun c => .miss c

/-- The second parser where the first one misses. -/
def orElse (p q : Parser α) : Parser α := fun c =>
  match p c with
  | .miss _ => q c
  | outcome => outcome

/-- The first parser that does not miss. -/
def oneOf : List (Parser α) → Parser α
  | [] => miss
  | [p] => p
  | p :: ps => orElse p (oneOf ps)

/-- Nothing is read where the parser misses. -/
def optional (p : Parser α) : Parser (Option α) := fun c =>
  match p c with
  | .ok a rest => .ok (some a) rest
  | .miss _ => .ok none c
  | .fail place => .fail place

/-- A miss becomes a failure. -/
def must (p : Parser α) : Parser α := fun c =>
  match p c with
  | .miss place => .fail place
  | outcome => outcome

/-- The next character is none of these. -/
def notNext (p : Char → Bool) : Parser Unit := fun c =>
  match c.rest with
  | [] => .ok () c
  | ch :: _ => if p ch then .miss c else .ok () c

/-- Miss what `f` refuses. -/
def filterMap (p : Parser α) (f : α → Option β) : Parser β := fun c =>
  match p c with
  | .ok a rest =>
    match f a with
    | some b => .ok b rest
    | none => .miss c
  | .miss place => .miss place
  | .fail place => .fail place

/-- The text that a parser reads. -/
def recognize (p : Parser α) : Parser (List Char) := fun c =>
  match p c with
  | .ok _ rest => .ok (c.upTo rest) rest
  | .miss place => .miss place
  | .fail place => .fail place

def tag (text : List Char) : Parser Unit := fun c =>
  match Text.after? text c.rest with
  | some _ => .ok () (c.drop text.length)
  | none => .miss c

def takeWhile (p : Char → Bool) : Parser (List Char) := fun c =>
  let taken := c.rest.takeWhile p
  .ok taken (c.drop taken.length)

def takeWhile1 (p : Char → Bool) : Parser (List Char) := fun c =>
  match c.rest.takeWhile p with
  | [] => .miss c
  | taken => .ok taken (c.drop taken.length)

def satisfy (p : Char → Bool) : Parser Char := fun c =>
  match c.rest with
  | ch :: _ => if p ch then .ok ch (c.drop 1) else .miss c
  | [] => .miss c

def atEnd : Parser Unit := fun c => if c.rest.isEmpty then .ok () c else .miss c

/-- Repetitions, until one misses or reads nothing. -/
def manyFrom (p : Parser α) : (fuel : Nat) → Parser (List α)
  | 0, c => .ok [] c
  | fuel + 1, c =>
    match p c with
    | .ok a rest =>
      match manyFrom p fuel rest with
      | .ok as last => .ok (a :: as) last
      | .miss place => .miss place
      | .fail place => .fail place
    | .miss _ => .ok [] c
    | .fail place => .fail place

def many (p : Parser α) : Parser (List α) := fun c => manyFrom p c.rest.length c

/-- One or more parts. -/
def separated1 (separator : Parser Unit) (p : Parser α) : Parser (List α) := do
  let first ← p
  let others ← many (do separator; p)
  return first :: others

def separated (separator : Parser Unit) (p : Parser α) : Parser (List α) := do
  let parts ← optional (separated1 separator p)
  return parts.getD []

end Parser

end ShaderCompose.Reader
