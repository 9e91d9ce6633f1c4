import ShaderCompose.Text.Integer

/-!
Trees of data as they are written in reports: one entry on a line, two spaces deeper than what holds
it.
-/

namespace ShaderCompose

/-- A tree of data. -/
inductive Json where
  | null
  | number (text : String)
  | string (value : String)
  | array (items : List Json)
  | object (fields : List (String × Json))
  deriving Repr, Inhabited

namespace Json

def nat (n : Nat) : Json := number (String.ofList (Text.natDigits n))

def escape (c : Char) : List Char :=
  match c with
  | '"' => ['\\', '"']
  | '\\' => ['\\', '\\']
  | '\n' => ['\\', 'n']
  | '\r' => ['\\', 'r']
  | '\t' => ['\\', 't']
  | c =>
    if c.toNat = 8 then ['\\', 'b']
    else if c.toNat = 12 then ['\\', 'f']
    else if c.toNat < 32 then '\\' :: 'u' :: Text.hexDigits 4 c.toNat
    else [c]

def quote (s : String) : String :=
  "\"" ++ String.ofList (s.toList.flatMap escape) ++ "\""

def lineStart (depth : Nat) : String := "\n" ++ String.join (List.replicate depth "  ")

mutual

def textAt (depth : Nat) : Json → String
  | null => "null"
  | number text => text
  | string value => quote value
  | array [] => "[]"
  | array (item :: items) =>
    "[" ++ lineStart (depth + 1) ++ textAt (depth + 1) item ++ itemsText (depth + 1) items ++ lineStart depth ++ "]"
  | object [] => "\x7b\x7d"
  | object ((key, value) :: fields) =>
    "\x7b" ++ lineStart (depth + 1) ++ quote key ++ ": " ++ textAt (depth + 1) value ++
      fieldsText (depth + 1) fields ++ lineStart depth ++ "\x7d"

def itemsText (depth : Nat) : List Json → String
  | [] => ""
  | item :: items => "," ++ lineStart depth ++ textAt depth item ++ itemsText depth items

def fieldsText (depth : Nat) : List (String × Json) → String
  | [] => ""
  | (key, value) :: fields =>
    "," ++ lineStart depth ++ quote key ++ ": " ++ textAt depth value ++ fieldsText depth fields

end

def text (j : Json) : String := j.textAt 0

end Json

end ShaderCompose
