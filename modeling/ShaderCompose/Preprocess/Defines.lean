import ShaderCompose.Request.Basic
import ShaderCompose.Text.Blank
import ShaderCompose.Text.Integer

/-!
Definitions in force at a line, and their substitution. A line is scanned until nothing is replaced
any more.
-/

namespace ShaderCompose.Preprocess

/-- Names with their texts, the latest first. -/
abbrev Defines := List (String × String)

namespace Defines

/-- The definitions of a request. -/
def ofMacros (macros : List MacroDef) : Defines := (macros.map fun m => (m.name, m.text)).reverse

def has (ds : Defines) (name : String) : Bool := (ds.lookup name).isSome

def define (ds : Defines) (name text : String) : Defines := (name, text) :: ds

def undefine (ds : Defines) (name : String) : Defines := ds.filter fun d => d.1 != name

end Defines

def isWordChar (c : Char) : Bool := Text.isAsciiLetter c || Text.isDigit c || c == '_'

def isWordStart (c : Char) : Bool := Text.isAsciiLetter c || c == '_'

/-- What a scan is inside of. -/
inductive ScanMode where
  | plain
  | quoted
  | number
  | word (read : List Char)
  deriving DecidableEq, Repr, Inhabited

namespace ScanMode

/-- The mode that a character starts. -/
def enter (c : Char) : ScanMode :=
  if c = '"' then quoted
  else if isWordStart c then word [c]
  else if Text.isDigit c then number
  else plain

/-- The mode after one more character. -/
def next : ScanMode → Char → ScanMode
  | plain, c => enter c
  | quoted, c => if c = '"' then plain else quoted
  | number, c => if isWordChar c || c == '.' then number else enter c
  | word read, c => if isWordChar c then word (read ++ [c]) else enter c

end ScanMode

/-- The text for a word, and whether there is one. -/
def replaceWord (ds : Defines) (read : List Char) : List Char × Bool :=
  match ds.lookup (String.ofList read) with
  | some text => (text.toList, true)
  | none => (read, false)

/-- What a word that ends here is written as. -/
def leave (ds : Defines) : (mode next : ScanMode) → List Char × Bool
  | .word _, .word _ => ([], false)
  | .word read, _ => replaceWord ds read
  | _, _ => ([], false)

/-- A character outside of words is written itself. -/
def keep (c : Char) : ScanMode → List Char
  | .word _ => []
  | _ => [c]

/-- One pass over a line, and whether it replaced a word. -/
def scan (ds : Defines) : ScanMode → List Char → List Char × Bool
  | .word read, [] => replaceWord ds read
  | _, [] => ([], false)
  | mode, c :: cs =>
    let next := mode.next c
    let (ended, replaced) := leave ds mode next
    let (rest, changed) := scan ds next cs
    (ended ++ keep c next ++ rest, replaced || changed)

/-- Passes until nothing changes. -/
def substituteFrom (ds : Defines) : (passes : Nat) → List Char → List Char
  | 0, line => line
  | passes + 1, line =>
    match scan ds .plain line with
    | (out, true) => substituteFrom ds passes out
    | (_, false) => line

/-- How often a line is scanned at most. -/
def maxPasses : Nat := 8

def substitute (ds : Defines) (line : List Char) : List Char := substituteFrom ds maxPasses line

end ShaderCompose.Preprocess
