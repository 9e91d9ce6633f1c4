import ShaderCompose.Preprocess.Condition
import ShaderCompose.Preprocess.Include

/-!
Directives: conditional branches, definitions and demanded errors. Lines keep their numbers: one
that is skipped or acted on becomes empty.
-/

namespace ShaderCompose.Preprocess

/-- An open conditional. -/
structure Branch where
  parentActive : Bool
  active : Bool
  taken : Bool
  seenElse : Bool
  line : Nat
  deriving DecidableEq, Repr, Inhabited

/-- What is defined, and the open conditionals. -/
structure DirectiveState where
  defines : Defines
  branches : List Branch := []
  deriving Repr, Inhabited

namespace DirectiveState

/-- Lines are kept here. -/
def isActive (s : DirectiveState) : Bool :=
  match s.branches with
  | [] => true
  | b :: _ => b.active

end DirectiveState

def directive? (line : List Char) : Option (String × List Char) :=
  (Text.after? ['#'] (Text.trimStart line)).map fun rest =>
    let (name, rest) := Text.headWord (Text.trimStart rest)
    (String.ofList name, rest)

def evaluate (defines : Defines) (number : Nat) (text : List Char) : Except PreprocessError Int :=
  match Condition.ofText? text with
  | some c => .ok (c.eval defines)
  | none => .error (.malformed number (String.ofList text))

/-- Whether the first branch of a conditional is taken. -/
def opens (defines : Defines) (number : Nat) (name : String) (rest : List Char) :
    Except PreprocessError Bool :=
  match name with
  | "ifdef" => .ok (defines.has (String.ofList rest))
  | "ifndef" => .ok (!defines.has (String.ofList rest))
  | _ => (evaluate defines number rest).map (· != 0)

/-- The conditional that a further branch belongs to. -/
def DirectiveState.continue? (s : DirectiveState) (number : Nat) (name : String) :
    Except PreprocessError (Branch × List Branch) :=
  match s.branches with
  | b :: rest => if b.seenElse then .error (.unexpectedDirective number name) else .ok (b, rest)
  | [] => .error (.unexpectedDirective number name)

def definition? (rest : List Char) : Option (String × String) :=
  let (name, text) := Text.headWord rest
  if name.isEmpty || name.contains '(' then none else some (String.ofList name, String.ofList text)

/-- The effect of a directive, and what its line becomes. -/
def runDirective (s : DirectiveState) (number : Nat) (line : List Char) (name : String)
    (rest : List Char) : Except PreprocessError (DirectiveState × List Char) :=
  match name with
  | "if" | "ifdef" | "ifndef" => do
    let chosen ← if s.isActive then opens s.defines number name rest else .ok false
    let b : Branch :=
      { parentActive := s.isActive, active := chosen, taken := chosen, seenElse := false
        line := number }
    return ({ s with branches := b :: s.branches }, [])
  | "elif" => do
    let (b, outer) ← s.continue? number name
    if b.parentActive && !b.taken then
      let value ← evaluate s.defines number rest
      return ({ s with branches := { b with active := value != 0, taken := value != 0 } :: outer }, [])
    return ({ s with branches := { b with active := false } :: outer }, [])
  | "else" => do
    let (b, outer) ← s.continue? number name
    let b := { b with active := b.parentActive && !b.taken, taken := true, seenElse := true }
    return ({ s with branches := b :: outer }, [])
  | "endif" =>
    match s.branches with
    | _ :: outer => .ok ({ s with branches := outer }, [])
    | [] => .error (.unexpectedDirective number name)
  | _ =>
    if !s.isActive then .ok (s, [])
    else
      match name with
      | "define" =>
        match definition? rest with
        | some (name, text) => .ok ({ s with defines := s.defines.define name text }, [])
        | none => .error (.malformed number (String.ofList line))
      | "undef" => .ok ({ s with defines := s.defines.undefine (String.ofList rest) }, [])
      | "error" => .error (.demanded number (String.ofList rest))
      | _ => .ok (s, line)

def runLine (s : DirectiveState) (number : Nat) (line : List Char) :
    Except PreprocessError (DirectiveState × List Char) :=
  match directive? line with
  | some (name, rest) => runDirective s number line name rest
  | none => .ok (s, if s.isActive then substitute s.defines line else [])

/-- Every conditional must be closed at the end. -/
def runLines : DirectiveState → (number : Nat) → List (List Char) → Except PreprocessError (List Char)
  | s, _, [] =>
    match s.branches with
    | [] => .ok []
    | b :: _ => .error (.unclosed b.line)
  | s, number, line :: rest => do
    let (s, out) ← runLine s number line
    let below ← runLines s (number + 1) rest
    return asLine out ++ below

def runDirectives (macros : List MacroDef) (text : List Char) : Except PreprocessError (List Char) :=
  runLines { defines := .ofMacros macros } 1 (Text.lines text)

/-- A source with includes inlined and directives run. -/
def text (places : SearchPlaces) (macros : List MacroDef) (file : String) (path : Option String)
    (source : String) : Except PreprocessError String := do
  let expanded ← expandIncludes places file path source.toList
  let out ← runDirectives macros expanded
  return String.ofList out

end ShaderCompose.Preprocess
