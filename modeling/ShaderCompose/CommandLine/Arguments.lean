import ShaderCompose.Request.Basic

/-!
The arguments of the command line. Options are split off first and then read by name.
-/

namespace ShaderCompose.CommandLine

/-- What the compile command prints. -/
inductive Output where
  | hlsl
  | json
  | log
  deriving DecidableEq, Repr, Inhabited

def Output.ofName? : String → Option Output
  | "hlsl" => some hlsl
  | "json" => some json
  | "log" => some log
  | _ => none

/-- A command with its options. -/
inductive Command where
  | compile (directories : List String) (macros : List MacroDef) (request : String) (output : Output)
  | preprocess (directories : List String) (macros : List MacroDef) (cls : String)
  deriving Repr, Inhabited

def Command.directories : Command → List String
  | compile directories .. | preprocess directories .. => directories

/-- Why a command line is refused. -/
inductive UsageError where
  | noCommand
  | unknownCommand (name : String)
  | unexpected (argument : String)
  | noValue (option : String)
  | invalidValue (option value : String)
  | repeated (option : String)
  | missing (option : String)
  deriving DecidableEq, Repr, Inhabited

def UsageError.message : UsageError → String
  | noCommand => "a command is required: compile or preprocess"
  | unknownCommand name => s!"unrecognized command '{name}'"
  | unexpected argument => s!"unexpected argument '{argument}'"
  | noValue option => s!"a value is required for '--{option}'"
  | invalidValue option value => s!"invalid value '{value}' for '--{option}'"
  | repeated option => s!"'--{option}' cannot be used more than once"
  | missing option => s!"'--{option}' is required"

/-- The two spellings of an option. -/
structure OptionName where
  long : String
  letter : Char
  deriving DecidableEq, Repr, Inhabited

/-- A value in the same argument as its option. -/
def attachedValue : List Char → Option String
  | [] => none
  | '=' :: rest => some (String.ofList rest)
  | rest => some (String.ofList rest)

/-- The option an argument names, with an attached value. -/
def optionOf? (known : List OptionName) (argument : String) : Option (OptionName × Option String) :=
  match argument.toList with
  | '-' :: '-' :: rest =>
    let name := rest.takeWhile (· != '=')
    (known.find? fun o => o.long.toList == name).map fun o =>
      (o, attachedValue (rest.drop name.length))
  | '-' :: letter :: rest => (known.find? fun o => o.letter == letter).map fun o => (o, attachedValue rest)
  | _ => none

def isValue (argument : String) : Bool := argument == "-" || !argument.startsWith "-"

/-- The options of a command line with their values. -/
def readOptions (known : List OptionName) : List String → Except UsageError (List (String × String))
  | [] => .ok []
  | argument :: rest =>
    match optionOf? known argument with
    | none => .error (.unexpected argument)
    | some (o, some value) => do
      let more ← readOptions known rest
      .ok ((o.long, value) :: more)
    | some (o, none) =>
      match rest with
      | [] => .error (.noValue o.long)
      | value :: rest =>
        if isValue value then do
          let more ← readOptions known rest
          .ok ((o.long, value) :: more)
        else .error (.noValue o.long)

def valuesOf (options : List (String × String)) (name : String) : List String :=
  (options.filter fun o => o.1 == name).map (·.2)

def valueOf (options : List (String × String)) (name : String) : Except UsageError (Option String) :=
  match valuesOf options name with
  | [] => .ok none
  | [value] => .ok (some value)
  | _ => .error (.repeated name)

def requiredValue (options : List (String × String)) (name : String) : Except UsageError String := do
  match ← valueOf options name with
  | some value => .ok value
  | none => .error (.missing name)

/-- A definition `name=value` or `name`. -/
def macroOf (text : String) : Except UsageError MacroDef :=
  let name := text.toList.takeWhile (· != '=')
  if name.isEmpty then .error (.invalidValue "define" text)
  else .ok ⟨String.ofList name, String.ofList (text.toList.drop (name.length + 1))⟩

def commonOptions (options : List (String × String)) : Except UsageError (List String × List MacroDef) := do
  let directories := valuesOf options "include"
  if directories.contains "" then .error (.noValue "include")
  else
    let macros ← (valuesOf options "define").mapM macroOf
    .ok (directories, macros)

def outputOf (options : List (String × String)) : Except UsageError Output := do
  match ← valueOf options "output" with
  | none => .ok .hlsl
  | some name =>
    match Output.ofName? name with
    | some output => .ok output
    | none => .error (.invalidValue "output" name)

/-- The command that the arguments ask for. -/
def Command.ofArguments : List String → Except UsageError Command
  | [] => .error .noCommand
  | "compile" :: rest => do
    let options ← readOptions [⟨"include", 'i'⟩, ⟨"define", 'd'⟩, ⟨"source", 's'⟩, ⟨"output", 'o'⟩] rest
    let (directories, macros) ← commonOptions options
    let source ← requiredValue options "source"
    let output ← outputOf options
    .ok (.compile directories macros source output)
  | "preprocess" :: rest => do
    let options ← readOptions [⟨"include", 'i'⟩, ⟨"define", 'd'⟩, ⟨"shader", 's'⟩] rest
    let (directories, macros) ← commonOptions options
    let cls ← requiredValue options "shader"
    .ok (.preprocess directories macros cls)
  | name :: _ => .error (.unknownCommand name)

end ShaderCompose.CommandLine
