import ShaderCompose.CommandLine.Arguments
import ShaderCompose.Hlsl.Shader
import ShaderCompose.Report.Compilation
import ShaderCompose.Request.Reader

/-!
What the command line prints, as a function of its arguments and of the files at hand.
-/

namespace ShaderCompose.CommandLine

/-- What a run writes, and its exit code. -/
structure Printed where
  stdout : String := ""
  stderr : String := ""
  code : Nat := 0
  deriving DecidableEq, Repr, Inhabited

/-- A run that ends with an error message. -/
def failure (message : String) : Printed := { stderr := "Error: " ++ message ++ "\n", code := 1 }

def storeOf (files : Files) (directories : List String) : SourceStore :=
  directories.foldl SourceStore.addLookup { files }

/-- An outcome as the chosen output shows it. -/
def printOutcome (output : Output) (o : Outcome) : Printed :=
  match output with
  | .log => {}
  | .hlsl =>
    match o.shader with
    | some shader => { stdout := Hlsl.shader o.reflection shader }
    | none => failure "no shader was produced"
  | .json =>
    match o.reflection with
    | some r => { stdout := (Report.compilation o r).text }
    | none => failure "no reflection was produced"

def compile (store : SourceStore) (macros : List MacroDef) (request : String) (output : Output) :
    Printed :=
  match Request.ofText request with
  | .error malformed => failure malformed.message
  | .ok r =>
    let engine : Engine := { library := { store } }
    let (outcome, _) := engine.compile r macros
    let printed :=
      if outcome.log.hasErrors then failure (r.text ++ " failed to compile")
      else printOutcome output outcome
    { printed with stderr := outcome.log.text ++ printed.stderr }

def preprocess (store : SourceStore) (macros : List MacroDef) (cls : String) : Printed :=
  match store.fetch cls with
  | .error e => failure e.message
  | .ok file =>
    match preprocessedText store macros file with
    | .error e => failure e.message
    | .ok text => { stdout := text }

def run (files : Files) : Command → Printed
  | .compile directories macros request output =>
    compile (storeOf files directories) macros request output
  | .preprocess directories macros cls => preprocess (storeOf files directories) macros cls

def usageFailure (e : UsageError) : Printed :=
  { stderr := "error: " ++ e.message ++ "\n", code := 2 }

end ShaderCompose.CommandLine
