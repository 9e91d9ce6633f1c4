/-!
The qualifiers of a declaration, parameter or local variable: how it is stored, and what mixing does
with it.
-/

namespace ShaderCompose

structure Qualifiers where
  stage : Bool := false
  stream : Bool := false
  compose : Bool := false
  static : Bool := false
  const : Bool := false
  groupshared : Bool := false
  override : Bool := false
  abstract : Bool := false
  clone : Bool := false
  input : Bool := false
  output : Bool := false
  deriving DecidableEq, Repr, Inhabited

namespace Qualifiers

/-- The qualifiers that a keyword stands for. -/
def ofKeyword? : String → Option Qualifiers
  | "stage" => some { stage := true }
  | "stream" => some { stream := true }
  | "compose" => some { compose := true }
  | "static" => some { static := true }
  | "const" => some { const := true }
  | "groupshared" => some { groupshared := true }
  | "override" => some { override := true }
  | "abstract" => some { abstract := true }
  | "clone" => some { clone := true }
  | "inout" => some { input := true, output := true }
  | "in" => some { input := true }
  | "out" => some { output := true }
  | _ => none

def union (a b : Qualifiers) : Qualifiers where
  stage := a.stage || b.stage
  stream := a.stream || b.stream
  compose := a.compose || b.compose
  static := a.static || b.static
  const := a.const || b.const
  groupshared := a.groupshared || b.groupshared
  override := a.override || b.override
  abstract := a.abstract || b.abstract
  clone := a.clone || b.clone
  input := a.input || b.input
  output := a.output || b.output

/-- The keywords of a set, in a fixed order. -/
def keywords (q : Qualifiers) : List String :=
  [(q.stage, "stage"), (q.stream, "stream"), (q.compose, "compose"), (q.static, "static"),
   (q.const, "const"), (q.groupshared, "groupshared"), (q.override, "override"),
   (q.abstract, "abstract"), (q.clone, "clone"), (q.input && q.output, "inout"),
   (q.input && !q.output, "in"), (q.output && !q.input, "out")].filterMap fun (has, keyword) =>
    if has then some keyword else none

/-- Without what has a meaning for mixing only. -/
def mixed (q : Qualifiers) : Qualifiers :=
  { q with
    stage := false, stream := false, compose := false, override := false, abstract := false
    clone := false }

/-- Variables that are no parameters of the shader. -/
def isUnlinked (q : Qualifiers) : Bool := q.static || q.const || q.groupshared

end Qualifiers

end ShaderCompose
