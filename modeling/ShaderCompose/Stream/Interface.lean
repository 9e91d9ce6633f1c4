import ShaderCompose.Shader.Entry
import ShaderCompose.Stream.Usage
import ShaderCompose.Text.Blank

/-!
Inputs and outputs of the stages. An entry point copies its input into the stream variables, and
these into its output at every exit.
-/

namespace ShaderCompose.Stream

/-- A stream variable of the mixed shader. -/
structure StreamVar where
  id : DeclId
  global : String
  type : TypeRef
  semantic : Option String
  loc : Span
  deriving Repr, Inhabited

def upperCase (s : String) : String := String.ofList (s.toList.map Char.toUpper)

namespace StreamVar

/-- The name of a stream in a structure. -/
def field (v : StreamVar) : String :=
  match Text.after? "streams_".toList v.global.toList with
  | some rest => String.ofList rest
  | none => v.global

def upperSemantic (v : StreamVar) : String := (v.semantic.map upperCase).getD ""

def isPosition (v : StreamVar) : Bool := v.upperSemantic == "SV_POSITION"

/-- What a pixel stage may put out. -/
def isPixelOutput (v : StreamVar) : Bool :=
  let s := v.upperSemantic
  s.startsWith "SV_TARGET" || s.startsWith "SV_DEPTH" || s == "SV_COVERAGE"

/-- With `generate`, a field without a semantic gets one. -/
def toField (v : StreamVar) (generate : Bool) : Param where
  name := v.field
  type := v.type
  semantic := v.semantic <|> if generate then some (upperCase v.field ++ "_SEM") else none
  loc := v.loc

end StreamVar

/-- The streams of a shader, in order. -/
def streamVars (shader : Shader) : List StreamVar :=
  shader.entries.filterMap fun (id, d) =>
    match d.kind with
    | .var type semantic _ =>
      if d.quals.stream then some { id, global := d.name, type, semantic, loc := d.loc } else none
    | _ => none

/-- Streams by name; the later of two counts. -/
def streamIndex (vars : List StreamVar) : StreamIndex :=
  (vars.zipIdx.map fun (v, i) => (v.global, i)).reverse

/-- A structure of streams. -/
structure StreamStruct where
  name : String
  streams : List Nat
  deriving DecidableEq, Repr, Inhabited

def StreamStruct.make? (name : String) (streams : List Nat) : Option StreamStruct :=
  if streams.isEmpty then none else some ⟨name, streams⟩

/-- What an entry point takes and gives. -/
structure EntryPlan where
  entry : String
  input : Option StreamStruct
  sharedInput : Bool
  output : Option StreamStruct
  generateSemantics : Bool
  deriving Repr, Inhabited

/-- The method leaves its output to streams. -/
def returnsVoid (shader : Shader) (name : String) : Bool :=
  match (shader.methods.find? fun m => m.name == name).map Decl.kind with
  | some (.method returns _ _ _) => returns.isVoid
  | _ => false

/-- The vertex stage puts out what the pixel stage reads. -/
def feed (vars : List StreamVar) (vs ps : Usage) : Usage :=
  let passed := ps.inputs.filter fun s => !vs.outputs.contains s
  let outputs := vs.outputs ++ passed
  { vs with
    inputs := vs.inputs ++ passed.filter fun s => !vs.inputs.contains s
    outputs := outputs.filter fun s =>
      ps.inputs.contains s || (vars[s]?).any StreamVar.isPosition }

/-- Only a method without a value puts out streams. -/
def outputStruct? (shader : Shader) (entry name : String) (streams : List Nat) :
    Option StreamStruct :=
  if returnsVoid shader entry then StreamStruct.make? name streams else none

def planCompute (entry : String) (usage : Usage) : EntryPlan :=
  { entry, input := StreamStruct.make? "CS_INPUT" usage.inputs, sharedInput := false, output := none
    generateSemantics := false }

def planVertex (shader : Shader) (entry : String) (usage : Usage) : EntryPlan :=
  { entry, input := StreamStruct.make? "VS_INPUT" usage.inputs, sharedInput := false
    output := outputStruct? shader entry "VS_OUTPUT" usage.outputs, generateSemantics := true }

/-- The input is what the vertex stage puts out. -/
def planPixel (shader : Shader) (entry : String) (usage : Usage) (vertexOutput : Option StreamStruct) : EntryPlan :=
  { entry, input := vertexOutput <|> StreamStruct.make? "PS_INPUT" usage.inputs
    sharedInput := vertexOutput.isSome
    output := outputStruct? shader entry "PS_OUTPUT" usage.outputs, generateSemantics := false }

/-- Only what the pixel stage may put out counts. -/
def pixelUsage (vars : List StreamVar) (u : Usage) : Usage :=
  { u with outputs := u.outputs.filter fun s => (vars[s]?).any StreamVar.isPixelOutput }

/-- The plans of all entry points. -/
def plans (shader : Shader) (vars : List StreamVar) (entries : EntryPoints) : List EntryPlan × Log :=
  let usage := usageOf shader (streamIndex vars)
  match entries.get? .compute with
  | some entry =>
    let u := usage entry
    ([planCompute entry u], u.log)
  | none =>
    match entries.get? .vertex, entries.get? .pixel with
    | none, none => ([], [])
    | some vertex, none =>
      let vs := usage vertex
      ([planVertex shader vertex vs], vs.log)
    | none, some pixel =>
      let ps := pixelUsage vars (usage pixel)
      ([planPixel shader pixel ps none], ps.log)
    | some vertex, some pixel =>
      let vs := usage vertex
      let ps := pixelUsage vars (usage pixel)
      let plan := planVertex shader vertex (feed vars vs ps)
      ([plan, planPixel shader pixel ps plan.output], vs.log ++ ps.log)

/-! ## Entry points over their structures -/

def inputName : String := "__input__"

def outputName : String := "__output__"

def nameExpr (name : String) : Expr := .ident .generated name

def memberExpr (target name : String) : Expr := .member .generated (nameExpr target) name

def assignStmt (target value : Expr) : Stmt :=
  .simple Stmt.generatedLead (.expr (.assign .generated none target value))

mutual

/-- Returns without a value become the given exit. -/
def closeReturns (exit : List Stmt) : Stmt → Stmt
  | .ret lead none => .block lead exit
  | .ret lead (some value) => .ret lead (some value)
  | .block lead body => .block lead (closeAll exit body)
  | .ifThen lead condition yes => .ifThen lead condition (closeReturns exit yes)
  | .ifElse lead condition yes no =>
    .ifElse lead condition (closeReturns exit yes) (closeReturns exit no)
  | .forLoop lead init condition step body =>
    .forLoop lead init condition step (closeReturns exit body)
  | .whileLoop lead condition body => .whileLoop lead condition (closeReturns exit body)
  | .forEach lead name collection body => .forEach lead name collection (closeReturns exit body)
  | .simple lead what => .simple lead what
  | .breakLoop lead => .breakLoop lead
  | .continueLoop lead => .continueLoop lead
  | .discard lead => .discard lead
  | .empty lead => .empty lead

def closeAll (exit : List Stmt) : List Stmt → List Stmt
  | [] => []
  | s :: ss => closeReturns exit s :: closeAll exit ss

end

def isBareReturn : Stmt → Bool
  | .ret _ none => true
  | _ => false

/-- A return at the end is no exit of its own. -/
def dropLastReturn (body : List Stmt) : List Stmt :=
  if body.getLast?.any isBareReturn then body.dropLast else body

/-- The streams with these numbers. -/
def pick (vars : List StreamVar) (streams : List Nat) : List StreamVar :=
  streams.filterMap fun s => vars[s]?

/-- Copy the input into the streams. -/
def loadInput (vars : List StreamVar) (s : StreamStruct) : List Stmt :=
  (pick vars s.streams).map fun v => assignStmt (nameExpr v.global) (memberExpr inputName v.field)

/-- Copy the streams into the output and return it. -/
def storeOutput (vars : List StreamVar) (s : StreamStruct) : List Stmt :=
  (pick vars s.streams).map (fun v =>
    assignStmt (memberExpr outputName v.field) (nameExpr v.global)) ++
    [.ret Stmt.generatedLead (some (nameExpr outputName))]

/-- Input first, output at every exit. -/
def planBody (vars : List StreamVar) (plan : EntryPlan) (body : List Stmt) : List Stmt :=
  let load := (plan.input.map (loadInput vars)).getD []
  match plan.output with
  | none => load ++ body
  | some output =>
    let exit := storeOutput vars output
    let declare : Stmt := .simple Stmt.generatedLead (.declare {} { name := output.name } outputName none)
    load ++ declare :: (closeAll exit (dropLastReturn body) ++ exit)

def planMethod (vars : List StreamVar) (plan : EntryPlan) (d : Decl) : Decl :=
  match d.kind with
  | .method returns params semantic (some body) =>
    let input := plan.input.toList.map fun s : StreamStruct =>
      { name := inputName, type := { name := s.name }, loc := .generated : Param }
    let returns := match plan.output with
      | some s => { name := s.name }
      | none => returns
    let semantic := if plan.output.isSome then none else semantic
    { d with kind := .method returns (params ++ input) semantic (some (planBody vars plan body)) }
  | _ => d

def structDecl (vars : List StreamVar) (generate : Bool) (s : StreamStruct) : Decl where
  name := s.name
  loc := .generated
  kind := .struct ((pick vars s.streams).map fun v => v.toField generate)

def planStructs (vars : List StreamVar) (plan : EntryPlan) : List Decl :=
  (if plan.sharedInput then [] else plan.input.toList.map (structDecl vars true)) ++
    plan.output.toList.map (structDecl vars plan.generateSemantics)

/-- Change one entry point and add its structures. -/
def applyPlan (vars : List StreamVar) (state : Shader × List DeclId) (plan : EntryPlan) : Shader × List DeclId :=
  let (shader, structs) := state
  let made := planStructs vars plan
  let ids := List.range' shader.table.size made.length
  let shader := { shader with table := shader.table ++ made.toArray }
  let shader := match shader.entries.find? fun e => e.2.isMethod && e.2.name == plan.entry with
    | some (id, _) => shader.modify id (planMethod vars plan)
    | none => shader
  (shader, structs ++ ids)

/-- A stream becomes a static variable. -/
def retire (d : Decl) : Decl :=
  { d with
    quals := { d.quals with stream := false, static := true }
    kind := match d.kind with
      | .var type _ init => .var type none init
      | kind => kind }

def unsupportedStages : List Stage := [.hull, .domain, .geometry]

/-- Give every entry point its interface. -/
def create (shader : Shader) (entries : EntryPoints) : Shader × Log :=
  let vars := streamVars shader
  let unsupported := unsupportedStages.filter fun stage => (entries.get? stage).isSome
  let warnings : Log :=
    if vars.isEmpty then []
    else unsupported.map fun stage => .warning (.streamsNotGenerated stage)
  let (planned, log) :=
    if vars.isEmpty || !unsupported.isEmpty then ([], []) else plans shader vars entries
  let (shader, structs) := planned.foldl (applyPlan vars) (shader, [])
  let shader := { shader with declarations := structs ++ shader.declarations }
  ((vars.map StreamVar.id).foldl (fun s id => s.modify id retire) shader, warnings ++ log)

end ShaderCompose.Stream
