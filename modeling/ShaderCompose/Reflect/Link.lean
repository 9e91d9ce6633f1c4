import ShaderCompose.Reflect.Layout
import ShaderCompose.Reflect.Sampler

/-!
Linking: the declarations of a shader are put in order, its resources are bound to register slots
and its values are placed in constant buffers. Slots are given out one after another.
-/

namespace ShaderCompose

/-- Structures, then variables, buffers and methods. -/
def DeclKind.rank : DeclKind → Nat
  | .struct .. => 0
  | .var .. => 1
  | .buffer .. => 2
  | .method .. => 3

/-- Those of one kind keep their order. -/
def Shader.order (s : Shader) : Shader :=
  let ofRank (rank : Nat) : List DeclId :=
    s.declarations.filter fun id => (s.table[id]?).any fun d => d.kind.rank == rank
  { s with declarations := ofRank 0 ++ ofRank 1 ++ ofRank 2 ++ ofRank 3 }

namespace Link

open Layout

/-- What is bound so far, and the next free slots. -/
structure State where
  reflection : Reflection := {}
  free : RegisterClass → Nat := fun _ => 0
  log : Log := []

namespace State

def report (s : State) (d : Diagnostic) : State := { s with log := s.log ++ [d] }

def bind (s : State) (b : ResourceBinding) : State :=
  { s with reflection := { s.reflection with bindings := s.reflection.bindings ++ [b] } }

/-- The next `count` slots of a class of registers. -/
def take? (s : State) (register : RegisterClass) (count : Nat) : Option (Nat × State) :=
  let slot := s.free register
  (word? (slot + count)).map fun next =>
    (slot, { s with free := fun r => if r = register then next else s.free r })

end State

/-- Keys are for parameters only. -/
def refuseKey (d : Decl) (s : State) : State :=
  if (d.attr? "Link").isSome then s.report (.errorAt d.loc (.cannotLink d.name)) else s

/-- The key that a parameter is bound by. -/
def key? (d : Decl) : Except Message String :=
  match d.attr? "Link" with
  | none => .ok d.name
  | some link =>
    match link.text?, link.args with
    | some key, [_] => .ok key
    | _, _ => .error (.linkArguments d.name)

/-- The slots of a resource, one for each element. -/
def takeSlots (type : TypeRef) (register : RegisterClass) (s : State) : Except LayoutError (Nat × Nat × State) := do
  let count := (← arrayLength type).getD 1
  let (slot, s) ← orError .tooLarge (s.take? register count)
  .ok (slot, count, s)

/-- The state of a sampler that has one. -/
def recordSampler (d : Decl) (key : String) (init : Option Initializer) (s : State) : State :=
  match init with
  | some (.state fields) =>
    let (state, log) := SamplerState.ofFields d.name fields
    { s with
      reflection := { s.reflection with samplers := s.reflection.samplers ++ [⟨key, state⟩] }
      log := s.log ++ log }
  | _ => s

def bindResource (d : Decl) (key : String) (type : TypeRef) (init : Option Initializer)
    (resource : ResourceType) (s : State) : State :=
  match takeSlots type resource.register s with
  | .error e => s.report (.errorAt d.loc (e.report d.name))
  | .ok (slot, count, s) =>
    (recordSampler d key init s).bind { key, rawName := d.name, type := .resource resource, slot, count }

/-- A value with what it needs. -/
def describe (structs : Structs) (d : Decl) (key : String) (type : TypeRef) :
    Except LayoutError (ValueMember × Placement) := do
  let shape ← orError .unknownType (shapeOf? structs type.name)
  let place ← placement structs type
  .ok ({ key, rawName := d.name, typeName := type.name, shape := shape.shape, type := shape.type
         rows := shape.rows, columns := shape.columns, elements := type.arrayLength?.getD 0
         offset := 0, size := place.size }, place)

/-- Bind a resource, or describe a value. -/
def addVariable (structs : Structs) (d : Decl) (s : State) : Option (ValueMember × Placement) × State :=
  match d.kind with
  | .var type _ init =>
    if d.quals.isUnlinked then (none, refuseKey d s)
    else
      match key? d with
      | .error message => (none, s.report (.errorAt d.loc message))
      | .ok key =>
        match ResourceType.ofName? type.name with
        | some resource => (none, bindResource d key type init resource s)
        | none =>
          match describe structs d key type with
          | .ok value => (some value, s)
          | .error e => (none, s.report (.errorAt d.loc (e.report d.name)))
  | _ => (none, s)

def addVariables (structs : Structs) : List Decl → State → List (ValueMember × Placement) × State
  | [], s => ([], s)
  | d :: ds, s =>
    let (value, s) := addVariable structs d s
    let (values, s) := addVariables structs ds s
    (value.toList ++ values, s)

/-- A buffer that is yet to be bound. -/
structure Pending where
  name : String
  loc : Option Span
  values : List (ValueMember × Placement)

/-- Place the values of a buffer and bind it. -/
def bindBuffer (s : State) (b : Pending) : State :=
  let tooLarge (name : String) : Diagnostic := ⟨.error, b.loc, .parameterTooLarge name⟩
  match packFrom 0 b.values with
  | .error name => s.report (tooLarge name)
  | .ok (members, stop) =>
    match s.take? .constantBuffer 1 with
    | none => s.report (tooLarge b.name)
    | some (slot, s) =>
      match align? stop with
      | none => s.report (tooLarge b.name)
      | some size =>
        let s := s.bind { key := b.name, rawName := b.name, type := .constantBuffer, slot, count := 1 }
        { s with
          reflection := { s.reflection with buffers := s.reflection.buffers ++ [⟨b.name, size, members⟩] } }

/-- Of two with one name the later one counts. -/
def structsOf (s : Shader) : Structs :=
  (s.decls.filterMap fun d =>
    match d.kind with
    | .struct fields => some (d.name, fields)
    | _ => none).reverse

/-- The buffers of a shader with their values. -/
def addBuffers (structs : Structs) (shader : Shader) : List Decl → State → List Pending × State
  | [], s => ([], s)
  | d :: ds, s =>
    match d.kind with
    | .buffer _ members =>
      let (values, s) := addVariables structs (shader.select members) s
      let (rest, s) := addBuffers structs shader ds s
      (⟨d.name, some d.loc, values⟩ :: rest, s)
    | _ => addBuffers structs shader ds s

/-- The shader in order, and its reflection. -/
def link (shader : Shader) : Shader × Reflection × Log :=
  let shader := shader.order
  let structs := structsOf shader
  let s : State := (shader.decls.filter Decl.isStruct).foldl (fun s d => refuseKey d s) {}
  let (globals, s) := addVariables structs (shader.decls.filter Decl.isVar) s
  let (buffers, s) := addBuffers structs shader shader.decls s
  let s := shader.methods.foldl (fun s d => refuseKey d s) s
  let loose : List Pending :=
    if globals.isEmpty then [] else [⟨Reflection.globalsName, none, globals⟩]
  let s := (loose ++ buffers).foldl bindBuffer s
  (shader, s.reflection, s.log)

end Link

end ShaderCompose
