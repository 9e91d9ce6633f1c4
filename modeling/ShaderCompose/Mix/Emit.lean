import ShaderCompose.Mix.Rename

/-!
Mixing: the members of all instances become the declarations of one shader. Shared members are
declared once, and builtins only where they are used.
-/

namespace ShaderCompose.Mix

/-- The shader so far, and what was declared by name. -/
structure Emitting where
  shader : Shader := {}
  buffers : List (String × DeclId) := []
  structs : List String := []
  streams : List String := []
  shared : List (String × String × DeclId) := []
  builtins : List (Nat × DeclId) := []
  waiting : List BuiltinRef := []
  builtinIds : List DeclId := []
  log : Log := []

namespace Emitting

def report (s : Emitting) (loc : Span) (message : Message) : Emitting :=
  { s with log := s.log ++ [.errorAt loc message] }

/-- Append an outer declaration. -/
def push (s : Emitting) (d : Decl) : DeclId × Emitting :=
  let (id, shader) := s.shader.alloc d
  (id, { s with shader := { shader with declarations := shader.declarations ++ [id] } })

/-- Append a declaration inside a buffer. -/
def pushMember (s : Emitting) (buffer : DeclId) (d : Decl) : Emitting :=
  let (id, shader) := s.shader.alloc d
  { s with
    shader := shader.modify buffer fun b =>
      match b.kind with
      | .buffer kind members => { b with kind := .buffer kind (members ++ [id]) }
      | _ => b }

/-- Note a builtin that is used for the first time. -/
def use (s : Emitting) (ref : BuiltinRef) : Emitting :=
  let key := (ref.1.id, ref.2)
  if s.builtins.contains key then s
  else { s with builtins := key :: s.builtins, waiting := s.waiting ++ [ref] }

/-- Rename in a declaration, and note the builtins it uses. -/
def rename (s : Emitting) (env : RenameEnv) (d : Decl) (start : RenameState) : Decl × Emitting :=
  let (d, t) := (env.decl d).run start
  (d, t.builtins.foldl use { s with log := s.log ++ t.log })

/-- Whether a shared name is free, and who has it from then on. -/
def claim (s : Emitting) (name : String) (cls : ShaderClass) (id : DeclId) (loc : Span) : Bool × Emitting :=
  match s.shared.lookup name with
  | none => (true, { s with shared := (name, cls.name, id) :: s.shared })
  | some owner =>
    if owner = (cls.name, id) then (false, s)
    else (false, s.report loc (.duplicateStageMember name))

end Emitting

/-- The attributes of a parameter, with its key among them. -/
def keyAttributes (attrs : List Attribute) (cls name suffix : String) : List Attribute :=
  let extend (a : Attribute) : Attribute :=
    match a.args with
    | .literal loc (.string key) :: rest => { a with args := .string loc (key ++ suffix) :: rest }
    | _ => a
  match attrs.findIdx? fun a => a.name == "Link" with
  | some position => attrs.modify position extend
  | none =>
    attrs ++ [{ name := "Link", args := [.string .generated (cls ++ "." ++ name ++ suffix)] }]

/-- A member of an instance, with all that renaming it needs. -/
structure Member where
  env : RenameEnv
  inst : MixInstance
  cls : ShaderClass
  ref : MemberRef
  decl : Decl

/-- Declare a variable, in a buffer if one is given. -/
def declareVariable (s : Emitting) (env : RenameEnv) (buffer : Option DeclId) (d : Decl) :
    Emitting :=
  let (d, s) := s.rename env d {}
  match buffer with
  | some buffer => s.pushMember buffer d
  | none => (s.push d).2

/-- Declare a member variable; slots and repeated streams are not. -/
def emitVariable (s : Emitting) (m : Member) (buffer : Option DeclId) : Emitting :=
  let d := m.decl
  if d.isComposition then s
  else
    let name := variableName m.inst.label m.cls d
    if d.isStream then
      if s.streams.contains name then s
      else
        declareVariable { s with streams := name :: s.streams } m.env buffer
          { d with name, attrs := d.attrs.filter fun a => a.name != "Link" }
    else
      let shared := isShared m.cls d
      let (fresh, s) := if shared then s.claim name m.cls m.ref.decl d.loc else (true, s)
      if !fresh then s
      else
        let suffix := if shared then "" else m.inst.keySuffix
        let attrs :=
          if d.quals.isUnlinked then d.attrs else keyAttributes d.attrs m.cls.name d.name suffix
        declareVariable s m.env buffer { d with name, attrs }

/-- The mark of the last implementation that has one. -/
def entryMark (table : MemberTable) (slot : MethodSlot) : Option Stage :=
  slot.implementations.reverse.findSome? fun m => (table.decl? m).bind Decl.entry

/-- Declare an implementation under its own name. -/
def emitMethod (s : Emitting) (m : Member) : Emitting :=
  match m.inst.names.implementations.lookup m.ref, m.inst.table.method? m.decl.name with
  | some name, some slot =>
    let isFinal := slot.final? == some m.ref
    if isFinal && m.decl.body?.isNone then
      s.report m.decl.loc (.methodNotImplemented m.inst.name m.decl.name)
    else
      let (fresh, s) :=
        if isShared m.cls m.decl then s.claim name m.cls m.ref.decl m.decl.loc else (true, s)
      if !fresh then s
      else
        let entry := if isFinal then entryMark m.inst.table slot else none
        let (d, s) := s.rename m.env { m.decl with name, entry } (startState m.decl)
        (s.push d).2
  | _, _ => s

/-- The buffer of a name, declared at its first use. -/
def bufferFor (s : Emitting) (d : Decl) (kind : BufferKind) : DeclId × Emitting :=
  match s.buffers.lookup d.name with
  | some id => (id, s)
  | none =>
    let made : Decl := { name := d.name, loc := d.loc, attrs := d.attrs, kind := .buffer kind [] }
    let (id, s) := s.push made
    (id, { s with buffers := (d.name, id) :: s.buffers })

def emitMember (s : Emitting) (m : Member) : Emitting :=
  match m.decl.kind with
  | .var .. => emitVariable s m none
  | .method .. => emitMethod s m
  | .struct _ =>
    if s.structs.contains m.decl.name then s
    else ({ s with structs := m.decl.name :: s.structs }.push m.decl).2
  | .buffer kind members =>
    let (buffer, s) := bufferFor s m.decl kind
    members.foldl (fun s id =>
      match m.cls.table[id]? with
      | some d => emitVariable s { m with ref := ⟨m.ref.cls, id⟩, decl := d } (some buffer)
      | none => s) s

/-- Declare the members of an instance, class by class. -/
def emitInstance (builtins : List Module) (instances : List MixInstance) (s : Emitting)
    (entry : MixInstance × Nat) : Emitting :=
  let (inst, number) := entry
  inst.table.classes.zipIdx.foldl (fun s (cls, place) =>
    cls.memberDecls.foldl (fun s (id, decl) =>
      emitMember s { env := ⟨builtins, instances, some ⟨number, place⟩⟩, inst, cls, ref := ⟨place, id⟩, decl }) s) s

/-- Declare the builtins in use, and those they use in turn. -/
def emitBuiltins (env : RenameEnv) : (fuel : Nat) → Emitting → Emitting
  | 0, s => s
  | fuel + 1, s =>
    match s.waiting with
    | [] => s
    | (m, id) :: rest =>
      let s := { s with waiting := rest }
      match m.cls.table[id]? with
      | none => emitBuiltins env fuel s
      | some d =>
        let (d, s) := s.rename env d {}
        let (id, shader) := s.shader.alloc d
        emitBuiltins env fuel { s with shader, builtinIds := s.builtinIds ++ [id] }

/-- A bound on the builtins in use. -/
def builtinCount (builtins : List Module) : Nat :=
  (builtins.flatMap fun m => m.cls.members).length

def emitInstances (builtins : List Module) (instances : List MixInstance) : Emitting :=
  instances.zipIdx.foldl (emitInstance builtins instances) {}

/-- The shader of all instances and the builtins they use. -/
def emit (builtins : List Module) (instances : List MixInstance) : Shader × Log :=
  let s := emitInstances builtins instances
  let s := emitBuiltins ⟨builtins, instances, none⟩ (builtinCount builtins) s
  ({ s.shader with declarations := s.builtinIds ++ s.shader.declarations }, s.log)

end Mix

/-- The shader of a composed module. -/
def mix (context : Context) (filled : Composition) (root : Module) : Option Shader × Log :=
  let (instances, log) := Mix.instancesOf context filled root
  match instances with
  | none => (none, log)
  | some instances =>
    if log.hasErrors then (none, log)
    else
      let (shader, more) := Mix.emit context.builtins instances
      if (log ++ more).hasErrors then (none, log ++ more) else (some shader, log ++ more)

end ShaderCompose
