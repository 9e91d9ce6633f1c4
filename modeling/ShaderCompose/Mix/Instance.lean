import ShaderCompose.Compose.Resolve

/-!
The instances that a shader is mixed from, and the names of their members in it. An instance is
numbered before those in its slots.
-/

namespace ShaderCompose.Mix

/-- Members that all instances have in common. -/
def isShared (cls : ShaderClass) (d : Decl) : Bool := d.quals.stage || cls.isStageOnly

/-- The name of a variable in the shader. -/
def variableName (label : String) (cls : ShaderClass) (d : Decl) : String :=
  if d.isStream then "streams_" ++ d.name
  else if isShared cls d then d.name
  else label ++ d.name

/-- Overridden implementations are told apart by class. -/
def implementationName (label method : String) (cls : ShaderClass) (d : Decl) (isFinal : Bool) :
    String :=
  (if isShared cls d then "" else label) ++
    if isFinal then method else cls.name ++ "_" ++ method

/-- The names of the members of an instance. -/
structure Names where
  vars : List (String × String)
  methods : List (String × String)
  implementations : List (MemberRef × String)
  deriving Repr, Inhabited

namespace Names

/-- The names of the implementations of one method. -/
def ofSlot (label : String) (table : MemberTable) (slot : MethodSlot) : List (MemberRef × String) :=
  slot.implementations.filterMap fun m =>
    (table.classes[m.cls]?).bind fun cls =>
      (cls.table[m.decl]?).map fun d =>
        (m, implementationName label slot.name cls d (slot.final? == some m))

def ofTable (label : String) (table : MemberTable) : Names where
  vars := table.classes.flatMap fun cls =>
    ((cls.vars.map (·.2)).filter fun d => !d.isComposition).map fun d =>
      (d.name, variableName label cls d)
  methods := table.methods.filterMap fun slot =>
    (slot.final?.bind fun m => (ofSlot label table slot).lookup m).map fun name =>
      (slot.name, name)
  implementations := table.methods.flatMap (ofSlot label table)

/-- The name that a member is called by. -/
def member? (n : Names) (name : String) : Option String :=
  n.methods.lookup name <|> n.vars.lookup name

end Names

/-- The instances in a slot. -/
structure Filling where
  isArray : Bool
  instances : List Nat
  deriving DecidableEq, Repr, Inhabited

structure MixInstance where
  name : String
  table : MemberTable
  label : String
  names : Names
  keySuffix : String
  slots : List (String × Filling)
  deriving Repr, Inhabited

/-! ## Collecting the instances -/

/-- The instances so far. -/
structure Collecting where
  instances : List MixInstance := []
  log : Log := []

def Collecting.report (s : Collecting) (loc : Span) (message : Message) : Collecting :=
  { s with log := s.log ++ [.errorAt loc message] }

/-- A slot with the modules in it. -/
structure FilledSlot where
  name : String
  loc : Span
  type : TypeRef
  values : List Module

/-- The class that the slot is typed with. -/
def FilledSlot.expected (slot : FilledSlot) : String :=
  if slot.type.template.isEmpty then slot.type.name
  else instanceName slot.type.name slot.type.template

/-- Whether so many instances fit. -/
def FilledSlot.takes (slot : FilledSlot) (count : Nat) : Bool :=
  match slot.type.arrayLength? with
  | some length => length == count
  | none => slot.type.isArray || decide (count ≤ 1)

/-- The slots of a module, in the order of its hierarchy. -/
def filledSlots (filled : Composition) (m : Module) : List FilledSlot :=
  m.hierarchy.flatMap fun base =>
    base.cls.vars.filterMap fun (id, d) =>
      if d.isComposition then
        d.varType?.map fun type =>
          ⟨d.name, d.loc, type, ((filled.lookup ⟨base.id, id⟩).getD [])⟩
      else none

/-- How keys name an instance in the slot. -/
def FilledSlot.keySuffix (slot : FilledSlot) (outer : String) (position : Nat) : String :=
  if slot.type.isArray then s!"{outer}.{slot.name}[{position}]" else s!"{outer}.{slot.name}"

/-- The instances in one slot; others are reported and left out. -/
def collectValues (add : Module → (label keySuffix : String) → Collecting → Option Nat × Collecting)
    (slot : FilledSlot) (outer : String) : (position : Nat) → List Module → Collecting →
    Option (List Nat) × Collecting
  | _, [], s => (some [], s)
  | position, m :: ms, s =>
    if m.inherits slot.expected then
      let label := s!"{m.name}_id{s.instances.length}_"
      match add m label (slot.keySuffix outer position) s with
      | (none, s) => (none, s)
      | (some number, s) =>
        let (numbers, s) := collectValues add slot outer (position + 1) ms s
        (numbers.map (number :: ·), s)
    else
      collectValues add slot outer (position + 1) ms
        (s.report slot.loc (.compositionType slot.name slot.type.element.text m.name))

def collectSlots (add : Module → (label keySuffix : String) → Collecting → Option Nat × Collecting)
    (outer : String) : List FilledSlot → Collecting → Option (List (String × Filling)) × Collecting
  | [], s => (some [], s)
  | slot :: slots, s =>
    match collectValues add slot outer 0 slot.values s with
    | (none, s) => (none, s)
    | (some numbers, s) =>
      let s :=
        if slot.takes numbers.length then s else s.report slot.loc (.compositionArray slot.name)
      let (more, s) := collectSlots add outer slots s
      (more.map ((slot.name, ⟨slot.type.isArray, numbers⟩) :: ·), s)

/-- Collect a module and what its slots hold; none if the depth is short. -/
def collect (context : Context) (filled : Composition) : (depth : Nat) → Module →
    (label keySuffix : String) → Collecting → Option Nat × Collecting
  | 0, _, _, _, s => (none, s)
  | depth + 1, m, label, keySuffix, s =>
    match context.table? m.key with
    | none => (none, s)
    | some table =>
      let number := s.instances.length
      let made : MixInstance :=
        { name := m.name, table, label, names := .ofTable label table, keySuffix, slots := [] }
      let s := { s with instances := s.instances ++ [made] }
      match collectSlots (collect context filled depth) keySuffix (filledSlots filled m) s with
      | (none, s) => (none, s)
      | (some slots, s) =>
        (some number,
          { s with
            instances := s.instances.modify number fun i => { i with slots := slots.reverse } })

def instancesOf (context : Context) (filled : Composition) (root : Module) : Option (List MixInstance) × Log :=
  let (number, s) := collect context filled (filled.length + 1) root "" "" {}
  (number.map fun _ => s.instances, s.log)

end ShaderCompose.Mix
