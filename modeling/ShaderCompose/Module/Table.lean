import ShaderCompose.Diagnostic.Log
import ShaderCompose.Module.Basic

/-!
The members that are visible in a class: the implementations of each method along the hierarchy, and
the variables and structures by name.
-/

namespace ShaderCompose

/-- A declaration of a class of the hierarchy. -/
structure MemberRef where
  cls : Nat
  decl : DeclId
  deriving DecidableEq, Repr, Inhabited

/-- A method with its implementations, bases first. -/
structure MethodSlot where
  name : String
  implementations : List MemberRef
  deriving DecidableEq, Repr, Inhabited

namespace MethodSlot

/-- The implementation that calls go to. -/
def final? (s : MethodSlot) : Option MemberRef := s.implementations.getLast?

/-- The last implementation below a class. -/
def before? (s : MethodSlot) (place : Nat) : Option MemberRef :=
  s.implementations.reverse.find? fun m => decide (m.cls < place)

end MethodSlot

/-- What is visible in a class. -/
structure MemberTable where
  classes : List ShaderClass := []
  methods : List MethodSlot := []
  vars : List (String × MemberRef) := []
  structs : List (String × MemberRef) := []
  log : Log := []
  deriving Repr, Inhabited

namespace MemberTable

/-- The place of the class itself. -/
def ownPlace (t : MemberTable) : Nat := t.classes.length - 1

def decl? (t : MemberTable) (m : MemberRef) : Option Decl :=
  (t.classes[m.cls]?).bind fun c => c.table[m.decl]?

def method? (t : MemberTable) (name : String) : Option MethodSlot :=
  t.methods.find? fun s => s.name == name

def variableRef? (t : MemberTable) (name : String) : Option MemberRef := t.vars.lookup name

def structRef? (t : MemberTable) (name : String) : Option MemberRef := t.structs.lookup name

def variableDecl? (t : MemberTable) (name : String) : Option Decl :=
  (t.variableRef? name).bind t.decl?

def arity? (t : MemberTable) (slot : MethodSlot) : Option (Nat × Nat) :=
  (slot.final?.bind t.decl?).bind Decl.arity?

/-! ## Construction -/

/-- What is wrong with a method, given earlier ones. -/
def methodError? (cls : ShaderClass) (place : Nat) (d : Decl) : Option MethodSlot → Option Message
  | some slot =>
    if slot.implementations.any fun m => m.cls == place then some (.duplicateMember cls.name d.name)
    else if d.quals.override then none
    else some (.missingOverride cls.name d.name)
  | none => if d.quals.override then some (.overrideWithoutBase cls.name d.name) else none

/-- A further implementation, or a new method. -/
def addImplementation (t : MemberTable) (name : String) (m : MemberRef) : MemberTable :=
  if (t.method? name).isSome then
    { t with
      methods := t.methods.map fun s =>
        if s.name == name then { s with implementations := s.implementations ++ [m] } else s }
  else { t with methods := t.methods ++ [⟨name, [m]⟩] }

/-- Only methods of the class itself are checked. -/
def addMethod (cls : ShaderClass) (place : Nat) (isOwn : Bool) (t : MemberTable)
    (entry : DeclId × Decl) : MemberTable :=
  let (id, d) := entry
  let complaint : Log :=
    if isOwn then ((methodError? cls place d (t.method? d.name)).map (.errorAt d.loc)).toList
    else []
  let t := t.addImplementation d.name ⟨place, id⟩
  { t with log := t.log ++ complaint }

/-- The complaint about a second member of a name. -/
def conflict (owner : String) (reported : Nat → Nat → Bool) (place : Nat) (d : Decl) (earlier : MemberRef) : Log :=
  if reported earlier.cls place then []
  else [.errorAt d.loc (.duplicateMember owner d.name)]

/-- The first variable of a name counts. -/
def addVariable (owner : String) (reported : Nat → Nat → Bool) (place : Nat) (t : MemberTable)
    (entry : DeclId × Decl) : MemberTable :=
  let (id, d) := entry
  match t.variableRef? d.name with
  | some earlier => { t with log := t.log ++ conflict owner reported place d earlier }
  | none => { t with vars := t.vars ++ [(d.name, ⟨place, id⟩)] }

def addStruct (owner : String) (reported : Nat → Nat → Bool) (place : Nat) (t : MemberTable)
    (entry : DeclId × Decl) : MemberTable :=
  let (id, d) := entry
  match t.structRef? d.name with
  | some earlier => { t with log := t.log ++ conflict owner reported place d earlier }
  | none => { t with structs := t.structs ++ [(d.name, ⟨place, id⟩)] }

def addClass (owner : String) (own : Nat) (reported : Nat → Nat → Bool) (t : MemberTable)
    (entry : ShaderClass × Nat) : MemberTable :=
  let (cls, place) := entry
  let t := cls.methods.foldl (addMethod cls place (place == own)) t
  let t := cls.vars.foldl (addVariable owner reported place) t
  (cls.entries.filter fun e => e.2.isStruct).foldl (addStruct owner reported place) t

/-- Some base inherits from both classes. -/
def sharedBy (bases : List Module) (first second : String) : Bool :=
  bases.any fun b => b.inherits first && b.inherits second

/-- The table of a module, class by class. -/
def ofModule (m : Module) : MemberTable :=
  let chain := m.hierarchy
  let own := chain.length - 1
  let bases := chain.take own
  let nameAt (place : Nat) : String := ((chain[place]?).map Module.name).getD ""
  let reported (a b : Nat) : Bool := sharedBy bases (nameAt a) (nameAt b)
  let classes := chain.map Module.cls
  classes.zipIdx.foldl (addClass m.name own reported) { classes }

end MemberTable

end ShaderCompose
