import ShaderCompose.Check.Context
import ShaderCompose.Module.Copy
import ShaderCompose.Options

/-!
Composition: a request becomes a tree of module instances. Each class is copied into a scope of its
own, and what fills a slot is recorded under its instance and declaration.
-/

namespace ShaderCompose

/-- A slot of one instance. -/
structure SlotKey where
  instanceId : Nat
  decl : DeclId
  deriving DecidableEq, Repr, Inhabited

/-- What fills each slot. -/
abbrev Composition := List (SlotKey × List Module)

/-- What composing has made so far. -/
structure Composing where
  filled : Composition := []
  log : Log := []
  made : List Module := []
  next : Nat

namespace Composing

def report (s : Composing) (d : Diagnostic) : Composing := { s with log := s.log ++ [d] }

/-- Fill a slot; a slot is filled once. -/
def fill (s : Composing) (slot : String) (key : SlotKey) (values : List Module) : Composing :=
  if (s.filled.lookup key).isSome then s.report (.error (.duplicateComposition slot))
  else { s with filled := s.filled ++ [(key, values)] }

end Composing

/-- The slot of a name, looked for from the last class on. -/
def Module.slot? (m : Module) (name : String) : Option SlotKey :=
  m.hierarchy.reverse.findSome? fun base =>
    (base.cls.findVariable? name).bind fun id =>
      if (base.cls.table[id]?).any Decl.isComposition then some ⟨base.id, id⟩ else none

namespace Context

/-- Copy the stage-only modules into the shared scope. -/
def shareStageModules (c : Context) (s : Copying) : Copying :=
  (c.classes.filter fun k => k.loaded.module.isStageOnly).foldl (fun s k => (k.loaded.module.copy s).2) s

/-- A fresh instance of the class of a request. -/
def instance? (c : Context) (scope : CopyScope) (r : Request) (s : Composing) : Option Module × Composing :=
  match r.key? c.macros with
  | none => (none, s.report (.error .emptyMixin))
  | some key =>
    match c.find? key with
    | none => (none, s)
    | some k =>
      let (m, copying) := k.loaded.module.copy ⟨scope.child, s.next⟩
      (some m, { s with made := s.made ++ [m], next := copying.next })

mutual

/-- The instances of a request, none if a class is missing. -/
def compose (c : Context) (o : Options) (scope : CopyScope) : Request → Composing → Option (List Module) × Composing
  | .single cls, s =>
    let (m, s) := c.instance? scope (.single cls) s
    (m.map ([·]), s)
  | .mixin bases slots macros, s =>
    match c.instance? scope (.mixin bases slots macros) s with
    | (none, s) => (none, s)
    | (some m, s) =>
      match composeSlots c o scope m slots s with
      | (true, s) => (some [m], s)
      | (false, s) => (none, s)
  | .array values, s => composeValues c o scope values s

/-- Fill the slots of an instance, in the order given. -/
def composeSlots (c : Context) (o : Options) (scope : CopyScope) (m : Module) :
    List (String × Request) → Composing → Bool × Composing
  | [], s => (true, s)
  | (slot, value) :: rest, s =>
    match m.slot? slot with
    | none =>
      let s :=
        if o.warnUnknownSlot then s.report (.warning (.unknownSlot m.name slot)) else s
      composeSlots c o scope m rest s
    | some key =>
      match compose c o scope value s with
      | (none, s) => (false, s)
      | (some values, s) => composeSlots c o scope m rest (s.fill slot key values)

def composeValues (c : Context) (o : Options) (scope : CopyScope) : List Request → Composing →
    Option (List Module) × Composing
  | [], s => (some [], s)
  | value :: rest, s =>
    match compose c o scope value s with
    | (none, s) => (none, s)
    | (some ms, s) =>
      let (more, s) := composeValues c o scope rest s
      (more.map (ms ++ ·), s)

end

end Context

end ShaderCompose
