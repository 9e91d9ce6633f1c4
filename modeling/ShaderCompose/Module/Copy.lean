import ShaderCompose.Module.Basic
import ShaderCompose.Source.Store

/-!
Copies of modules. A scope knows what was copied in it and around it, so that a shared base is
copied once.
-/

namespace ShaderCompose

/-- Modules by the number of their original. -/
abbrev Copies := List (Nat × Module)

/-- The copies of a scope and of those around it. -/
structure CopyScope where
  own : Copies := []
  outer : List Copies := []
  deriving Repr, Inhabited

namespace CopyScope

/-- A scope inside of this one. -/
def child (s : CopyScope) : CopyScope := ⟨[], s.own :: s.outer⟩

def find? (s : CopyScope) (id : Nat) : Option Module :=
  (s.own :: s.outer).findSome? fun copies => copies.lookup id

/-- The module stands for itself. -/
def keep (s : CopyScope) (m : Module) : CopyScope := { s with own := setKey m.id m s.own }

/-- A copy stands for its original and for itself. -/
def record (s : CopyScope) (id : Nat) (copy : Module) : CopyScope :=
  { s with own := setKey copy.id copy (setKey id copy s.own) }

def count (s : CopyScope) : Nat := s.own.length

end CopyScope

/-- A scope and the next free number. -/
structure Copying where
  scope : CopyScope := {}
  next : Nat
  deriving Repr, Inhabited

namespace Module

mutual

/-- The copy of a module, with its bases copied first. -/
def copy : Module → Copying → Module × Copying
  | ⟨id, key, cls, bases, digest⟩, s =>
    match s.scope.find? id with
    | some m => (m, s)
    | none =>
      let (bases, s) := copyAll bases s
      let made : Module := ⟨s.next, key, cls, bases, digest⟩
      (made, ⟨s.scope.record id made, s.next + 1⟩)

def copyAll : List Module → Copying → List Module × Copying
  | [], s => ([], s)
  | m :: ms, s =>
    let (m, s) := copy m s
    let (ms, s) := copyAll ms s
    (m :: ms, s)

end

end Module

end ShaderCompose
