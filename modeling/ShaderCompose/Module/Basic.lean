import ShaderCompose.Lang.Decl
import ShaderCompose.Request.Key

/-!
Modules: classes that are loaded, together with the modules they inherit from.
-/

namespace ShaderCompose

/-- A loaded class; the number tells copies apart. -/
structure Module where
  id : Nat
  key : ModuleKey
  cls : ShaderClass
  bases : List Module
  digest : Digest
  deriving Repr

instance : Inhabited Module := ⟨⟨0, default, default, [], default⟩⟩

namespace Module

def name (m : Module) : String := m.cls.name

def isStageOnly (m : Module) : Bool := m.cls.isStageOnly

/-- Classes met so far, and modules that are done. -/
structure Walk where
  seen : List String := []
  done : List Module := []

mutual

/-- Bases first, then the module, unless its class was met. -/
def visit : Module → Walk → Walk
  | ⟨id, key, cls, bases, digest⟩, w =>
    if w.seen.contains cls.name then w
    else
      let w := visitAll bases { w with seen := cls.name :: w.seen }
      { w with done := w.done ++ [⟨id, key, cls, bases, digest⟩] }

def visitAll : List Module → Walk → Walk
  | [], w => w
  | m :: ms, w => visitAll ms (visit m w)

end

/-- A module after all it inherits from. -/
def hierarchy (m : Module) : List Module := (m.visit {}).done

def inherits (m : Module) (cls : String) : Bool := m.hierarchy.any fun b => b.name == cls

end Module

end ShaderCompose
