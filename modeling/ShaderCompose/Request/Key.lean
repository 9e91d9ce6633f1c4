import ShaderCompose.Digest
import ShaderCompose.Request.Basic

/-!
Keys of loaded classes: name, arguments and definitions. Mixins and generic instances have names
made up from a digest.
-/

namespace ShaderCompose

/-- What a loaded class is known by. -/
structure ModuleKey where
  name : String
  generics : List String := []
  macros : List MacroDef := []
  deriving DecidableEq, Ord, Repr, Inhabited

namespace ModuleKey

def text (k : ModuleKey) : String := ClassRef.text ⟨k.name, k.generics⟩

/-- The order of keys, by name first. -/
def atMost (a b : ModuleKey) : Bool := (compare a b).isLE

end ModuleKey

def ClassRef.key (c : ClassRef) (macros : List MacroDef) : ModuleKey := ⟨c.name, c.generics, macros⟩

/-- The name that is made up for a mixin. -/
def mixinName (bases : List ClassRef) : String :=
  let digest := Digest.ofString ("+".intercalate (bases.map ClassRef.text))
  s!"Mixin_{digest.short 8}"

def mixinKey (bases : List ClassRef) (macros : List MacroDef) : ModuleKey :=
  ⟨mixinName bases, [], macros⟩

/-- The class of a request; arrays have none. -/
def Request.key? (r : Request) (macros : List MacroDef) : Option ModuleKey :=
  match r with
  | .single cls => some (cls.key macros)
  | .mixin [] _ _ => none
  | .mixin [cls] _ _ => some (cls.key macros)
  | .mixin bases _ _ => some (mixinKey bases macros)
  | .array _ => none

/-- The name that is made up for a generic instance. -/
def instanceName (name : String) (args : List String) : String :=
  let digest := Digest.ofString (",".intercalate args)
  s!"{name}_{digest.short 8}"

end ShaderCompose
