import ShaderCompose.Diagnostic.Log
import ShaderCompose.Lang.Decl

/-!
Entry points of a shader: for each stage the first method that is marked as its entry point. A
compute shader has no other stage.
-/

namespace ShaderCompose

/-- Stages with the names of their methods. -/
abbrev EntryPoints := List (Stage × String)

namespace Shader

def entryOf? (s : Shader) (stage : Stage) : Option (Stage × String) :=
  (s.methods.find? fun m => m.entry == some stage).map fun m => (stage, m.name)

def entryPoints (s : Shader) : EntryPoints :=
  match s.entryOf? .compute with
  | some entry => [entry]
  | none => Stage.all.filterMap s.entryOf?

end Shader

namespace EntryPoints

def get? (entries : EntryPoints) (stage : Stage) : Option String := entries.lookup stage

def missing (entries : EntryPoints) (required : List Stage) : Log :=
  (required.filter fun stage => (entries.get? stage).isNone).map fun stage =>
    .error (.missingEntryPoint stage)

end EntryPoints

end ShaderCompose
