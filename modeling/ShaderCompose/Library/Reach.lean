import ShaderCompose.Library.Basic
import ShaderCompose.Preprocess.Directives
import ShaderCompose.Reader.Source

/-!
How far a load can reach. Its keys are formed from the words of the request, of kept classes and of
sources.
-/

namespace ShaderCompose

namespace ShaderClass

/-- The types of the slots of a class. -/
def slotTypes (c : ShaderClass) : List TypeRef :=
  (c.vars.map (·.2)).filterMap fun d => if d.isComposition then d.varType? else none

/-- The classes that a class names. -/
def references (c : ShaderClass) : List ClassRef :=
  (c.bases.map fun b => ⟨b.name, b.args⟩) ++ c.slotTypes.map fun t => ⟨t.name, t.template⟩

end ShaderClass

namespace ClassRef

/-- The words a key is formed from. -/
def words (c : ClassRef) : List String := c.name :: c.generics

end ClassRef

namespace Request

mutual

/-- The classes that a request names. -/
def references : Request → List ClassRef
  | single cls => [cls]
  | mixin bases slots _ => bases ++ slotReferences slots
  | array values => listReferences values

def slotReferences : List (String × Request) → List ClassRef
  | [] => []
  | (_, r) :: rest => r.references ++ slotReferences rest

def listReferences : List Request → List ClassRef
  | [] => []
  | r :: rest => r.references ++ listReferences rest

end

end Request

/-- The file name without `.mxsl`. -/
def classOfFileName (file : String) : String :=
  String.ofList (file.toList.take (file.toList.length - ".mxsl".toList.length))

namespace SourceStore

/-- The texts that a class can be read from. -/
def candidates (s : SourceStore) (name : String) : List SourceFile :=
  (s.read.lookup name).toList ++ (s.fetch name).toOption.toList

/-- The classes that these texts name. -/
def references (s : SourceStore) (macros : List MacroDef) (name : String) : List ClassRef :=
  (s.candidates name).flatMap fun file =>
    match Preprocess.text ⟨s.files, s.lookup⟩ macros file.fileName file.path file.text with
    | .error _ => []
    | .ok text =>
      ((Reader.source text file.fileName).1.filter fun c => c.name == name).flatMap ShaderClass.references

/-- The classes whose text may be found. -/
def names (s : SourceStore) : List String :=
  s.read.map (·.1) ++ s.inMemory.map (·.1) ++ s.mapped.map (·.1) ++
    s.files.files.filterMap fun f => f.1.getLast?.map classOfFileName

end SourceStore

/-- How many keys can be formed from references. -/
def countKeys (refs : List ClassRef) : Nat :=
  let words := ("0" :: "false" :: refs.flatMap ClassRef.words).eraseDups
  let arity := (refs.map fun r => r.generics.length).foldl max 0
  Nat.pow (words.length + 1) (arity + 1)

/-- The references that a load can come across. -/
def Library.references (l : Library) (macros : List MacroDef) (r : Request) : List ClassRef :=
  let kept := l.cache.flatMap fun e =>
    (e.1 :: e.2.dependencies).map fun k : ModuleKey => (⟨k.name, k.generics⟩ : ClassRef)
  r.references ++ kept ++ l.store.names.flatMap (l.store.references macros)

/-- A bound on the keys that a load can settle. -/
def Library.reach (l : Library) (macros : List MacroDef) (r : Request) : Nat :=
  countKeys (l.references macros r)

end ShaderCompose
