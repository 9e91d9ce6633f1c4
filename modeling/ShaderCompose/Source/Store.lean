import ShaderCompose.Digest
import ShaderCompose.Preprocess.Error
import ShaderCompose.Source.Files

/-!
The store of class sources. A text that was read once is kept until it is forgotten, whatever
happens to its file.
-/

namespace ShaderCompose

/-- A source with its origin. -/
structure SourceFile where
  name : String
  path : Option String
  text : String
  digest : Digest
  deriving DecidableEq, Repr, Inhabited

namespace SourceFile

/-- The name that messages show. -/
def fileName (f : SourceFile) : String :=
  (f.path.bind Path.fileName?).getD (f.name ++ ".mxsl")

end SourceFile

/-- Where sources are found, and those already read. -/
structure SourceStore where
  files : Files := {}
  lookup : List String := []
  mapped : List (String × String) := []
  inMemory : List (String × String) := []
  read : List (String × SourceFile) := []
  deriving Repr, Inhabited

/-- Replace what stands under a key. -/
def setKey {κ α : Type} [BEq κ] (key : κ) (value : α) (pairs : List (κ × α)) : List (κ × α) :=
  (key, value) :: pairs.filter fun p => !(p.1 == key)

namespace SourceStore

/-- A further directory; twice is once. -/
def addLookup (s : SourceStore) (directory : String) : SourceStore :=
  if s.lookup.any (Path.same directory) then s
  else { s with lookup := s.lookup ++ [directory] }

def mapTo (s : SourceStore) (name path : String) : SourceStore :=
  { s with mapped := setKey name path s.mapped }

def setText (s : SourceStore) (name text : String) : SourceStore :=
  { s with inMemory := setKey name text s.inMemory }

/-- The mapped file of a class, or the first that is found. -/
def findPath? (s : SourceStore) (name : String) : Option String :=
  match s.mapped.lookup name with
  | some path => some path
  | none => (s.lookup.map fun d => Path.join d (name ++ ".mxsl")).find? s.files.isFile

def has (s : SourceStore) (name : String) : Bool :=
  (s.read.lookup name).isSome || (s.inMemory.lookup name).isSome || (s.findPath? name).isSome

/-- Read a source; a text in memory goes first. -/
def fetch (s : SourceStore) (name : String) : Except PreprocessError SourceFile :=
  match s.inMemory.lookup name with
  | some text => .ok ⟨name, none, text, .ofString text⟩
  | none =>
    match s.findPath? name with
    | none => .error (.notFound name)
    | some path =>
      match s.files.read? path with
      | none => .error (.unreadable path)
      | some text => .ok ⟨name, some path, text, .ofString text⟩

/-- The kept source, or the one that is read and kept. -/
def load (s : SourceStore) (name : String) : Except PreprocessError SourceFile × SourceStore :=
  match s.read.lookup name with
  | some file => (.ok file, s)
  | none =>
    match s.fetch name with
    | .ok file => (.ok file, { s with read := setKey name file s.read })
    | .error e => (.error e, s)

/-- Read these sources anew. -/
def forget (s : SourceStore) (names : List String) : SourceStore :=
  { s with read := s.read.filter fun p => !names.contains p.1 }

end SourceStore

end ShaderCompose
