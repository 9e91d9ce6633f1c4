import ShaderCompose.Source.Path

/-!
The files that sources and includes are read from, as a value: their contents, the directories
between them, and the directory that relative paths start in.
-/

namespace ShaderCompose

inductive Content where
  | text (s : String)
  | binary
  deriving DecidableEq, Repr, Inhabited

namespace Content

def ofBytes (bytes : ByteArray) : Content :=
  match String.fromUTF8? bytes with
  | some s => text s
  | none => binary

end Content

/-- Files and directories, by the steps from the root. -/
structure Files where
  files : List (List String × Content) := []
  directories : List (List String) := []
  here : List String := []
  deriving Repr, Inhabited

namespace Files

def isDirectory (fs : Files) (place : List String) : Bool :=
  place.isPrefixOf fs.here || fs.directories.contains place

/-- Where a path leads, if every step on it exists. -/
def walk (fs : Files) : (place : List String) → (parts : List String) → Option (List String)
  | place, [] => some place
  | place, part :: rest =>
    if !fs.isDirectory place then none
    else if Path.isHere part then walk fs place rest
    else if part == ".." then
      match place with
      | [] => none
      | _ :: _ => walk fs place.dropLast rest
    else walk fs (place ++ [part]) rest

def start (fs : Files) (path : String) : List String := if Path.isAbsolute path then [] else fs.here

def find? (fs : Files) (path : String) : Option Content :=
  (fs.walk (fs.start path) (Path.parts path)).bind fun place => fs.files.lookup place

def isFile (fs : Files) (path : String) : Bool := (fs.find? path).isSome

def read? (fs : Files) (path : String) : Option String :=
  match fs.find? path with
  | some (.text s) => some s
  | _ => none

/-- The directories above a place. -/
def above : List String → List (List String)
  | [] => []
  | [_] => []
  | step :: rest => [step] :: (above rest).map (step :: ·)

def write (fs : Files) (path : String) (content : Content) : Files :=
  let place := Path.resolve (fs.start path) (Path.steps path)
  { fs with
    files := (place, content) :: fs.files.filter fun f => f.1 != place
    directories := fs.directories ++ (above place).filter fun d => !fs.directories.contains d }

/-- Remove a file, if there is one. -/
def remove (fs : Files) (path : String) : Bool × Files :=
  match fs.walk (fs.start path) (Path.parts path) with
  | some place =>
    if (fs.files.lookup place).isSome then
      (true, { fs with files := fs.files.filter fun f => f.1 != place })
    else (false, fs)
  | none => (false, fs)

end Files

end ShaderCompose
