import ShaderCompose.Preprocess.Error
import ShaderCompose.Source.Files

/-!
Inlining of included files. Markers say where each stretch of the result comes from.
-/

namespace ShaderCompose.Preprocess

/-- How deep files may include files. -/
def maxIncludeDepth : Nat := 16

/-- Where included files are looked for. -/
structure SearchPlaces where
  files : Files
  lookup : List String

/-- Beside the including file, then in each directory. -/
def SearchPlaces.find? (places : SearchPlaces) (includer : Option String) (name : String) :
    Option String :=
  let beside := (includer.bind Path.parent?).map fun d => Path.join d name
  match beside.filter places.files.isFile with
  | some path => some path
  | none => (places.lookup.map fun d => Path.join d name).find? places.files.isFile

def asLine (text : List Char) : List Char := text ++ ['\n']

/-- A marker that says where the next line comes from. -/
def markerLine (line : Nat) (file : String) : List Char :=
  asLine s!"#line {line} \"{file}\"".toList

def includeName? (line : List Char) : Option (List Char) :=
  (Text.after? "#include ".toList (Text.trimStart line)).map fun rest =>
    Text.trimQuotes (Text.trim rest)

def expandLines (inline : String → Except PreprocessError (List Char)) (file : String) :
    (number : Nat) → List (List Char) → Except PreprocessError (List Char)
  | _, [] => .ok []
  | number, line :: rest =>
    match includeName? line with
    | none => do
      let below ← expandLines inline file (number + 1) rest
      return asLine line ++ below
    | some [] => .error (.unexpectedEnd number)
    | some name => do
      let inner ← inline (String.ofList name)
      let below ← expandLines inline file (number + 1) rest
      return inner ++ markerLine (number + 1) file ++ below

/-- A file inlined `fuel` levels deep. -/
def expandFile (places : SearchPlaces) : (fuel : Nat) → (file : String) → (path : Option String) →
    (text : List Char) → Except PreprocessError (List Char)
  | 0, _, _, _ => .error (.tooDeep maxIncludeDepth)
  | fuel + 1, file, path, text =>
    let inline (name : String) : Except PreprocessError (List Char) :=
      match places.find? path name with
      | none => .error (.notFound name)
      | some found =>
        match places.files.read? found with
        | none => .error (.unreadable found)
        | some inner => do
          let innerName := (Path.fileName? found).getD ""
          let expanded ← expandFile places fuel innerName (some found) inner.toList
          return markerLine 1 innerName ++ expanded
    expandLines inline file 1 (Text.lines text)

def expandIncludes (places : SearchPlaces) (file : String) (path : Option String)
    (text : List Char) : Except PreprocessError (List Char) := do
  let expanded ← expandFile places (maxIncludeDepth + 1) file path text
  return markerLine 1 file ++ expanded

end ShaderCompose.Preprocess
