import ShaderCompose.Text.Lines

/-!
Paths of files: parts between slashes, of which empty ones and dots lead nowhere.
-/

namespace ShaderCompose.Path

def parts (path : String) : List String := (Text.cutAt '/' path.toList).map String.ofList

/-- A part that leads nowhere. -/
def isHere (part : String) : Bool := part == "" || part == "."

/-- The parts that lead somewhere. -/
def steps (path : String) : List String := (parts path).filter fun part => !isHere part

/-- Where steps lead; nothing lies above the root. -/
def resolve (place : List String) (steps : List String) : List String :=
  steps.foldl (fun place step => if step == ".." then place.dropLast else place ++ [step]) place

def isAbsolute (path : String) : Bool := path.toList.head? == some '/'

/-- Written with the same steps from the same start. -/
def same (a b : String) : Bool := isAbsolute a == isAbsolute b && steps a == steps b

def join (directory path : String) : String :=
  if isAbsolute path || directory == "" then path
  else if directory.toList.getLast? == some '/' then directory ++ path
  else directory ++ "/" ++ path

def dropHere (parts : List String) : List String := (parts.reverse.dropWhile isHere).reverse

/-- The path without its last step. -/
def parent? (path : String) : Option String :=
  match dropHere (parts path) with
  | [] => none
  | ps => some ("/".intercalate (dropHere ps.dropLast))

def fileName? (path : String) : Option String :=
  match (dropHere (parts path)).getLast? with
  | some ".." | none => none
  | some name => some name

end ShaderCompose.Path
