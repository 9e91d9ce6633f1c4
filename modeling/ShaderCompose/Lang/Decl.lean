import ShaderCompose.Lang.Stage
import ShaderCompose.Lang.Stmt

/-!
Declarations, shader classes and shaders. Declarations stand in a table and are referred to by
number.
-/

namespace ShaderCompose

/-- A parameter of a method or a field of a structure. -/
structure Param where
  name : String
  type : TypeRef
  quals : Qualifiers := {}
  semantic : Option String := none
  default : Option Expr := none
  loc : Span
  deriving Repr, Inhabited

structure StateField where
  key : String
  value : Expr
  loc : Span
  deriving Repr, Inhabited

/-- The initial value of a variable. -/
inductive Initializer where
  | expr (value : Expr)
  | state (fields : List StateField)
  deriving Repr, Inhabited

/-- Buffers hold values only, or group resources with them. -/
inductive BufferKind where
  | constant
  | group
  deriving DecidableEq, Repr, Inhabited

/-- The number of a declaration in its table. -/
abbrev DeclId := Nat

inductive DeclKind where
  | var (type : TypeRef) (semantic : Option String) (init : Option Initializer)
  | method (returns : TypeRef) (params : List Param) (semantic : Option String) (body : Option (List Stmt))
  | buffer (kind : BufferKind) (members : List DeclId)
  | struct (fields : List Param)
  deriving Repr, Inhabited

structure Decl where
  name : String
  loc : Span
  attrs : List Attribute := []
  quals : Qualifiers := {}
  entry : Option Stage := none
  kind : DeclKind
  deriving Repr, Inhabited

namespace Decl

def isMethod (d : Decl) : Bool := match d.kind with | .method .. => true | _ => false

def isVar (d : Decl) : Bool := match d.kind with | .var .. => true | _ => false

def isStruct (d : Decl) : Bool := match d.kind with | .struct .. => true | _ => false

/-- A slot: a variable that is composed. -/
def isComposition (d : Decl) : Bool := d.isVar && d.quals.compose

/-- A variable that is passed from stage to stage. -/
def isStream (d : Decl) : Bool := d.isVar && d.quals.stream

def varType? (d : Decl) : Option TypeRef :=
  match d.kind with
  | .var type _ _ => some type
  | _ => none

def params? (d : Decl) : Option (List Param) :=
  match d.kind with
  | .method _ params _ _ => some params
  | _ => none

def body? (d : Decl) : Option (List Stmt) :=
  match d.kind with
  | .method _ _ _ body => body
  | _ => none

/-- The first attribute of the name. -/
def attr? (d : Decl) (name : String) : Option Attribute := d.attrs.find? fun a => a.name == name

def arity? (d : Decl) : Option (Nat × Nat) :=
  d.params?.map fun params => ((params.filter fun p => p.default.isNone).length, params.length)

end Decl

/-! ## Classes -/

/-- A parameter of a generic class. -/
structure GenericParam where
  type : TypeRef
  name : String
  deriving Repr, Inhabited

/-- A base with its generic arguments. -/
structure BaseRef where
  name : String
  args : List String := []
  loc : Span
  deriving Repr, Inhabited

/-- A class as it is read. -/
structure ShaderClass where
  name : String
  loc : Span
  generics : List GenericParam := []
  bases : List BaseRef := []
  table : Array Decl := #[]
  members : List DeclId := []
  deriving Repr, Inhabited

namespace ShaderClass

/-- The whole table with its numbers. -/
def entries (c : ShaderClass) : List (DeclId × Decl) :=
  c.table.toList.zipIdx.map fun (d, i) => (i, d)

/-- All variables, those inside buffers included. -/
def vars (c : ShaderClass) : List (DeclId × Decl) := c.entries.filter fun e => e.2.isVar

def memberDecls (c : ShaderClass) : List (DeclId × Decl) :=
  c.members.filterMap fun id => (c.table[id]?).map fun d => (id, d)

def methods (c : ShaderClass) : List (DeclId × Decl) := c.memberDecls.filter fun e => e.2.isMethod

/-- The first variable of the name. -/
def findVariable? (c : ShaderClass) (name : String) : Option DeclId :=
  (c.vars.find? fun e => e.2.name == name).map (·.1)

/-- There are members, and all are stage members. -/
def isStageOnly (c : ShaderClass) : Bool :=
  !c.members.isEmpty && c.memberDecls.all fun e => e.2.quals.stage

end ShaderClass

/-! ## Shaders -/

/-- A table of declarations and the order of the outer ones. -/
structure Shader where
  table : Array Decl := #[]
  declarations : List DeclId := []
  deriving Repr, Inhabited

namespace Shader

/-- The outer declarations, in order. -/
def entries (s : Shader) : List (DeclId × Decl) :=
  s.declarations.filterMap fun id => (s.table[id]?).map fun d => (id, d)

def decls (s : Shader) : List Decl := s.entries.map (·.2)

def find? (s : Shader) (name : String) : Option Decl := s.decls.find? fun d => d.name == name

def methods (s : Shader) : List Decl := s.decls.filter Decl.isMethod

/-- The declarations with the given numbers. -/
def select (s : Shader) (ids : List DeclId) : List Decl := ids.filterMap fun id => s.table[id]?

def modify (s : Shader) (id : DeclId) (f : Decl → Decl) : Shader :=
  { s with table := s.table.modify id f }

/-- Append to the table only. -/
def alloc (s : Shader) (d : Decl) : DeclId × Shader :=
  (s.table.size, { s with table := s.table.push d })

end Shader

/-- The members of a class as a shader. -/
def ShaderClass.toShader (c : ShaderClass) : Shader := ⟨c.table, c.members⟩

end ShaderCompose
