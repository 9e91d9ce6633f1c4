import ShaderCompose.Lang.Decl
import ShaderCompose.Reader.Stmt

/-!
Reading shader classes, before their members are numbered.
-/

namespace ShaderCompose.Reader

/-! ## Members -/

def semantic? : Parser (Option String) :=
  Parser.optional (do symbol ":"; identifier)

def param : Parser Param := do
  let loc ← located
  let _ ← attributes
  let quals ← qualifiers
  let type ← typeRef
  let name ← identifier
  let array ← arraySize?
  let semantic ← semantic?
  let default ← Parser.optional assigned
  return { name, type := { type with array }, quals, semantic, default, loc }

def structField : Parser Param := do
  let field ← param
  symbol ";"
  return field

def stateField : Parser StateField := do
  let loc ← located
  let key ← identifier
  let value ← assigned
  symbol ";"
  return { key, value, loc }

/-- A value, or the settings of a sampler. -/
def initializer : Parser Initializer :=
  Parser.orElse (do let value ← assigned; return .expr value)
    (do
      symbol "\x7b"
      let fields ← Parser.many stateField
      symbol "\x7d"
      return .state fields)

def varRest (type : TypeRef) : Parser DeclKind := do
  let array ← arraySize?
  let semantic ← semantic?
  let init ← Parser.optional initializer
  symbol ";"
  return .var { type with array } semantic init

def methodRest (returns : TypeRef) : Parser DeclKind := do
  symbol "("
  let params ← Parser.separated (symbol ",") param
  symbol ")"
  let semantic ← semantic?
  let body ← Parser.orElse (do let body ← block statement; return some body) (do symbol ";"; return none)
  return .method returns params semantic body

def bufferMember : Parser Decl := do
  let loc ← located
  let attrs ← attributes
  let quals ← qualifiers
  let type ← typeRef
  let name ← identifier
  let kind ← varRest type
  return { name, loc, attrs, quals, kind }

/-- A member with the members inside it. -/
structure Member where
  decl : Decl
  inner : List Decl := []

/-- A buffer, from behind its qualifiers. -/
def bufferBody : Parser (BufferKind × String × List Decl) := do
  let kind ← Parser.orElse (do keyword "cbuffer"; return .constant) (do keyword "rgroup"; return .group)
  let name ← identifier
  symbol "\x7b"
  let members ← Parser.many bufferMember
  Parser.must (symbol "\x7d")
  let _ ← Parser.optional (symbol ";")
  return (kind, name, members)

def structBody : Parser (String × List Param) := do
  keyword "struct"
  let name ← identifier
  symbol "\x7b"
  let fields ← Parser.many structField
  Parser.must (symbol "\x7d")
  symbol ";"
  return (name, fields)

def valueBody : Parser (String × DeclKind) := do
  let type ← typeRef
  let name ← identifier
  let kind ← Parser.orElse (methodRest type) (varRest type)
  return (name, kind)

def member : Parser Member := do
  let loc ← located
  let attrs ← attributes
  let quals ← qualifiers
  Parser.oneOf
    [do
      let (kind, name, inner) ← bufferBody
      return { decl := { name, loc, attrs, quals, kind := .buffer kind [] }, inner },
     do
      let (name, fields) ← structBody
      return { decl := { name, loc, attrs, quals, kind := .struct fields } },
     do
      let (name, kind) ← valueBody
      return { decl := { name, loc, attrs, quals, kind } }]

/-! ## Classes -/

/-- A class before its members are numbered. -/
structure ClassText where
  name : String
  loc : Span
  generics : List GenericParam
  bases : List BaseRef
  members : List Member

def genericParam : Parser GenericParam := do
  let type ← typeRef
  let name ← identifier
  return { type, name }

def genericParams : Parser (List GenericParam) := do
  symbol "<"
  let params ← Parser.separated1 (symbol ",") genericParam
  symbol ">"
  return params

def baseRef : Parser BaseRef := do
  let loc ← located
  let name ← identifier
  let args ← templateArgs?
  return { name, args, loc }

def classText : Parser ClassText := do
  let loc ← located
  keyword "shader"
  let name ← Parser.must identifier
  let generics ← Parser.optional genericParams
  let bases ← Parser.optional (do symbol ":"; Parser.separated1 (symbol ",") baseRef)
  Parser.must (symbol "\x7b")
  let members ← Parser.many member
  Parser.must (symbol "\x7d")
  let _ ← Parser.optional (symbol ";")
  return { name, loc, generics := generics.getD [], bases := bases.getD [], members }

def classTexts : Parser (List ClassText) := do
  let classes ← Parser.many classText
  skip
  Parser.atEnd
  return classes

end ShaderCompose.Reader
