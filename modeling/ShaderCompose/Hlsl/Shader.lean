import ShaderCompose.Hlsl.Expr
import ShaderCompose.Lang.Decl
import ShaderCompose.Reflect.Basic

/-!
The HLSL text of shaders. Declarations are written in order, and resources carry the registers of
the reflection.
-/

namespace ShaderCompose.Hlsl

def indentation (depth : Nat) : String := String.join (List.replicate depth "    ")

def keywordsText (quals : Qualifiers) : String :=
  String.join (quals.keywords.map fun keyword => keyword ++ " ")

def arrayText (type : TypeRef) : String :=
  match type.array with
  | none => ""
  | some .unsized => "[]"
  | some (.fixed size) => "[" ++ expr size ++ "]"

def semanticText (semantic : Option String) : String :=
  match semantic with
  | some semantic => " : " ++ semantic
  | none => ""

def valueText (value : Option Expr) : String :=
  match value with
  | some value => " = " ++ expr value
  | none => ""

/-- One line for each attribute. -/
def attributesText (depth : Nat) (attrs : List Attribute) : String :=
  String.join <| attrs.map fun a =>
    let arguments := if a.args.isEmpty then "" else "(" ++ args a.args ++ ")"
    indentation depth ++ "[" ++ a.name ++ arguments ++ "]\n"

def paramText (p : Param) : String :=
  keywordsText p.quals ++ p.type.text ++ " " ++ p.name ++ arrayText p.type ++
    semanticText p.semantic ++ valueText p.default

/-! ## Statements -/

/-- A declaration or an expression, without its end. -/
def simpleText : Simple → String
  | .declare quals type name init =>
    keywordsText quals ++ type.text ++ " " ++ name ++ arrayText type ++ valueText init
  | .expr value => expr value

def keywordLine (depth : Nat) (text : String) : String := indentation depth ++ text ++ ";\n"

def isBlock : Stmt → Bool
  | .block .. => true
  | _ => false

mutual

def stmtText (depth : Nat) : Stmt → String
  | .block lead body => attributesText depth lead.attrs ++ blockText depth body
  | .simple lead what =>
    attributesText depth lead.attrs ++ indentation depth ++ simpleText what ++ ";\n"
  | .ret lead value =>
    attributesText depth lead.attrs ++ indentation depth ++ "return" ++
      (match value with
        | some value => " " ++ expr value
        | none => "") ++ ";\n"
  | .ifThen lead condition yes =>
    attributesText depth lead.attrs ++ indentation depth ++ "if (" ++ expr condition ++ ")\n" ++
      stmtText (if isBlock yes then depth else depth + 1) yes
  | .ifElse lead condition yes no =>
    attributesText depth lead.attrs ++ indentation depth ++ "if (" ++ expr condition ++ ")\n" ++
      stmtText (if isBlock yes then depth else depth + 1) yes ++ indentation depth ++ "else\n" ++
      stmtText (if isBlock no then depth else depth + 1) no
  | .forLoop lead init condition step body =>
    attributesText depth lead.attrs ++ indentation depth ++ "for (" ++
      (match init with
        | some (_, what) => simpleText what
        | none => "") ++ "; " ++
      (match condition with
        | some condition => expr condition
        | none => "") ++ "; " ++
      (match step with
        | some step => expr step
        | none => "") ++ ")\n" ++
      stmtText (if isBlock body then depth else depth + 1) body
  | .whileLoop lead condition body =>
    attributesText depth lead.attrs ++ indentation depth ++ "while (" ++ expr condition ++ ")\n" ++
      stmtText (if isBlock body then depth else depth + 1) body
  | .forEach lead name collection body =>
    attributesText depth lead.attrs ++ indentation depth ++ "foreach (var " ++ name ++ " in " ++
      expr collection ++ ")\n" ++ stmtText (if isBlock body then depth else depth + 1) body
  | .breakLoop lead => attributesText depth lead.attrs ++ keywordLine depth "break"
  | .continueLoop lead => attributesText depth lead.attrs ++ keywordLine depth "continue"
  | .discard lead => attributesText depth lead.attrs ++ keywordLine depth "discard"
  | .empty lead => attributesText depth lead.attrs ++ keywordLine depth ""

def blockText (depth : Nat) (body : List Stmt) : String :=
  indentation depth ++ "\x7b\n" ++ stmtsText (depth + 1) body ++ indentation depth ++ "\x7d\n"

def stmtsText (depth : Nat) : List Stmt → String
  | [] => ""
  | s :: ss => stmtText depth s ++ stmtsText depth ss

end

/-! ## Declarations -/

/-- The register of a resource, if it is bound. -/
def registerText (reflection : Option Reflection) (name : String) : String :=
  match reflection.bind fun r => r.binding? name with
  | some b => s!" : register({b.type.register.letter}{b.slot})"
  | none => ""

def varText (reflection : Option Reflection) (depth : Nat) (d : Decl) (type : TypeRef)
    (semantic : Option String) (init : Option Initializer) : String :=
  attributesText depth d.attrs ++ indentation depth ++ keywordsText d.quals ++ type.text ++ " " ++
    d.name ++ arrayText type ++ semanticText semantic ++ registerText reflection d.name ++
    (match init with
      | some (.expr value) => " = " ++ expr value
      | _ => "") ++ ";\n"

/-- A method, with a comment that names its entry point. -/
def methodText (depth : Nat) (d : Decl) (returns : TypeRef) (params : List Param)
    (semantic : Option String) (body : Option (List Stmt)) : String :=
  (match d.entry with
    | some stage => indentation depth ++ s!"// {stage.name} entry point\n"
    | none => "") ++
    attributesText depth d.attrs ++ indentation depth ++ keywordsText d.quals ++ returns.text ++
    " " ++ d.name ++ "(" ++ ", ".intercalate (params.map paramText) ++ ")" ++
    semanticText semantic ++
    (match body with
      | some body => "\n" ++ blockText depth body
      | none => ";\n")

def structText (depth : Nat) (d : Decl) (fields : List Param) : String :=
  let start := indentation depth
  let field (f : Param) : String := indentation (depth + 1) ++ paramText f ++ ";\n"
  start ++ s!"struct {d.name}\n" ++ start ++ "\x7b\n" ++ String.join (fields.map field) ++ start ++ "\x7d;\n"

/-- A buffer; its resources stand outside of it. -/
def bufferText (reflection : Option Reflection) (depth : Nat) (d : Decl) (kind : BufferKind)
    (members : List Decl) (write : Nat → Decl → String) : String :=
  let isResource (m : Decl) : Bool := kind == .group && (reflection.bind fun r => r.binding? m.name).isSome
  let (resources, values) := members.partition isResource
  let start := indentation depth
  String.join (resources.map (write depth)) ++ attributesText depth d.attrs ++ start ++
    "cbuffer " ++ d.name ++ registerText reflection d.name ++ "\n" ++ start ++ "\x7b\n" ++
    String.join (values.map (write (depth + 1))) ++ start ++ "\x7d;\n"

def declText (reflection : Option Reflection) (shader : Shader) : (levels : Nat) → (depth : Nat) → Decl → String
  | levels, depth, d =>
    match d.kind with
    | .var type semantic init => varText reflection depth d type semantic init
    | .method returns params semantic body => methodText depth d returns params semantic body
    | .struct fields => structText depth d fields
    | .buffer kind members =>
      match levels with
      | 0 => ""
      | levels + 1 =>
        bufferText reflection depth d kind (shader.select members) (declText reflection shader levels)

/-- A blank line stands between all but variables. -/
def declsText (write : Decl → String) : List Decl → String
  | [] => ""
  | [d] => write d
  | d :: e :: rest =>
    write d ++ (if d.isVar && e.isVar then "" else "\n") ++ declsText write (e :: rest)

/-- The text of a shader. -/
def shader (reflection : Option Reflection) (s : Shader) : String :=
  declsText (declText reflection s (s.table.size + 1) 0) s.decls

end ShaderCompose.Hlsl
