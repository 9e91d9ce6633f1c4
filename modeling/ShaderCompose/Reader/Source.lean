import ShaderCompose.Diagnostic.Log
import ShaderCompose.Reader.Class

/-!
Reading a whole source: its classes with their members numbered, or a diagnostic at the place where
the text goes wrong.
-/

namespace ShaderCompose.Reader

/-- The stage that an attribute names. -/
def entryStage (method : String) (a : Attribute) : Except String Stage :=
  match a.text? with
  | none => .error s!"the EntryPoint attribute of `{method}` must name a stage"
  | some name =>
    match Stage.ofName? name with
    | some stage => .ok stage
    | none => .error (Stage.unknown name)

/-- The first such attribute becomes the stage. -/
def takeEntryPoint (d : Decl) : Decl × Log :=
  match d.attrs.find? fun a => a.name == "EntryPoint" with
  | none => (d, [])
  | some a =>
    let d := { d with attrs := d.attrs.eraseP fun a => a.name == "EntryPoint" }
    match entryStage d.name a with
    | .ok stage => ({ d with entry := some stage }, [])
    | .error text => (d, [.errorAt d.loc (.parseError text)])

def withMembers (ids : List DeclId) (d : Decl) : Decl :=
  match d.kind with
  | .buffer kind _ => { d with kind := .buffer kind ids }
  | _ => d

/-- Number what is inside a member, then the member. -/
def addMember (c : ShaderClass) (m : Member) : ShaderClass × Log :=
  let (d, log) := takeEntryPoint m.decl
  let ids := List.range' c.table.size m.inner.length
  let table := c.table ++ m.inner.toArray
  ({ c with table := table.push (withMembers ids d), members := c.members ++ [table.size] }, log)

def numberMember (s : ShaderClass × Log) (m : Member) : ShaderClass × Log :=
  let (c, more) := addMember s.1 m
  (c, s.2 ++ more)

/-- The class with its members numbered. -/
def ClassText.number (t : ClassText) : ShaderClass × Log :=
  t.members.foldl numberMember ({ name := t.name, loc := t.loc, generics := t.generics, bases := t.bases }, [])

/-- The text that a message shows. -/
def excerpt (c : Cursor) : String :=
  match (c.rest.takeWhile (· != '\n')).take 24 with
  | [] => "end of file"
  | text => s!"`{String.ofList (Text.trim text)}`"

/-- The classes of a source. -/
def source (text file : String) : List ShaderClass × Log :=
  match classTexts (.start file text.toList) with
  | .ok classes _ =>
    let numbered := classes.map ClassText.number
    (numbered.map (·.1), numbered.flatMap (·.2))
  | .miss place | .fail place =>
    ([], [.errorAt place.span (.parseError s!"unexpected {excerpt place}")])

end ShaderCompose.Reader
