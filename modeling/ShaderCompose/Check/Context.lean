import ShaderCompose.Library.Basic
import ShaderCompose.Module.Table

/-!
The classes of one request with the members visible in each, and the classes that are visible
everywhere.
-/

namespace ShaderCompose

/-- A loaded class and the members visible in it. -/
structure KnownClass where
  loaded : LoadedClass
  table : MemberTable

/-- What is known while one request is compiled. -/
structure Context where
  classes : List KnownClass
  builtins : List Module
  macros : List MacroDef

/-- The first builtin with a member of the name. -/
def builtinMember? (builtins : List Module) (name : String) : Option (Module × DeclId) :=
  builtins.findSome? fun m =>
    (m.cls.memberDecls.find? fun e => e.2.name == name).map fun e => (m, e.1)

namespace Context

def make (loaded : Cache) (builtins : List Module) (macros : List MacroDef) : Context where
  classes :=
    ((loaded.map (·.2)).mergeSort fun a b => a.key.atMost b.key).map fun c =>
      ⟨c, .ofModule c.module⟩
  builtins := builtins
  macros := macros

def find? (c : Context) (key : ModuleKey) : Option KnownClass :=
  c.classes.find? fun k => k.loaded.key == key

def table? (c : Context) (key : ModuleKey) : Option MemberTable := (c.find? key).map KnownClass.table

/-- The members of the class that a slot is typed with. -/
def slotTable? (c : Context) (type : TypeRef) : Option MemberTable :=
  c.table? (ClassRef.key ⟨type.name, type.template⟩ c.macros)

def declarationLog (c : Context) : Log := c.classes.flatMap fun k => k.table.log

end Context

end ShaderCompose
