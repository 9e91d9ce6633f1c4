import ShaderCompose.Lang.Span

/-!
Requests: a class, a mixin of classes with values for their slots, or an array of such values.
-/

namespace ShaderCompose

/-- A definition; its text may be empty. -/
structure MacroDef where
  name : String
  text : String
  deriving DecidableEq, Ord, Repr, Inhabited

/-- A class with the texts of its arguments. -/
structure ClassRef where
  name : String
  generics : List String := []
  deriving DecidableEq, Repr, Inhabited

namespace ClassRef

def text (c : ClassRef) : String :=
  if c.generics.isEmpty then c.name else c.name ++ "<" ++ ",".intercalate c.generics ++ ">"

end ClassRef

/-- What is asked for. -/
inductive Request where
  | single (cls : ClassRef)
  | mixin (bases : List ClassRef) (slots : List (String × Request)) (macros : List MacroDef)
  | array (values : List Request)
  deriving Repr, Inhabited

namespace Request

mutual

/-- All definitions, outer ones first. -/
def collectMacros : Request → List MacroDef
  | single _ => []
  | mixin _ slots macros => macros ++ slotMacros slots
  | array values => listMacros values

def slotMacros : List (String × Request) → List MacroDef
  | [] => []
  | (_, r) :: rest => r.collectMacros ++ slotMacros rest

def listMacros : List Request → List MacroDef
  | [] => []
  | r :: rest => r.collectMacros ++ listMacros rest

end

def joinWith (between : String) : List String → String
  | [] => ""
  | [s] => s
  | s :: rest => s ++ between ++ joinWith between rest

mutual

/-- The request as it is written, without its definitions. -/
def text : Request → String
  | single cls => cls.text
  | mixin bases slots _ =>
    let names := joinWith "+" (bases.map ClassRef.text)
    match slots with
    | [] => names
    | _ :: _ => names ++ "(" ++ joinWith ", " (slotTexts slots) ++ ")"
  | array values => "[" ++ joinWith "," (listTexts values) ++ "]"

def slotTexts : List (String × Request) → List String
  | [] => []
  | (slot, r) :: rest => (slot ++ "=" ++ r.text) :: slotTexts rest

def listTexts : List Request → List String
  | [] => []
  | r :: rest => r.text :: listTexts rest

end

end Request

end ShaderCompose
