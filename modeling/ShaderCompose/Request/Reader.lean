import ShaderCompose.Reader.Token
import ShaderCompose.Request.Basic
import ShaderCompose.Text.Letter

/-!
Reading requests from their compact text, such as `Root<1,2>+Extra(light=PointLight,
lights=[SpotLight,PointLight])`.
-/

namespace ShaderCompose.Request

open Reader (Parser Cursor Outcome)

/-- Blanks around a part are skipped. -/
def spaced {α : Type} (p : Parser α) : Parser α := do
  let _ ← Parser.takeWhile Reader.isSpace
  let a ← p
  let _ ← Parser.takeWhile Reader.isSpace
  return a

def spacedTag (c : Char) : Parser Unit := spaced (Parser.tag [c])

def nameText : Parser String := do
  let name ← spaced (Parser.takeWhile1 fun c => Text.isAlphanumeric c || c == '_')
  return String.ofList name

def genericText : Parser String := do
  let text ← spaced (Parser.takeWhile1 fun c => c != ',' && c != '>')
  return String.ofList (Text.trim text)

def genericTexts : Parser (List String) := do
  Parser.tag ['<']
  let generics ← Parser.separated1 (Parser.tag [',']) genericText
  Parser.tag ['>']
  return generics

def classRef : Parser ClassRef := do
  let name ← nameText
  let generics ← Parser.optional genericTexts
  return { name, generics := generics.getD [] }

section Nested

variable (nested : Parser Request)

def slotText : Parser (String × Request) := do
  let slot ← nameText
  Parser.tag ['=']
  let value ← nested
  return (slot, value)

def slotsText : Parser (List (String × Request)) := do
  spacedTag '('
  let slots ← Parser.separated1 (Parser.tag [',']) (slotText nested)
  spacedTag ')'
  return slots

/-- One class without slots is no mixin. -/
def mixinText : Parser Request := do
  let bases ← Parser.separated1 (Parser.tag ['+']) classRef
  let slots ← Parser.optional (slotsText nested)
  return match bases, slots with
    | [cls], none => .single cls
    | bases, slots => .mixin bases (slots.getD []) []

def arrayText : Parser Request := do
  spacedTag '['
  let values ← Parser.separated1 (Parser.tag [',']) nested
  spacedTag ']'
  return .array values

end Nested

/-- A request that is nested less than `fuel` deep. -/
def treeFrom : (fuel : Nat) → Parser Request
  | 0 => Parser.miss
  | fuel + 1 => Parser.orElse (arrayText (treeFrom fuel)) (mixinText (treeFrom fuel))

def tree : Parser Request := fun c => treeFrom (c.rest.length + 1) c

/-- Where a text is no request. -/
structure Malformed where
  text : String
  offset : Nat
  deriving DecidableEq, Repr, Inhabited

def Malformed.message (m : Malformed) : String :=
  s!"malformed shader source `{m.text}` at offset {m.offset}"

/-- The request that a whole text is. -/
def ofText (s : String) : Except Malformed Request :=
  match (do let r ← tree; Parser.atEnd; return r : Parser Request) (.start "" s.toList) with
  | .ok r _ => .ok r
  | .miss place | .fail place =>
    .error ⟨s, s.utf8ByteSize - (String.ofList place.rest).utf8ByteSize⟩

end ShaderCompose.Request
