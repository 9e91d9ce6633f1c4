import ShaderCompose.Lang.Span
import ShaderCompose.Text.Integer
import ShaderCompose.Text.Lines

/-!
Where the lines of a preprocessed text came from, as markers in it say.
-/

namespace ShaderCompose

/-- The file and line that a line came from. -/
structure Origin where
  file : String
  line : Nat
  deriving DecidableEq, Repr, Inhabited

namespace Origin

/-- The line and file that a marker names. -/
def marker? (line : List Char) : Option (Nat × Option String) := do
  let hash ← Text.after? ['#'] (Text.trimStart line)
  let rest ← Text.after? ['l', 'i', 'n', 'e'] (Text.trimStart hash)
  let parts := Text.words rest
  let number ← parts.head?.bind Text.readUInt32
  return (number, parts[1]?.map fun name => String.ofList (Text.trimQuotes name))

def next (o : Origin) (line : List Char) : Origin :=
  match marker? line with
  | some (number, some file) => ⟨file, number⟩
  | some (number, none) => ⟨o.file, number⟩
  | none => ⟨o.file, o.line + 1⟩

def ofLines : Origin → List (List Char) → List Origin
  | _, [] => []
  | o, line :: rest => o :: ofLines (o.next line) rest

end Origin

/-- The origin of every line. -/
structure LineMap where
  file : String
  origins : List Origin
  deriving Repr, Inhabited

namespace LineMap

def ofText (file : String) (text : List Char) : LineMap :=
  ⟨file, Origin.ofLines ⟨file, 1⟩ (Text.pieces text)⟩

/-- A position in the file that it came from. -/
def span (m : LineMap) (line column : Nat) : Span :=
  match m.origins[line - 1]? with
  | some o => ⟨o.file, o.line, column⟩
  | none => ⟨m.file, line, column⟩

end LineMap

end ShaderCompose
