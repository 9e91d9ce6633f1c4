/-!
Positions in source files.
-/

namespace ShaderCompose

/-- A place in a file; lines and columns count from one. -/
structure Span where
  file : String
  line : Nat
  column : Nat
  deriving DecidableEq, Repr, Inhabited

namespace Span

/-- The place of what no source declares. -/
def generated : Span := ⟨"<generated>", 0, 0⟩

def text (s : Span) : String := s!"{s.file}({s.line},{s.column})"

end Span

end ShaderCompose
