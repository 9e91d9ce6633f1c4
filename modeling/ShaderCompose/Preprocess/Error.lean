/-!
What can go wrong when a source is looked up and preprocessed.
-/

namespace ShaderCompose

inductive PreprocessError where
  | notFound (name : String)
  | unreadable (path : String)
  | unexpectedEnd (line : Nat)
  | tooDeep (limit : Nat)
  | unexpectedDirective (line : Nat) (directive : String)
  | unclosed (line : Nat)
  | malformed (line : Nat) (text : String)
  | demanded (line : Nat) (message : String)
  deriving DecidableEq, Repr, Inhabited

namespace PreprocessError

def message : PreprocessError → String
  | notFound name => s!"shader `{name}` was not found in any lookup directory"
  | unreadable _ => "the file was not found during resolution"
  | unexpectedEnd _ => "unexpected end of line"
  | tooDeep limit => s!"include depth exceeded the maximum of {limit}"
  | unexpectedDirective line directive => s!"unexpected `#{directive}` on line {line}"
  | unclosed line => s!"conditional opened on line {line} was never closed"
  | malformed line text => s!"malformed directive on line {line}: {text}"
  | demanded line message => s!"#error on line {line}: {message}"

end PreprocessError

end ShaderCompose
