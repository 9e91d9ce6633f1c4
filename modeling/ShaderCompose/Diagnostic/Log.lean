import ShaderCompose.Diagnostic.Message
import ShaderCompose.Lang.Span

/-!
Diagnostics and logs. A log lists findings in order, and one with an error stops a compilation.
-/

namespace ShaderCompose

/-- How grave a finding is. -/
inductive Severity where
  | info
  | warning
  | error
  deriving DecidableEq, Repr, Inhabited

namespace Severity

def text : Severity → String
  | info => "info"
  | warning => "warning"
  | error => "error"

end Severity

/-- One finding, with its place if it has one. -/
structure Diagnostic where
  severity : Severity
  loc : Option Span
  message : Message
  deriving DecidableEq, Repr, Inhabited

namespace Diagnostic

def error (message : Message) : Diagnostic := ⟨.error, none, message⟩

def errorAt (loc : Span) (message : Message) : Diagnostic := ⟨.error, some loc, message⟩

def warning (message : Message) : Diagnostic := ⟨.warning, none, message⟩

def text (d : Diagnostic) : String :=
  let place := match d.loc with
    | some loc => loc.text ++ ": "
    | none => ""
  s!"{place}{d.severity.text}: {d.message.text}"

end Diagnostic

abbrev Log := List Diagnostic

namespace Log

/-- Some finding is an error. -/
def hasErrors (log : Log) : Bool := log.any fun d => d.severity == .error

def text (log : Log) : String := String.join (log.map fun d => d.text ++ "\n")

@[simp]
theorem hasErrors_nil : hasErrors [] = false := rfl

@[simp]
theorem hasErrors_append (a b : Log) : hasErrors (a ++ b) = (a.hasErrors || b.hasErrors) := by
  simp [hasErrors]

theorem quiet_of_prefix {a b : Log} (h : a <+: b) (hb : b.hasErrors = false) : a.hasErrors = false := by
  obtain ⟨more, rfl⟩ := h
  rw [hasErrors_append, Bool.or_eq_false_iff] at hb
  exact hb.1

end Log

end ShaderCompose
