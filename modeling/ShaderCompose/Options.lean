import ShaderCompose.Lang.Stage

/-!
What a user can choose about loading and mixing.
-/

namespace ShaderCompose

structure Options where
  warnUnknownSlot : Bool := true
  fillGenerics : Bool := false
  required : List Stage := []
  deriving DecidableEq, Repr, Inhabited

namespace Options

/-- One more required stage; twice is once. -/
def require (o : Options) (stage : Stage) : Options :=
  if o.required.contains stage then o else { o with required := o.required ++ [stage] }

end Options

end ShaderCompose
