import ShaderCompose.Text.Blank
import ShaderCompose.Text.Integer

/-!
The names that every shader knows without declaring them: intrinsic functions and numeric types.
-/

namespace ShaderCompose

/-- Each intrinsic, with its fewest and most arguments. -/
def intrinsics : List (String × Nat × Nat) :=
  [("abs", 1, 1), ("acos", 1, 1), ("all", 1, 1), ("AllMemoryBarrier", 0, 0),
   ("AllMemoryBarrierWithGroupSync", 0, 0), ("any", 1, 1), ("asdouble", 2, 2), ("asfloat", 1, 1),
   ("asin", 1, 1), ("asint", 1, 1), ("asuint", 1, 3), ("atan", 1, 1), ("atan2", 2, 2),
   ("ceil", 1, 1), ("clamp", 3, 3), ("clip", 1, 1), ("cos", 1, 1), ("cosh", 1, 1),
   ("countbits", 1, 1), ("cross", 2, 2), ("ddx", 1, 1), ("ddx_coarse", 1, 1), ("ddx_fine", 1, 1),
   ("ddy", 1, 1), ("ddy_coarse", 1, 1), ("ddy_fine", 1, 1), ("degrees", 1, 1),
   ("determinant", 1, 1), ("DeviceMemoryBarrier", 0, 0),
   ("DeviceMemoryBarrierWithGroupSync", 0, 0), ("distance", 2, 2), ("dot", 2, 2), ("exp", 1, 1),
   ("exp2", 1, 1), ("f16tof32", 1, 1), ("f32tof16", 1, 1), ("faceforward", 3, 3),
   ("firstbithigh", 1, 1), ("firstbitlow", 1, 1), ("floor", 1, 1), ("fma", 3, 3), ("fmod", 2, 2),
   ("frac", 1, 1), ("frexp", 2, 2), ("fwidth", 1, 1), ("GroupMemoryBarrier", 0, 0),
   ("GroupMemoryBarrierWithGroupSync", 0, 0), ("InterlockedAdd", 2, 3), ("InterlockedAnd", 2, 3),
   ("InterlockedCompareExchange", 4, 4), ("InterlockedExchange", 3, 3), ("InterlockedMax", 2, 3),
   ("InterlockedMin", 2, 3), ("InterlockedOr", 2, 3), ("InterlockedXor", 2, 3), ("isfinite", 1, 1),
   ("isinf", 1, 1), ("isnan", 1, 1), ("ldexp", 2, 2), ("length", 1, 1), ("lerp", 3, 3),
   ("lit", 3, 3), ("log", 1, 1), ("log10", 1, 1), ("log2", 1, 1), ("mad", 3, 3), ("max", 2, 2),
   ("min", 2, 2), ("modf", 2, 2), ("mul", 2, 2), ("noise", 1, 1), ("normalize", 1, 1),
   ("pow", 2, 2), ("radians", 1, 1), ("rcp", 1, 1), ("reflect", 2, 2), ("refract", 3, 3),
   ("reversebits", 1, 1), ("round", 1, 1), ("rsqrt", 1, 1), ("saturate", 1, 1), ("sign", 1, 1),
   ("sin", 1, 1), ("sincos", 3, 3), ("sinh", 1, 1), ("smoothstep", 3, 3), ("sqrt", 1, 1),
   ("step", 2, 2), ("tan", 1, 1), ("tanh", 1, 1), ("tex2D", 2, 4), ("texCUBE", 2, 4),
   ("transpose", 1, 1), ("trunc", 1, 1)]

def intrinsicArity? (name : String) : Option (Nat × Nat) := intrinsics.lookup name

inductive Scalar where
  | bool
  | int
  | uint
  | dword
  | half
  | float
  | double
  | min16float
  | min16int
  | min16uint
  deriving DecidableEq, Repr, Inhabited

namespace Scalar

def all : List Scalar :=
  [bool, int, uint, dword, half, float, double, min16float, min16int, min16uint]

def name : Scalar → String
  | bool => "bool"
  | int => "int"
  | uint => "uint"
  | dword => "dword"
  | half => "half"
  | float => "float"
  | double => "double"
  | min16float => "min16float"
  | min16int => "min16int"
  | min16uint => "min16uint"

def ofName? (name : String) : Option Scalar := all.find? fun s => s.name == name

end Scalar

/-- A scalar, vector or matrix type. -/
structure NumericType where
  scalar : Scalar
  rows : Nat
  columns : Nat
  isMatrix : Bool
  deriving DecidableEq, Repr, Inhabited

namespace NumericType

def dimension? (c : Char) : Option Nat :=
  if '1' ≤ c ∧ c ≤ '4' then some (Text.digitValue c) else none

/-- The type with the given suffix. -/
def shape? (scalar : Scalar) : List Char → Option NumericType
  | [] => some ⟨scalar, 1, 1, false⟩
  | [n] => (dimension? n).map fun columns => ⟨scalar, 1, columns, false⟩
  | [n, 'x', m] =>
    (dimension? n).bind fun rows => (dimension? m).map fun columns => ⟨scalar, rows, columns, true⟩
  | _ => none

/-- The numeric type with this spelling. -/
def ofName? (name : String) : Option NumericType :=
  Scalar.all.findSome? fun scalar =>
    (Text.after? scalar.name.toList name.toList).bind (shape? scalar)

end NumericType

def isNumericType (name : String) : Bool := (NumericType.ofName? name).isSome

end ShaderCompose
