import ShaderCompose.Lang.Builtin
import ShaderCompose.Number.Binary

/-!
What a runtime has to know to bind the parameters of a shader: resources by register slot, constant
buffers with the places of their members, and sampler states.
-/

namespace ShaderCompose

inductive RegisterClass where
  | shaderResource
  | unorderedAccess
  | sampler
  | constantBuffer
  deriving DecidableEq, Repr, Inhabited

namespace RegisterClass

def letter : RegisterClass → String
  | shaderResource => "t"
  | unorderedAccess => "u"
  | sampler => "s"
  | constantBuffer => "b"

def name : RegisterClass → String
  | shaderResource => "ShaderResource"
  | unorderedAccess => "UnorderedAccess"
  | sampler => "Sampler"
  | constantBuffer => "ConstantBuffer"

end RegisterClass

/-- The shape of a parameter. -/
inductive ParameterClass where
  | scalar
  | vector
  | matrix
  | struct
  | object
  deriving DecidableEq, Repr, Inhabited

def ParameterClass.name : ParameterClass → String
  | scalar => "Scalar"
  | vector => "Vector"
  | matrix => "Matrix"
  | struct => "Struct"
  | object => "Object"

inductive ResourceType where
  | texture1D
  | texture1DArray
  | texture2D
  | texture2DArray
  | texture2DMS
  | texture3D
  | textureCube
  | textureCubeArray
  | buffer
  | structuredBuffer
  | byteAddressBuffer
  | rwTexture1D
  | rwTexture2D
  | rwTexture2DArray
  | rwTexture3D
  | rwBuffer
  | rwStructuredBuffer
  | appendStructuredBuffer
  | consumeStructuredBuffer
  | rwByteAddressBuffer
  | sampler
  deriving DecidableEq, Repr, Inhabited

namespace ResourceType

def ofName? : String → Option ResourceType
  | "Texture1D" => some texture1D
  | "Texture1DArray" => some texture1DArray
  | "Texture2D" => some texture2D
  | "Texture2DArray" => some texture2DArray
  | "Texture2DMS" => some texture2DMS
  | "Texture3D" => some texture3D
  | "TextureCube" => some textureCube
  | "TextureCubeArray" => some textureCubeArray
  | "Buffer" => some buffer
  | "StructuredBuffer" => some structuredBuffer
  | "ByteAddressBuffer" => some byteAddressBuffer
  | "RWTexture1D" => some rwTexture1D
  | "RWTexture2D" => some rwTexture2D
  | "RWTexture2DArray" => some rwTexture2DArray
  | "RWTexture3D" => some rwTexture3D
  | "RWBuffer" => some rwBuffer
  | "RWStructuredBuffer" => some rwStructuredBuffer
  | "AppendStructuredBuffer" => some appendStructuredBuffer
  | "ConsumeStructuredBuffer" => some consumeStructuredBuffer
  | "RWByteAddressBuffer" => some rwByteAddressBuffer
  | "SamplerState" | "SamplerComparisonState" | "sampler" => some sampler
  | _ => none

def name : ResourceType → String
  | texture1D => "Texture1D"
  | texture1DArray => "Texture1DArray"
  | texture2D => "Texture2D"
  | texture2DArray => "Texture2DArray"
  | texture2DMS => "Texture2DMS"
  | texture3D => "Texture3D"
  | textureCube => "TextureCube"
  | textureCubeArray => "TextureCubeArray"
  | buffer => "Buffer"
  | structuredBuffer => "StructuredBuffer"
  | byteAddressBuffer => "ByteAddressBuffer"
  | rwTexture1D => "RWTexture1D"
  | rwTexture2D => "RWTexture2D"
  | rwTexture2DArray => "RWTexture2DArray"
  | rwTexture3D => "RWTexture3D"
  | rwBuffer => "RWBuffer"
  | rwStructuredBuffer => "RWStructuredBuffer"
  | appendStructuredBuffer => "AppendStructuredBuffer"
  | consumeStructuredBuffer => "ConsumeStructuredBuffer"
  | rwByteAddressBuffer => "RWByteAddressBuffer"
  | sampler => "Sampler"

/-- The registers that a resource is bound to. -/
def register : ResourceType → RegisterClass
  | texture1D | texture1DArray | texture2D | texture2DArray | texture2DMS | texture3D
  | textureCube | textureCubeArray | buffer | structuredBuffer | byteAddressBuffer =>
    .shaderResource
  | rwTexture1D | rwTexture2D | rwTexture2DArray | rwTexture3D | rwBuffer | rwStructuredBuffer
  | appendStructuredBuffer | consumeStructuredBuffer | rwByteAddressBuffer => .unorderedAccess
  | sampler => .sampler

end ResourceType

inductive ValueType where
  | void
  | bool
  | int
  | uint
  | float
  | double
  deriving DecidableEq, Repr, Inhabited

namespace ValueType

def name : ValueType → String
  | void => "Void"
  | bool => "Bool"
  | int => "Int"
  | uint => "UInt"
  | float => "Float"
  | double => "Double"

/-- How a scalar type is stored. -/
def ofScalar : Scalar → ValueType
  | .bool => bool
  | .int | .dword | .min16int => int
  | .uint | .min16uint => uint
  | .float | .half | .min16float => float
  | .double => double

/-- The bytes of a component. -/
def size : ValueType → Nat
  | double => 8
  | _ => 4

end ValueType

/-- What takes a slot. -/
inductive BoundType where
  | resource (type : ResourceType)
  | constantBuffer
  deriving DecidableEq, Repr, Inhabited

namespace BoundType

def name : BoundType → String
  | resource type => type.name
  | constantBuffer => "ConstantBuffer"

def register : BoundType → RegisterClass
  | resource type => type.register
  | constantBuffer => .constantBuffer

end BoundType

/-- A resource and its slots. -/
structure ResourceBinding where
  key : String
  rawName : String
  type : BoundType
  slot : Nat
  count : Nat
  deriving DecidableEq, Repr, Inhabited

/-- A value and its place in a buffer. -/
structure ValueMember where
  key : String
  rawName : String
  typeName : String
  shape : ParameterClass
  type : ValueType
  rows : Nat
  columns : Nat
  elements : Nat
  offset : Nat
  size : Nat
  deriving DecidableEq, Repr, Inhabited

/-- A buffer with its values. -/
structure ConstantBuffer where
  name : String
  size : Nat
  members : List ValueMember
  deriving DecidableEq, Repr, Inhabited

/-! ## Sampler states -/

/-- How a sampler filters. -/
inductive TextureFilter where
  | point
  | linear
  | minMagLinearMipPoint
  | anisotropic
  | comparisonPoint
  | comparisonMinMagLinearMipPoint
  deriving DecidableEq, Repr, Inhabited

namespace TextureFilter

def ofSetting? : String → Option TextureFilter
  | "MIN_MAG_MIP_POINT" => some point
  | "MIN_MAG_MIP_LINEAR" => some linear
  | "MIN_MAG_LINEAR_MIP_POINT" => some minMagLinearMipPoint
  | "ANISOTROPIC" => some anisotropic
  | "COMPARISON_MIN_MAG_MIP_POINT" => some comparisonPoint
  | "COMPARISON_MIN_MAG_LINEAR_MIP_POINT" => some comparisonMinMagLinearMipPoint
  | _ => none

def name : TextureFilter → String
  | point => "Point"
  | linear => "Linear"
  | minMagLinearMipPoint => "MinMagLinearMipPoint"
  | anisotropic => "Anisotropic"
  | comparisonPoint => "ComparisonPoint"
  | comparisonMinMagLinearMipPoint => "ComparisonMinMagLinearMipPoint"

end TextureFilter

def lowerCase (s : String) : String := String.ofList (s.toList.map Char.toLower)

/-- How a sampler treats the border. -/
inductive AddressMode where
  | wrap
  | mirror
  | clamp
  | border
  | mirrorOnce
  deriving DecidableEq, Repr, Inhabited

namespace AddressMode

def ofSetting? (s : String) : Option AddressMode :=
  match lowerCase s with
  | "wrap" => some wrap
  | "mirror" => some mirror
  | "clamp" => some clamp
  | "border" => some border
  | "mirroronce" | "mirror_once" => some mirrorOnce
  | _ => none

def name : AddressMode → String
  | wrap => "Wrap"
  | mirror => "Mirror"
  | clamp => "Clamp"
  | border => "Border"
  | mirrorOnce => "MirrorOnce"

end AddressMode

/-- How a sampler compares. -/
inductive Comparison where
  | never
  | less
  | equal
  | lessEqual
  | greater
  | notEqual
  | greaterEqual
  | always
  deriving DecidableEq, Repr, Inhabited

namespace Comparison

def ofSetting? (s : String) : Option Comparison :=
  match lowerCase s with
  | "never" => some never
  | "less" => some less
  | "equal" => some equal
  | "lessequal" | "less_equal" => some lessEqual
  | "greater" => some greater
  | "notequal" | "not_equal" => some notEqual
  | "greaterequal" | "greater_equal" => some greaterEqual
  | "always" => some always
  | _ => none

def name : Comparison → String
  | never => "Never"
  | less => "Less"
  | equal => "Equal"
  | lessEqual => "LessEqual"
  | greater => "Greater"
  | notEqual => "NotEqual"
  | greaterEqual => "GreaterEqual"
  | always => "Always"

end Comparison

abbrev Single := Number.Binary Number.single

/-- The state of a sampler, with its defaults. -/
structure SamplerState where
  filter : TextureFilter := .linear
  addressU : AddressMode := .clamp
  addressV : AddressMode := .clamp
  addressW : AddressMode := .clamp
  comparison : Comparison := .never
  borderColor : List Single := List.replicate 4 (.zero _)
  minMipLevel : Single := .zero _
  maxMipLevel : Single := ⟨false, Number.single.largest⟩
  mipLodBias : Single := .zero _
  maxAnisotropy : Nat := 16
  deriving DecidableEq, Repr

structure NamedSampler where
  key : String
  state : SamplerState
  deriving DecidableEq, Repr

/-- All that is bound. -/
structure Reflection where
  bindings : List ResourceBinding := []
  buffers : List ConstantBuffer := []
  samplers : List NamedSampler := []
  deriving DecidableEq, Repr

namespace Reflection

/-- The buffer of the values outside of any. -/
def globalsName : String := "$Globals"

def binding? (r : Reflection) (rawName : String) : Option ResourceBinding :=
  r.bindings.find? fun b => b.rawName == rawName

end Reflection

end ShaderCompose
