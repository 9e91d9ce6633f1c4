import ShaderCompose.Diagnostic.Message
import ShaderCompose.Lang.Decl
import ShaderCompose.Reflect.Basic

/-!
The layout of values in the registers of a constant buffer. A value crosses the end of a register
only if it is larger than one.
-/

namespace ShaderCompose.Layout

/-- The bytes of a register. -/
def registerSize : Nat := 16

/-- A number that fits 32 bits. -/
def word? (n : Nat) : Option Nat := if n < UInt32.size then some n else none

/-- The next boundary of a register. -/
def align? (offset : Nat) : Option Nat :=
  word? ((offset + (registerSize - 1)) / registerSize * registerSize)

/-- What a value needs. -/
structure Placement where
  size : Nat
  stride : Nat
  aligned : Bool
  deriving DecidableEq, Repr, Inhabited

namespace Placement

/-- Where a value starts, from an offset on. -/
def start? (p : Placement) (offset : Nat) : Option Nat :=
  (word? (offset % registerSize + p.size)).bind fun last =>
    if p.aligned || decide (registerSize < last) then align? offset else some offset

/-- Where it starts and where it ends. -/
def range? (p : Placement) (offset : Nat) : Option (Nat × Nat) :=
  (p.start? offset).bind fun start => (word? (start + p.size)).map fun stop => (start, stop)

/-- The placement of an array. -/
def repeat? (p : Placement) (count : Nat) : Option Placement :=
  if count = 0 then some p
  else (word? ((count - 1) * p.stride)).bind fun before =>
    (word? (before + p.size)).map fun size => { size, stride := p.stride, aligned := true }

def ofNumeric (t : NumericType) : Placement :=
  let component := (ValueType.ofScalar t.scalar).size
  let (registers, last) :=
    if t.isMatrix then (t.columns, t.rows * component) else (1, t.columns * component)
  { size := (registers - 1) * registerSize + last
    stride := registers * registerSize
    aligned := decide (1 < registers) }

end Placement

/-- Why a value has no place. -/
inductive LayoutError where
  | unknownType
  | recursive (struct : String)
  | arraySize
  | tooLarge
  deriving DecidableEq, Repr, Inhabited

def LayoutError.report (subject : String) : LayoutError → Message
  | unknownType => .cannotLink subject
  | recursive struct => .recursiveStruct struct
  | arraySize => .arraySizeNotConstant subject
  | tooLarge => .parameterTooLarge subject

/-- Structures with their fields. -/
abbrev Structs := List (String × List Param)

/-- The length of an array, which must be constant. -/
def arrayLength (t : TypeRef) : Except LayoutError (Option Nat) :=
  if t.isArray then
    match t.arrayLength? with
    | some n => .ok (some n)
    | none => .error .arraySize
  else .ok none

def orError {α : Type} (e : LayoutError) : Option α → Except LayoutError α
  | some a => .ok a
  | none => .error e

/-- The offset behind the fields of a structure. -/
def fieldsEnd (place : TypeRef → Except LayoutError Placement) : Nat → List Param → Except LayoutError Nat
  | offset, [] => .ok offset
  | offset, f :: fs => do
    let p ← place f.type
    let (_, stop) ← orError .tooLarge (p.range? offset)
    fieldsEnd place stop fs

/-- The placement of a type below the structures on `path`. -/
def placementFrom (structs : Structs) : (fuel : Nat) → (path : List String) → TypeRef → Except LayoutError Placement
  | fuel, path, t => do
    let element ← match structs.lookup t.name with
      | some fields =>
        if path.contains t.name then .error (.recursive t.name)
        else match fuel with
          | 0 => .error (.recursive t.name)
          | fuel + 1 => do
            let size ← fieldsEnd (placementFrom structs fuel (t.name :: path)) 0 fields
            let stride ← orError .tooLarge (align? size)
            .ok { size, stride, aligned := true : Placement }
      | none => (orError .unknownType (NumericType.ofName? t.name)).map Placement.ofNumeric
    match ← arrayLength t with
    | some count => orError .tooLarge (element.repeat? count)
    | none => .ok element

def placement (structs : Structs) (t : TypeRef) : Except LayoutError Placement :=
  placementFrom structs structs.length [] t

/-- What reports say of a type. -/
structure ValueShape where
  shape : ParameterClass
  type : ValueType
  rows : Nat
  columns : Nat
  deriving DecidableEq, Repr, Inhabited

def shapeOf? (structs : Structs) (name : String) : Option ValueShape :=
  if (structs.lookup name).isSome then some ⟨.struct, .void, 1, 1⟩
  else (NumericType.ofName? name).map fun t =>
    { shape := if t.isMatrix then .matrix else if 1 < t.columns then .vector else .scalar
      type := .ofScalar t.scalar
      rows := t.rows
      columns := t.columns }

/-- Values one after another, or the first that does not fit. -/
def packFrom : Nat → List (ValueMember × Placement) → Except String (List ValueMember × Nat)
  | offset, [] => .ok ([], offset)
  | offset, (m, p) :: rest =>
    match p.range? offset with
    | none => .error m.rawName
    | some (start, stop) => do
      let (members, last) ← packFrom stop rest
      .ok ({ m with offset := start } :: members, last)

end ShaderCompose.Layout
