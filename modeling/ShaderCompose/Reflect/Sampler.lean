import ShaderCompose.Diagnostic.Log
import ShaderCompose.Lang.Decl
import ShaderCompose.Reflect.Basic

/-!
Sampler states from the settings in a source. A wrong setting is reported and leaves its default.
-/

namespace ShaderCompose.SamplerState

def number? : Expr → Option (Number.Binary Number.double)
  | .literal _ (.int n) => some (.ofInt _ n)
  | .literal _ (.float x) => some x
  | .unary _ .neg operand => (number? operand).map .neg
  | _ => none

def single? (e : Expr) : Option Single := (number? e).map (.convert _)

def color? : Expr → Option (List Single)
  | .call _ (.ident _ "float4") [r, g, b, a] => [r, g, b, a].mapM single?
  | _ => none

/-- A number that is not negative, without its fraction. -/
def count? (e : Expr) : Option Nat :=
  (number? e).bind fun x => if x.isNonNegative then some x.toUInt32 else none

def named? {α : Type} (ofSetting? : String → Option α) (e : Expr) : Option α :=
  e.ident?.bind ofSetting?

/-- Take over one setting. -/
def set (sampler : String) (s : SamplerState) (f : StateField) : Except Message SamplerState :=
  let take {α : Type} (value : Option α) (put : α → SamplerState) : Except Message SamplerState :=
    match value with
    | some v => .ok (put v)
    | none => .error (.samplerField f.key)
  match f.key with
  | "Filter" =>
    match named? TextureFilter.ofSetting? f.value with
    | some filter => .ok { s with filter }
    | none => .error (.samplerFilter (f.value.ident?.getD "expression"))
  | "AddressU" => take (named? AddressMode.ofSetting? f.value) fun m => { s with addressU := m }
  | "AddressV" => take (named? AddressMode.ofSetting? f.value) fun m => { s with addressV := m }
  | "AddressW" => take (named? AddressMode.ofSetting? f.value) fun m => { s with addressW := m }
  | "ComparisonFunc" =>
    take (named? Comparison.ofSetting? f.value) fun c => { s with comparison := c }
  | "BorderColor" =>
    match color? f.value with
    | some borderColor => .ok { s with borderColor }
    | none => .error (.samplerBorderColor sampler)
  | "MinLOD" => take (single? f.value) fun x => { s with minMipLevel := x }
  | "MaxLOD" => take (single? f.value) fun x => { s with maxMipLevel := x }
  | "MipLODBias" => take (single? f.value) fun x => { s with mipLodBias := x }
  | "MaxAnisotropy" => take (count? f.value) fun n => { s with maxAnisotropy := n }
  | _ => .error (.samplerField f.key)

/-- The state after all settings. -/
def ofFields (sampler : String) (fields : List StateField) : SamplerState × Log :=
  fields.foldl (fun (s, log) f =>
    match set sampler s f with
    | .ok s => (s, log)
    | .error message => (s, log ++ [.errorAt f.loc message])) ({}, [])

end ShaderCompose.SamplerState
