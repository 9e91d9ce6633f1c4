import ShaderCompose.Engine
import ShaderCompose.Number.Shortest
import ShaderCompose.Report.Json

/-!
The report on a compiled request: its entry points, the digests of its sources and its parameters.
-/

namespace ShaderCompose.Report

def numberStyle : Number.Style := ⟨-6, 13, ['+'], .even⟩

/-- There is no number for an infinite one. -/
def single (x : Single) : Json :=
  if x.isInfinite then .null else .number (String.ofList (x.text numberStyle))

def binding (b : ResourceBinding) : Json :=
  .object [("key", .string b.key), ("raw_name", .string b.rawName),
     ("class", .string ParameterClass.object.name), ("ty", .string b.type.name),
     ("kind", .string b.type.register.name), ("slot", .nat b.slot), ("slot_count", .nat b.count)]

def member (m : ValueMember) : Json :=
  .object [("key", .string m.key), ("raw_name", .string m.rawName), ("type_name", .string m.typeName),
     ("class", .string m.shape.name), ("ty", .string m.type.name), ("rows", .nat m.rows),
     ("columns", .nat m.columns), ("elements", .nat m.elements), ("offset", .nat m.offset),
     ("size", .nat m.size)]

def buffer (b : ConstantBuffer) : Json :=
  .object [("name", .string b.name), ("size", .nat b.size), ("members", .array (b.members.map member))]

def samplerState (s : SamplerState) : Json :=
  .object [("filter", .string s.filter.name), ("address_u", .string s.addressU.name),
     ("address_v", .string s.addressV.name), ("address_w", .string s.addressW.name),
     ("comparison_function", .string s.comparison.name),
     ("border_color", .array (s.borderColor.map single)),
     ("min_mip_level", single s.minMipLevel), ("max_mip_level", single s.maxMipLevel),
     ("mip_lod_bias", single s.mipLodBias), ("max_anisotropy", .nat s.maxAnisotropy)]

def sampler (s : NamedSampler) : Json :=
  .object [("key", .string s.key), ("description", samplerState s.state)]

def reflection (r : Reflection) : Json :=
  .object [("resource_bindings", .array (r.bindings.map binding)),
     ("constant_buffers", .array (r.buffers.map buffer)),
     ("sampler_states", .array (r.samplers.map sampler))]

def compilation (o : Outcome) (r : Reflection) : Json :=
  .object [("entry_points", .object (o.entryPoints.map fun (stage, name) => (stage.name, .string name))),
     ("hash_sources", .object (o.digests.map fun (name, d) => (name, .string d.hex))),
     ("reflection", reflection r)]

end ShaderCompose.Report
