import ShaderCompose.Lang.Decl

/-!
Removal of what has a meaning only for mixing and reflection from a linked shader.
-/

namespace ShaderCompose

/-- The attributes that are removed. -/
def mixinAttributes : List String := ["Link", "Color", "Map", "Summary"]

def Decl.clean (d : Decl) : Decl :=
  { d with
    quals := d.quals.mixed
    attrs := d.attrs.filter fun a => !mixinAttributes.contains a.name }

def Decl.isBodiless (d : Decl) : Bool := d.isMethod && d.body?.isNone

def Shader.clean (s : Shader) : Shader where
  table := s.table.map Decl.clean
  declarations := s.declarations.filter fun id => !((s.table[id]?).any Decl.isBodiless)

end ShaderCompose
