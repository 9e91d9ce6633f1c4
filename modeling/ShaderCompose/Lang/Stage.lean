/-!
The stages of the graphics pipeline that an entry point can be bound to.
-/

namespace ShaderCompose

inductive Stage where
  | compute
  | vertex
  | hull
  | domain
  | geometry
  | pixel
  deriving DecidableEq, Repr, Inhabited

namespace Stage

def all : List Stage := [compute, vertex, hull, domain, geometry, pixel]

def name : Stage → String
  | compute => "Compute"
  | vertex => "Vertex"
  | hull => "Hull"
  | domain => "Domain"
  | geometry => "Geometry"
  | pixel => "Pixel"

def ofName? (name : String) : Option Stage := all.find? fun stage => stage.name == name

def unknown (name : String) : String := s!"unknown shader stage `{name}`"

theorem mem_all (stage : Stage) : stage ∈ all := by cases stage <;> decide

end Stage

end ShaderCompose
