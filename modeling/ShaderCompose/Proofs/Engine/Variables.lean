import ShaderCompose.Proofs.Engine.Mixing
import ShaderCompose.Proofs.Mix.Merged

/-!
No variable is lost or doubled by mixing (`Engine.variables_arrive`).
-/

namespace ShaderCompose.Engine

open Mix

/-- All variables arrive once, if names tell classes apart and no builtin buffer with members is in
use. -/
theorem variables_arrive {e : Engine} (h : e.Reachable) {r : Request} {macros : List MacroDef}
    {shader : Shader} {instances : List MixInstance}
    (hmix : ((e.loaded r macros).compose (e.contextOf r macros) r).1 = some shader)
    (his : (e.loaded r macros).instances (e.contextOf r macros) r = some instances)
    (hnames : ClassesByName instances)
    (hbuiltins : ∀ i d, ownCount e.builtins instances ≤ i → shader.table[i]? = some d → d.inner = []) :
    ∃ site, Arrive instances (ownCount e.builtins instances) shader site := by
  obtain ⟨mixed, hmixed, hlog, rfl⟩ := compose_eq_some hmix
  cases his.symm.trans hmixed
  exact ⟨_, arrive_emit hlog (h.orderly his) hnames hbuiltins⟩

def hallEngine : Engine where
  library := {
    store := {
      inMemory :=
        [("Hall", "shader Hall { compose Lamp light; stage float Time; cbuffer Frame { float Gain; }; };"),
         ("Lamp", "shader Lamp { float Power; stream float3 Color; cbuffer Frame { float Range; }; };")] } }

def hallRequest : Request := .mixin [⟨"Hall", []⟩] [("light", .single ⟨"Lamp", []⟩)] []

theorem hall_variables_arrive : ∃ shader instances site,
    ((hallEngine.loaded hallRequest []).compose (hallEngine.contextOf hallRequest []) hallRequest).1 = some shader ∧
    (hallEngine.loaded hallRequest []).instances (hallEngine.contextOf hallRequest []) hallRequest = some instances ∧
    Arrive instances 6 shader site := by
  have hhall : (hallEngine.mixesSorted hallRequest fun shader instances => decide (shader.table.size = 6 ∧
      ((instances.flatMap fun i => i.table.classes).map ShaderClass.name).Nodup ∧
      ownCount hallEngine.builtins instances = 6)) = true := by
    decide +kernel
  obtain ⟨shader, instances, hmix, his, hhall⟩ := mixes_of_sorted hhall
  obtain ⟨hsize, hnames, hcount⟩ := of_decide_eq_true hhall
  have hreachable : hallEngine.Reachable := .new _ {}
  obtain ⟨site, harrive⟩ := variables_arrive hreachable hmix his (.of_nodup hnames) fun i d hi hd => by
    have hlt := (Array.getElem?_eq_some_iff.mp hd).1
    omega
  exact ⟨shader, instances, site, hmix, his, hcount ▸ harrive⟩

def borrowingEngine : Engine where
  library := { store := { inMemory := [("A", "shader A { float X; float F() { return B; } };")] } }

def bufferSource : String := "shader Lib { cbuffer B { float a; }; };"

def lendingEngine : Engine := (borrowingEngine.addBuiltin bufferSource).toOption.getD borrowingEngine

theorem builtin_buffer_repeats : lendingEngine.Reachable ∧ ∃ shader,
    ((lendingEngine.loaded (.single ⟨"A", []⟩) []).compose
      (lendingEngine.contextOf (.single ⟨"A", []⟩) []) (.single ⟨"A", []⟩)).1 = some shader ∧
    shader.declared.map Decl.name = ["X", "B", "X", "F"] := by
  have hnames : (lendingEngine.mixesSorted (.single ⟨"A", []⟩) fun s _ =>
      decide (s.declared.map Decl.name = ["X", "B", "X", "F"])) = true := by
    decide +kernel
  obtain ⟨shader, -, hmix, -, hnames⟩ := mixes_of_sorted hnames
  exact ⟨Reachable.addBuiltin_getD (.new _ {}) _, shader, hmix, of_decide_eq_true hnames⟩

end ShaderCompose.Engine
