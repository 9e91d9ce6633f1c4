import ShaderCompose.Proofs.Engine.Mixing
import ShaderCompose.Proofs.Mix.References

/-!
No reference in a mixed shader is left hanging.
-/

namespace ShaderCompose.Engine

open Mix

/-- Every name that takes the place of a member is declared; those of streams are left to the
streams. -/
theorem renamed_references_declared {e : Engine} (h : e.Reachable) {r : Request}
    {macros : List MacroDef} {shader : Shader}
    (hmix : ((e.loaded r macros).compose (e.contextOf r macros) r).1 = some shader) :
    ∃ instances, (e.loaded r macros).instances (e.contextOf r macros) r = some instances ∧
      ∀ (place : Option Place) (d : Decl) (s : RenameState),
        let env : RenameEnv := ⟨e.builtins, instances, place⟩
        (((env.traceDecl d).run s).1.map Reference.name = ((env.decl d).run s).1.names) ∧
          ∀ ref ∈ ((env.traceDecl d).run s).1, ref.origin = .member → shader.Declares ref.name := by
  obtain ⟨instances, his, hlog, rfl⟩ := compose_eq_some hmix
  refine ⟨instances, his, fun place d s => ?_⟩
  have hgives := gives_declared hlog (h.orderly his) place
  exact (traceDecl_tracks hgives d s).2

def litEngine : Engine where
  library := {
    store := {
      inMemory :=
        [("Scene", "shader Scene { compose Spot light; float Gain() { return light.Power; } };"),
         ("Spot", "shader Spot { float Power; };")] } }

def litRequest : Request := .mixin [⟨"Scene", []⟩] [("light", .single ⟨"Spot", []⟩)] []

def bright : Decl where
  name := "Bright"
  loc := default
  kind := .var ⟨"float", [], none⟩ none (some (.expr (.member default (.ident default "light") "Power")))

theorem lit_references_declared : ∃ shader,
    ((litEngine.loaded litRequest []).compose (litEngine.contextOf litRequest []) litRequest).1 =
      some shader ∧ shader.Declares "Spot_id1_Power" := by
  have hmember : (litEngine.mixesSorted litRequest fun _ instances => decide
      ((((RenameEnv.mk [] instances (some ⟨0, 0⟩)).traceDecl bright).run {}).1 = [⟨.member, "Spot_id1_Power"⟩])) =
        true := by
    decide +kernel
  obtain ⟨shader, instances, hmix, his, hmember⟩ := mixes_of_sorted hmember
  obtain ⟨instances', his', hrefs⟩ := renamed_references_declared (.new _ {}) hmix
  cases his.symm.trans his'
  exact ⟨shader, hmix, (hrefs (some ⟨0, 0⟩) bright {}).2 _
    (of_decide_eq_true hmember ▸ List.mem_singleton_self _) rfl⟩

end ShaderCompose.Engine
