import ShaderCompose.Mix.Rename

/-!
The names that renaming looks up.
-/

namespace ShaderCompose.Mix

def IsBuiltin (builtins : List Module) (ref : BuiltinRef) : Prop :=
  ∃ name, builtinMember? builtins name = some ref

structure Noting (builtins : List Module) (refs more : List BuiltinRef) : Prop where
  old : refs ⊆ more
  new : ∀ ref ∈ more, ref ∈ refs ∨ IsBuiltin builtins ref

namespace Noting

variable {builtins : List Module} {refs more most : List BuiltinRef}

theorem refl (builtins : List Module) (refs : List BuiltinRef) : Noting builtins refs refs :=
  ⟨List.Subset.refl _, fun _ => .inl⟩

theorem trans (h : Noting builtins refs more) (h' : Noting builtins more most) : Noting builtins refs most :=
  ⟨List.Subset.trans h.old h'.old, fun ref href => (h'.new ref href).elim (h.new ref) .inr⟩

end Noting

structure Looks (builtins : List Module) (s t : RenameState) : Prop extends Noting builtins s.builtins t.builtins where
  scope : t.scope = s.scope

theorem Looks.same {builtins : List Module} {s t : RenameState} (h : t.builtins = s.builtins)
    (hscope : t.scope = s.scope) : Looks builtins s t :=
  ⟨h ▸ .refl builtins _, hscope⟩

section

variable (env : RenameEnv)

theorem resolveName_looks (name : String) (s : RenameState) : Looks env.builtins s (env.resolveName name s).2 := by
  unfold RenameEnv.resolveName
  split
  · exact .same rfl rfl
  · split
    · exact .same rfl rfl
    · split
      · next ref href =>
        refine ⟨⟨List.subset_append_left _ _, fun other hother => ?_⟩, rfl⟩
        rcases List.mem_append.mp hother with hother | hother
        · exact .inl hother
        · rw [List.mem_singleton.mp hother]
          exact .inr ⟨name, href⟩
      · exact .same rfl rfl

theorem slotElement_looks (name : String) (filling : Filling) (position : Option Expr) (loc : Span)
    (s : RenameState) : Looks env.builtins s (RenameEnv.slotElement name filling position loc s).2 := by
  unfold RenameEnv.slotElement
  split
  · split <;> exact .same rfl rfl
  · split
    · exact .same rfl rfl
    · split <;> exact .same rfl rfl
    · exact .same rfl rfl

theorem composedMember_looks (target : Expr) (name : String) (loc : Span) (s : RenameState) :
    Looks env.builtins s (env.composedMember target name loc s).2 := by
  have hinstance : Looks env.builtins s (env.composedInstance target loc s).2 := by
    unfold RenameEnv.composedInstance
    split
    · split
      · exact .same rfl rfl
      · exact .same rfl rfl
      · split
        · exact slotElement_looks env ..
        · exact .same rfl rfl
    · exact .same rfl rfl
  simp only [RenameEnv.composedMember, bind, StateT.bind]
  generalize env.composedInstance target loc s = found at hinstance ⊢
  obtain ⟨number, t⟩ := found
  cases number <;> exact hinstance

theorem resolveMember_looks (target : Expr) (name : String) (loc : Span) (s : RenameState) :
    Looks env.builtins s (env.resolveMember target name loc s).2 := by
  unfold RenameEnv.resolveMember
  split
  · split
    · exact composedMember_looks env ..
    · split
      · exact .same rfl rfl
      · split
        · exact .same rfl rfl
        · exact resolveName_looks env ..
        · exact .same rfl rfl
        · exact composedMember_looks env ..
  · exact .same rfl rfl

end

end ShaderCompose.Mix
