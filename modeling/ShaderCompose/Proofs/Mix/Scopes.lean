import ShaderCompose.Proofs.Check.Visits
import ShaderCompose.Proofs.Mix.Visits

/-!
The check of a body and its renaming agree on what is bound.
-/

namespace ShaderCompose.Mix

theorem bounds_startState (d : Decl) : (startState d).bounds = Param.scope (d.params?.getD []) := by
  have hbounds : ∀ (params : List Param) (s : RenameState),
      (params.foldl (fun s p => s.declare p.name .plain) s).bounds = Param.scope params ++ s.bounds := by
    intro params
    induction params with
    | nil => exact fun _ => rfl
    | cons p params ih =>
      intro s
      rw [List.foldl_cons, ih]
      simp [Param.scope, RenameState.bounds, RenameState.declare, Binding.bound]
  rw [startState, hbounds]
  exact List.append_nil _

/-- The check and the renaming have the same names bound at every expression that both come to. -/
theorem bounds_agree {context : Context} {table : MemberTable} {d : Decl}
    (hquiet : (Check.methodLog context table d).hasErrors = false) (env : RenameEnv) (name : String)
    (entry : Option Stage) {path image : List Nat} {e e' : Expr} {t : Check.BodyState} {u : RenameState}
    (hcheck : (Check.bodyEnv context table d).Visits (.decl d) (Check.bodyStart d) path (.expr e) t)
    (hrename : env.Visits (.decl { d with name, entry }) (startState d) path image (.expr e') u) :
    e' = e ∧ ((Check.bodyEnv context table d).checkExpr e t).log <+: Check.methodLog context table d ∧
      (Node.decl ((env.decl { d with name, entry }).run (startState d)).1).at? image =
        some (.expr (env.expr e u).1) ∧
      t.bounds = u.bounds ∧ ∀ n, t.isBound n = (u.binding? n).isSome := by
  have hchecked := hcheck.checksAt
  have hrenamed := hrename.renamesAt
  cases path with
  | nil => cases hchecked.found
  | cons i path =>
    -- the name and the mark of an entry point are no part of the tree below
    have hsame : Node.expr e' = .expr e := Option.some.inj (hrenamed.found.symm.trans hchecked.found)
    cases hsame
    have hbounds : t.bounds = u.bounds := by
      rw [hchecked.bounds (Check.methodLog_eq context table d ▸ hquiet), hrenamed.binds.bounds, Node.boundAt_eq,
        Check.bounds_bodyStart, bounds_startState]
      rfl
    refine ⟨rfl, Check.methodLog_eq context table d ▸ hchecked.log, hrenamed.result, hbounds, fun n => ?_⟩
    rw [Bool.eq_iff_iff, Check.BodyState.isBound_iff, hbounds, u.lookup_bounds, Option.isSome_map]

def lampSlot (name : String) : Decl where
  name := name
  loc := .generated
  quals := { compose := true }
  kind := .var { name := "Lamp", array := some .unsized } none none

def lampSum : Expr :=
  .binary .generated .add (.member .generated (.ident .generated "b") "N") (.ident .generated "p")

def lampPick : Decl where
  name := "Pick"
  loc := .generated
  kind := .method { name := "float" } [{ name := "p", loc := .generated, type := { name := "float" } }] none
    (some [.forEach Stmt.generatedLead "b" (.ident .generated "bs") (.block Stmt.generatedLead
      [.forEach Stmt.generatedLead "b" (.ident .generated "cs") (.ret Stmt.generatedLead (some lampSum))])])

def lampTable : MemberTable where
  classes := [{ name := "Lamps", loc := .generated, table := #[lampSlot "bs", lampSlot "cs", lampPick] }]
  vars := [("bs", ⟨0, 0⟩), ("cs", ⟨0, 1⟩)]

def lampInstance : MixInstance where
  name := "Lamps"
  table := lampTable
  label := ""
  names := .ofTable "" lampTable
  keySuffix := ""
  slots := [("cs", ⟨true, [3]⟩), ("bs", ⟨true, [1, 2]⟩)]

theorem lampPick_bounds_agree :
    (Check.methodLog ⟨[], [], []⟩ lampTable lampPick).hasErrors = false ∧
      ∃ t u, (Check.bodyEnv ⟨[], [], []⟩ lampTable lampPick).Visits (.decl lampPick) (Check.bodyStart lampPick)
          [3, 0, 2, 1, 0, 2, 1, 0] (.expr lampSum) t ∧
        RenameEnv.Visits ⟨[], [lampInstance], some ⟨0, 0⟩⟩ (.decl lampPick) (startState lampPick)
          [3, 0, 2, 1, 0, 2, 1, 0] [3, 0, 1, 1, 0, 1, 0, 1, 0, 1, 0] (.expr lampSum) u ∧
        t.bounds = u.bounds ∧ u.scope = [("b", .composed 3), ("b", .composed 2), ("p", .plain)] := by
  have hquiet : (Check.methodLog ⟨[], [], []⟩ lampTable lampPick).hasErrors = false := by decide +kernel
  -- down through the method, the outer loop, its block, the inner loop and the statement in it
  have hcheck : (Check.bodyEnv ⟨[], [], []⟩ lampTable lampPick).Visits (.decl lampPick)
    (Check.bodyStart lampPick) [] (.decl lampPick) (Check.bodyStart lampPick) := .here
  have hcheck := hcheck.step (List.mem_of_getElem? (i := 3) rfl) rfl
  have hcheck := hcheck.step (List.mem_of_getElem? (i := 0) rfl) rfl
  have hcheck := hcheck.step (List.mem_of_getElem? (i := 0) rfl) rfl
  have hcheck := hcheck.step (List.mem_of_getElem? (i := 1) rfl) rfl
  have hcheck := hcheck.step (List.mem_of_getElem? (i := 0) rfl) rfl
  have hcheck := hcheck.step (List.mem_of_getElem? (i := 0) rfl) rfl
  have hcheck := hcheck.step (List.mem_of_getElem? (i := 0) rfl) rfl
  have hcheck := hcheck.step (List.mem_of_getElem? (i := 0) rfl) rfl
  have hrename : RenameEnv.Visits ⟨[], [lampInstance], some ⟨0, 0⟩⟩ (.decl lampPick) (startState lampPick) [] []
    (.decl lampPick) (startState lampPick) := .here
  have hrename := hrename.step (List.mem_of_getElem? (i := 3) rfl) rfl
  have hrename := hrename.step (List.mem_of_getElem? (i := 0) rfl) rfl
  have hrename := hrename.step (List.mem_of_getElem? (i := 1) rfl) rfl
  have hrename := hrename.step (List.mem_of_getElem? (i := 1) rfl) rfl
  have hrename := hrename.step (List.mem_of_getElem? (i := 0) rfl) rfl
  have hrename := hrename.step (List.mem_of_getElem? (i := 0) rfl) rfl
  have hrename := hrename.step (List.mem_of_getElem? (i := 1) rfl) rfl
  have hrename := hrename.step (List.mem_of_getElem? (i := 0) rfl) rfl
  exact ⟨hquiet, _, _, hcheck, hrename,
    (bounds_agree hquiet _ lampPick.name lampPick.entry hcheck hrename).2.2.2.1, rfl⟩

end ShaderCompose.Mix
