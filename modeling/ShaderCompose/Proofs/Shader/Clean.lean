import ShaderCompose.Proofs.Mix.Closed
import ShaderCompose.Proofs.Mix.Marks

/-!
The syntax of mixing in linked shaders.
-/

namespace ShaderCompose

open List

structure Decl.Follows (d d' : Decl) : Prop where
  name : d'.name = d.name
  loc : d'.loc = d.loc
  shape : d.kind.SameShape d'.kind
  free : ∀ k, d.FreeOf k → d'.FreeOf k

theorem DeclKind.SameShape.trans {a b c : DeclKind} (h : a.SameShape b) (h' : b.SameShape c) : a.SameShape c := by
  cases a <;> cases b <;> first | exact h.elim | cases c <;> first | exact h'.elim | skip
  · trivial
  · exact Eq.trans h h'
  · exact ⟨h.1.trans h'.1, h.2.trans h'.2⟩
  · trivial

namespace Decl.Follows

theorem refl (d : Decl) : d.Follows d := ⟨rfl, rfl, .refl _, fun _ h => h⟩

theorem trans {a b c : Decl} (h : a.Follows b) (h' : b.Follows c) : a.Follows c :=
  ⟨h'.name.trans h.name, h'.loc.trans h.loc, h.shape.trans h'.shape, fun k hk => h'.free k (h.free k hk)⟩

end Decl.Follows

namespace Stream

open Node

variable {k : MixinSyntax} {exit : List Stmt}

theorem freeOf_swap {n n' : Node} (h : n.FreeOf k) (hn : n'.shows k = false)
    (hkept : n'.children.filter (!·.holdsStmts) = n.children.filter (!·.holdsStmts))
    (hstmts : ∀ c ∈ n'.children.filter holdsStmts, c.FreeOf k) : n'.FreeOf k := by
  refine .of_children hn fun c hc => ?_
  cases hholds : c.holdsStmts with
  | true => exact hstmts c (mem_filter.mpr ⟨hc, hholds⟩)
  | false =>
    have hmem : c ∈ n'.children.filter (!·.holdsStmts) := mem_filter.mpr ⟨hc, by simp [hholds]⟩
    exact h.child (mem_of_mem_filter (hkept ▸ hmem))

mutual

theorem closeReturns_freeOf (hexit : (Node.stmts exit).FreeOf k) (st : Stmt) (h : (Node.stmt st).FreeOf k) :
    (Node.stmt (closeReturns exit st)).FreeOf k := by
  match st with
  | .ret l none =>
    refine .of_children (by cases k <;> rfl) (forall_mem_cons.mpr ⟨?_, forall_mem_singleton.mpr hexit⟩)
    exact h.child (by simp [children])
  | .block l body =>
    refine freeOf_swap h (by cases k <;> rfl) rfl (forall_mem_singleton.mpr ?_)
    exact closeAll_freeOf hexit body (h.child (by simp [children]))
  | .ifThen l condition body | .whileLoop l condition body | .forLoop l init condition step body =>
    refine freeOf_swap h (by cases k <;> rfl) rfl (forall_mem_singleton.mpr ?_)
    exact closeReturns_freeOf hexit body (h.child (by simp [children]))
  | .ifElse l condition yes no =>
    refine freeOf_swap h (by cases k <;> rfl) rfl (forall_mem_cons.mpr ⟨?_, forall_mem_singleton.mpr ?_⟩)
    · exact closeReturns_freeOf hexit yes (h.child (by simp [children]))
    · exact closeReturns_freeOf hexit no (h.child (by simp [children]))
  | .forEach l name collection body =>
    refine freeOf_swap h ?_ rfl (forall_mem_singleton.mpr ?_)
    · cases k with
      | loop => exact h [] (.stmt (.forEach l name collection body)) rfl
      | mark => rfl
    · exact closeReturns_freeOf hexit body (h.child (by simp [children]))
  | .ret l (some value) | .simple l what | .breakLoop l | .continueLoop l | .discard l | .empty l => exact h

theorem closeAll_freeOf (hexit : (Node.stmts exit).FreeOf k) (sts : List Stmt) (h : (Node.stmts sts).FreeOf k) :
    (Node.stmts (closeAll exit sts)).FreeOf k := by
  match sts with
  | [] => exact h
  | st :: sts =>
    refine .of_children (by cases k <;> rfl) (forall_mem_cons.mpr ⟨?_, forall_mem_singleton.mpr ?_⟩)
    · exact closeReturns_freeOf hexit st (h.child (by simp [children]))
    · exact closeAll_freeOf hexit sts (h.child (by simp [children]))

end

/-! ## Entry points over their structures -/

theorem freeOf_generated {what : Simple} (h : (Node.simple what).shows k = false) :
    (Node.stmt (.simple Stmt.generatedLead what)).FreeOf k := by
  have hattrs : (Node.attrs []).FreeOf k := .of_children (by cases k <;> rfl) (forall_mem_nil _)
  refine .of_children (by cases k <;> rfl) (forall_mem_cons.mpr ⟨hattrs, forall_mem_singleton.mpr ?_⟩)
  refine .of_children h ?_
  cases what with
  | declare quals t name init => exact forall_mem_cons.mpr ⟨.type t, forall_mem_singleton.mpr (.option init)⟩
  | expr value => exact forall_mem_singleton.mpr (.of_isExpr rfl)

variable (vars : List StreamVar)

theorem loadInput_freeOf (s : StreamStruct) : (Node.stmts (loadInput vars s)).FreeOf k := by
  refine freeOf_stmts.mpr fun st hst => ?_
  obtain ⟨v, -, rfl⟩ := mem_map.mp hst
  exact freeOf_generated (by cases k <;> rfl)

theorem storeOutput_freeOf (s : StreamStruct) : (Node.stmts (storeOutput vars s)).FreeOf k := by
  refine freeOf_stmts.mpr fun st hst => ?_
  rcases mem_append.mp hst with hst | hst
  · obtain ⟨v, -, rfl⟩ := mem_map.mp hst
    exact freeOf_generated (by cases k <;> rfl)
  · rw [mem_singleton.mp hst]
    have hattrs : (Node.attrs []).FreeOf k := .of_children (by cases k <;> rfl) (forall_mem_nil _)
    exact .of_children (by cases k <;> rfl) (forall_mem_cons.mpr ⟨hattrs, forall_mem_singleton.mpr (.option _)⟩)

theorem dropLastReturn_subset (body : List Stmt) : dropLastReturn body ⊆ body := by
  unfold dropLastReturn
  split
  · exact dropLast_subset body
  · exact List.Subset.refl _

variable (plan : EntryPlan)

theorem planBody_freeOf {body : List Stmt}
    (h : (Node.stmts body).FreeOf k) : (Node.stmts (planBody vars plan body)).FreeOf k := by
  have hload : (Node.stmts ((plan.input.map (loadInput vars)).getD [])).FreeOf k := by
    cases plan.input with
    | none => exact freeOf_stmts.mpr (forall_mem_nil _)
    | some input => exact loadInput_freeOf vars input
  have happend : ∀ {sts more : List Stmt}, (Node.stmts sts).FreeOf k → (Node.stmts more).FreeOf k →
      (Node.stmts (sts ++ more)).FreeOf k := fun hsts hmore =>
    freeOf_stmts.mpr (forall_mem_append.mpr ⟨freeOf_stmts.mp hsts, freeOf_stmts.mp hmore⟩)
  unfold planBody
  cases plan.output with
  | none => exact happend hload h
  | some output =>
    refine happend hload (freeOf_stmts.mpr (forall_mem_cons.mpr ⟨?_, freeOf_stmts.mp ?_⟩))
    · exact freeOf_generated (by cases k <;> rfl)
    · refine happend (closeAll_freeOf (storeOutput_freeOf vars output) _ ?_) (storeOutput_freeOf vars output)
      exact freeOf_stmts.mpr fun st hst => freeOf_stmts.mp h st (dropLastReturn_subset body hst)

theorem planMethod_follows (d : Decl) :
    d.Follows (planMethod vars plan d) := by
  unfold planMethod
  split
  · next returns ps semantic body hkind =>
    refine ⟨rfl, rfl, by rw [hkind]; rfl, fun k hfree => ?_⟩
    rw [Decl.FreeOf, Decl.parts, hkind] at hfree
    have hps := freeOf_params.mp (hfree (.params ps) (by simp))
    refine forall_mem_cons.mpr ⟨.type _, forall_mem_cons.mpr ⟨freeOf_params.mpr ?_,
      forall_mem_singleton.mpr (planBody_freeOf vars plan (hfree (.stmts body) (by simp)))⟩⟩
    refine forall_mem_append.mpr ⟨hps, fun p hp _ => ?_⟩
    obtain ⟨s, -, rfl⟩ := mem_map.mp hp
    rfl
  · exact .refl d

theorem retire_follows (d : Decl) : d.Follows (retire d) := by
  refine ⟨rfl, rfl, ?_, fun k hfree => ?_⟩
  · unfold retire
    cases d.kind <;> trivial
  · unfold Decl.FreeOf Decl.parts retire at *
    cases hkind : d.kind <;> simp_all

def IsMade (d : Decl) : Prop := d.isVar = false ∧ ∀ k, d.FreeOf k

theorem isMade_planStructs : ∀ d ∈ planStructs vars plan, IsMade d := by
  have hstruct : ∀ generate s, IsMade (structDecl vars generate s) := by
    refine fun generate s => ⟨rfl, fun k => forall_mem_singleton.mpr (freeOf_params.mpr fun p hp _ => ?_)⟩
    obtain ⟨v, -, rfl⟩ := mem_map.mp hp
    rfl
  intro d hd
  rcases mem_append.mp hd with hd | hd
  · split at hd
    · cases hd
    · obtain ⟨s, -, rfl⟩ := mem_map.mp hd
      exact hstruct _ s
  · obtain ⟨s, -, rfl⟩ := mem_map.mp hd
    exact hstruct _ s

theorem follows_linking : Linking Decl.Follows IsMade where
  refl := .refl
  trans := .trans
  callable h := Decl.isCallable_of_sameShape h.shape
  kept hmade h := ⟨h.shape.isVar.trans hmade.1, fun k => h.free k (hmade.2 k)⟩
  plan := planMethod_follows
  retire := retire_follows
  clean _ := ⟨rfl, rfl, .refl _, fun _ h => h⟩
  made := isMade_planStructs

end Stream

theorem Qualifiers.isMixin_mixed (q : Qualifiers) : q.mixed.isMixin = false := rfl

namespace Shader

variable {s : Shader} {d : Decl}

theorem unmarked_of_clean {i : DeclId} (h : s.clean.table[i]? = some d) :
    d.quals.isMixin = false ∧ ∀ a ∈ d.attrs, a.isMixin = false := by
  rw [clean, Array.getElem?_map] at h
  obtain ⟨d, -, rfl⟩ := Option.map_eq_some_iff.mp h
  refine ⟨d.quals.isMixin_mixed, fun a ha => ?_⟩
  simpa [Attribute.isMixin] using (mem_filter.mp ha).2

theorem body_of_clean (h : d ∈ s.clean.decls) (hmethod : d.isMethod = true) : d.body?.isSome = true := by
  obtain ⟨id, hid, hd⟩ := mem_decls.mp h
  obtain ⟨-, hkept⟩ := mem_filter.mp hid
  rw [clean, Array.getElem?_map] at hd
  obtain ⟨d, hd', rfl⟩ := Option.map_eq_some_iff.mp hd
  change d.isMethod = true at hmethod
  change d.body?.isSome = true
  simpa [hd', Decl.isBodiless, hmethod] using hkept

end Shader

end ShaderCompose
