import Mathlib.Algebra.GroupWithZero.Nat
import ShaderCompose.Proofs.Pairs
import ShaderCompose.Proofs.Reflect.Variables

/-!
Register slots.
-/

namespace ShaderCompose.Link

open List Layout

def inClass (register : RegisterClass) (bs : List ResourceBinding) : List ResourceBinding :=
  bs.filter fun b => b.type.register = register

def Contiguous (bs : List ResourceBinding) : Prop :=
  ∀ before b after, bs = before ++ b :: after → b.slot = (before.map (·.count)).sum

theorem Contiguous.concat {bs : List ResourceBinding} {b : ResourceBinding} (h : Contiguous bs)
    (hb : b.slot = (bs.map (·.count)).sum) : Contiguous (bs ++ [b]) := by
  intro before c after heq
  rcases after.eq_nil_or_concat with rfl | ⟨after, x, rfl⟩
  · obtain ⟨rfl, hc⟩ := append_inj' heq rfl
    cases hc
    exact hb
  · rw [concat_eq_append, ← cons_append, ← append_assoc] at heq
    exact h before c after (append_inj' heq rfl).1

/-- Slots are taken in order, without gaps if nothing is wrong. -/
structure Taken (quiet : Prop) (bs : List ResourceBinding) (free : Nat) : Prop where
  word : free < UInt32.size
  below : ∀ b ∈ bs, b.slot + b.count ≤ free
  ordered : bs.Pairwise fun a b => a.slot + a.count ≤ b.slot
  contiguous : quiet → Contiguous bs ∧ free = (bs.map (·.count)).sum

namespace Taken

variable {quiet quiet' : Prop} {bs : List ResourceBinding} {free : Nat}

theorem none : Taken quiet [] 0 :=
  ⟨by decide, forall_mem_nil _, .nil, fun _ => ⟨fun before b after h => by simp at h, rfl⟩⟩

theorem imp (h : Taken quiet bs free) (himp : quiet' → quiet) : Taken quiet' bs free :=
  ⟨h.word, h.below, h.ordered, fun hquiet => h.contiguous (himp hquiet)⟩

theorem lose {free' : Nat} (h : Taken quiet bs free) (hle : free ≤ free') (hword : free' < UInt32.size)
    (hwrong : ¬quiet') : Taken quiet' bs free' :=
  ⟨hword, fun b hb => (h.below b hb).trans hle, h.ordered, fun hquiet => absurd hquiet hwrong⟩

theorem concat {b : ResourceBinding} (h : Taken quiet bs free) (hslot : b.slot = free)
    (hword : b.slot + b.count < UInt32.size) : Taken quiet (bs ++ [b]) (b.slot + b.count) := by
  refine ⟨hword, forall_mem_append.mpr ⟨fun c hc => ?_, by simp⟩, pairwise_append.mpr ⟨h.ordered,
    pairwise_singleton _ _, fun c hc x hx => ?_⟩, fun hquiet => ?_⟩
  · have hbelow := h.below c hc
    omega
  · rw [mem_singleton.mp hx, hslot]
    exact h.below c hc
  · obtain ⟨hcontiguous, hfree⟩ := h.contiguous hquiet
    refine ⟨hcontiguous.concat (hslot.trans hfree), ?_⟩
    rw [map_append, sum_append, ← hfree, hslot]
    rfl

end Taken

def Tidy (s : State) : Prop :=
  ∀ r, Taken (s.log.hasErrors = false) (inClass r s.reflection.bindings) (s.free r)

variable {structs : Structs} {s t : State}

namespace Tidy

theorem lose (h : Tidy s) (hbindings : t.reflection.bindings = s.reflection.bindings)
    (hfree : ∀ r, s.free r ≤ t.free r ∧ t.free r < UInt32.size) (hlog : t.log.hasErrors = true) : Tidy t := fun r => by
  rw [hbindings]
  exact (h r).lose (hfree r).1 (hfree r).2 (by simp [hlog])

theorem report (h : Tidy s) (loc : Option Span) (message : Message) : Tidy (s.report ⟨.error, loc, message⟩) :=
  h.lose rfl (fun r => ⟨Nat.le_refl _, (h r).word⟩) (hasErrors_report s loc message)

theorem bind (h : Tidy s) {b : ResourceBinding} (hbindings : t.reflection.bindings = s.reflection.bindings ++ [b])
    (hslot : b.slot = s.free b.type.register) (hword : b.slot + b.count < UInt32.size)
    (hfree : t.free = fun r => if r = b.type.register then b.slot + b.count else s.free r)
    (hlog : s.log <+: t.log) : Tidy t := fun r => by
  have hr := (h r).imp fun hquiet => Log.quiet_of_prefix hlog hquiet
  rw [hbindings, hfree, inClass, filter_append]
  dsimp only
  by_cases hclass : r = b.type.register
  · subst hclass
    rw [if_pos rfl, filter_cons_of_pos (by simp)]
    exact hr.concat hslot hword
  · rw [if_neg hclass, filter_cons_of_neg (by simpa using Ne.symm hclass), filter_nil, append_nil]
    exact hr

end Tidy

theorem tidy_refuseKey (d : Decl) (h : Tidy s) : Tidy (refuseKey d s) := by
  rcases refuseKey_cases d s with heq | ⟨message, heq⟩
  · rw [heq]
    exact h
  · rw [heq]
    exact h.report _ _

theorem tidy_bindResource (d : Decl) (key : String) (type : TypeRef) (init : Option Initializer)
    (resource : ResourceType) (h : Tidy s) : Tidy (bindResource d key type init resource s) := by
  unfold bindResource
  cases htake : takeSlots type resource.register s with
  | error e => exact h.report _ _
  | ok taken =>
    obtain ⟨slot, count, t⟩ := taken
    obtain ⟨hslot, hword, rfl⟩ := take?_eq_some (takeSlots_eq_ok htake).1
    obtain ⟨hlog, hfree, -, hbindings⟩ := recordSampler_spec d key init
      { s with free := fun r => if r = resource.register then slot + count else s.free r }
    exact h.bind (congrArg (· ++ _) hbindings) hslot hword hfree hlog

theorem tidy_addVariable (d : Decl) (h : Tidy s) : Tidy (addVariable structs d s).2 := by
  unfold addVariable
  cases d.kind with
  | var type semantic init =>
    dsimp only
    split
    · exact tidy_refuseKey d h
    · split
      · exact h.report _ _
      · split
        · exact tidy_bindResource d _ type init _ h
        · split
          · exact h
          · exact h.report _ _
  | _ => exact h

theorem tidy_addVariables (ds : List Decl) (h : Tidy s) : Tidy (addVariables structs ds s).2 := by
  induction ds generalizing s with
  | nil => exact h
  | cons d ds ih => exact ih (tidy_addVariable d h)

theorem tidy_addBuffers (shader : Shader) (ds : List Decl) (h : Tidy s) :
    Tidy (addBuffers structs shader ds s).2 := by
  induction ds generalizing s with
  | nil => exact h
  | cons d ds ih =>
    rw [addBuffers]
    split
    · exact ih (tidy_addVariables _ h)
    · exact ih h

theorem tidy_bindBuffer (b : Pending) (h : Tidy s) : Tidy (bindBuffer s b) := by
  unfold bindBuffer
  split
  · exact h.report _ _
  · split
    · exact h.report _ _
    · next slot t htake =>
      obtain ⟨hslot, hword, rfl⟩ := take?_eq_some htake
      split
      · -- the slot is taken, but there is no buffer for it
        refine h.lose rfl (fun r => ?_) (hasErrors_report _ _ _)
        dsimp only [State.report]
        split
        · next hr =>
          subst hr
          omega
        · exact ⟨Nat.le_refl _, (h r).word⟩
      · exact h.bind rfl hslot hword rfl (prefix_refl _)

theorem tidy_foldl {α : Type} {f : State → α → State} (hf : ∀ {s} a, Tidy s → Tidy (f s a)) (as : List α)
    (h : Tidy s) : Tidy (as.foldl f s) := List.foldlRecOn as f h fun _ ht a _ => hf a ht

theorem constantBuffers_bound {s : Shader} (hquiet : (link s).2.2.hasErrors = false) :
    (inClass .constantBuffer (link s).2.1.bindings).map (·.rawName) = s.buffers.map (·.1) := by
  obtain ⟨pending, t, hadds, hholds, hlink⟩ := link_adds s
  obtain ⟨hlog, cs, -, -, hall⟩ := bindBuffers_packs pending t
  rw [hlink] at hquiet ⊢
  obtain ⟨hpacks, own, hown, hbinds⟩ := hall hquiet
  have hquiet := Log.quiet_of_prefix hlog hquiet
  obtain ⟨bound, hbound, hresources⟩ := hadds.bindings hquiet
  have hnone : inClass .constantBuffer bound = [] := by
    refine filter_eq_nil_iff.mpr fun b hb => ?_
    obtain ⟨d, -, _, _, _, resource, _, _, htype, _⟩ := mem_right_of_forall₂ hresources hb
    rw [htype]
    cases resource <;> decide
  have hown' : inClass .constantBuffer own = own := by
    refine filter_eq_self.mpr fun b hb => ?_
    obtain ⟨c, -, -, -, htype, -⟩ := mem_right_of_forall₂ hbinds hb
    rw [htype]
    rfl
  have hnames : List.Forall₂ (fun b g => b.rawName = g.1) own s.buffers := by
    refine List.Forall₂.flip ((forall₂_comp (List.forall₂_map_left_iff.mp (hholds hquiet)) (forall₂_comp hpacks hbinds)).imp ?_)
    rintro g b ⟨p, ⟨hp, -⟩, c, ⟨hc, -⟩, hb, -⟩
    exact hb.trans (hc.trans hp)
  have hbindings : inClass .constantBuffer (pending.foldl bindBuffer t).reflection.bindings = own := by
    rw [hown, hbound, inClass, filter_append]
    exact (congrArg₂ _ hnone hown').trans (nil_append own)
  rw [hbindings, ← forall₂_eq_eq_eq, forall₂_map_left_iff, forall₂_map_right_iff]
  exact hnames

/-- No two bindings of a class share a slot, and without errors no slot is left out. -/
theorem slots_apart (s : Shader) :
    (∀ r, (inClass r (link s).2.1.bindings).Pairwise (fun a b => a.slot + a.count ≤ b.slot) ∧
      (∀ b ∈ inClass r (link s).2.1.bindings, b.slot + b.count < UInt32.size) ∧
      ((link s).2.2.hasErrors = false → Contiguous (inClass r (link s).2.1.bindings))) ∧
    ((link s).2.2.hasErrors = false →
      (inClass .constantBuffer (link s).2.1.bindings).map (·.rawName) = s.buffers.map (·.1)) := by
  obtain ⟨t, hlink, htidy⟩ : ∃ t : State, (link s).2 = (t.reflection, t.log) ∧ Tidy t :=
    ⟨_, rfl, tidy_foldl tidy_bindBuffer _ (tidy_foldl tidy_refuseKey _ (tidy_addBuffers _ _ (tidy_addVariables _
      (tidy_foldl tidy_refuseKey _ fun _ => .none))))⟩
  refine ⟨fun r => ?_, constantBuffers_bound⟩
  rw [hlink]
  exact ⟨(htidy r).ordered, fun b hb => ((htidy r).below b hb).trans_lt (htidy r).word,
    fun hquiet => ((htidy r).contiguous hquiet).1⟩

end ShaderCompose.Link
