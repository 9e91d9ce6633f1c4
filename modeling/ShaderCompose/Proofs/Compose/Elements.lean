import ShaderCompose.Proofs.Compose.Instances
import ShaderCompose.Proofs.Compose.Renumber
import ShaderCompose.Proofs.Library.Closed

/-!
What fills a slot, in the order of the request.
-/

namespace ShaderCompose

open List

namespace Request

mutual

def elements : Request → List Request
  | single cls => [single cls]
  | mixin bases slots macros => [mixin bases slots macros]
  | array values => listElements values

def listElements : List Request → List Request
  | [] => []
  | r :: rest => r.elements ++ listElements rest

end

def slots : Request → List (String × Request)
  | mixin _ slots _ => slots
  | _ => []

def sources (r : Request) : List (String × Request) := r.nodes.flatMap slots

end Request

namespace Context

/-- A module stands for a class or mixin of a request. -/
inductive Stands (c : Context) (filled : Composition) : Request → Module → Prop
  | intro {element : Request} {m : Module} {key : ModuleKey} {k : KnownClass} {f : Nat → Nat} :
      element.key? c.macros = some key → c.find? key = some k → m = k.loaded.module.renumber f →
      (∀ slot value place, (slot, value) ∈ element.slots → m.slot? slot = some place →
        (filled.lookup place).isSome = true) →
      (∀ slot value place values, (slot, value) ∈ element.slots → m.slot? slot = some place →
        filled.lookup place = some values → List.Forall₂ (Stands c filled) value.elements values) →
      Stands c filled element m

variable {c : Context} {outer : Copying} {s t u : Composing} {sources more : List (String × Request)}

/-- Slots are filled with what stands for the given values. -/
structure Supplies (c : Context) (s t : Composing) (sources : List (String × Request)) : Prop where
  grows : s.filled <+: t.filled
  new : ∀ entry ∈ t.filled, entry ∈ s.filled ∨ ∃ source ∈ sources, ∀ filled, t.filled <+: filled →
    List.Forall₂ (c.Stands filled) source.2.elements entry.2

namespace Supplies

theorem of_filled (h : t.filled = s.filled) : c.Supplies s t sources :=
  ⟨h ▸ prefix_refl _, fun _ hentry => .inl (h ▸ hentry)⟩

theorem trans (h : c.Supplies s t sources) (h' : c.Supplies t u sources) : c.Supplies s u sources where
  grows := h.grows.trans h'.grows
  new entry hentry := by
    rcases h'.new entry hentry with hold | hnew
    · refine (h.new entry hold).imp_right ?_
      rintro ⟨source, hsource, hstands⟩
      exact ⟨source, hsource, fun filled hfilled => hstands filled (h'.grows.trans hfilled)⟩
    · exact .inr hnew

theorem mono (h : c.Supplies s t sources) (hsub : sources ⊆ more) : c.Supplies s t more := by
  refine ⟨h.grows, fun entry hentry => (h.new entry hentry).imp_right ?_⟩
  rintro ⟨source, hsource, hstands⟩
  exact ⟨source, hsub hsource, hstands⟩

theorem fill {slot : String} {place : SlotKey} {values : List Module} {value : Request}
    (hquiet : (s.fill slot place values).log.hasErrors = false) (hsource : (slot, value) ∈ sources)
    (hstands : ∀ filled, s.filled <+: filled → List.Forall₂ (c.Stands filled) value.elements values) :
    c.Supplies s (s.fill slot place values) sources ∧
      (s.fill slot place values).filled.lookup place = some values := by
  unfold Composing.fill at hquiet ⊢
  split at hquiet
  · simp [Composing.report, Log.hasErrors, Diagnostic.error] at hquiet
  · next hfree =>
    rw [if_neg hfree]
    refine ⟨⟨prefix_append _ _, fun entry hentry => ?_⟩, ?_⟩
    · rcases mem_append.mp hentry with hold | hnew
      · exact .inl hold
      · rw [mem_singleton.mp hnew]
        exact .inr ⟨_, hsource, fun filled hfilled => hstands filled ((prefix_append _ _).trans hfilled)⟩
    · rw [lookup_append, Option.not_isSome_iff_eq_none.mp hfree]
      simp

end Supplies

theorem filled_instance? (c : Context) (scope : CopyScope) (r : Request) (s : Composing) :
    (c.instance? scope r s).2.filled = s.filled := by
  unfold instance?
  split
  · rfl
  · split <;> rfl

theorem instance?_stands (houter : outer.Coherent c.modules) {r : Request} (hnext : outer.next ≤ s.next)
    {m : Module} (h : c.instance? outer.scope r s = (some m, t)) :
    ∃ key k f, r.key? c.macros = some key ∧ c.find? key = some k ∧ m = k.loaded.module.renumber f := by
  obtain ⟨-, hmade⟩ := instance?_spec houter r hnext
  rw [h] at hmade
  obtain ⟨k, hk, -, f, hm, -⟩ := hmade m rfl
  obtain ⟨key, hkey, hfind⟩ := Option.bind_eq_some_iff.mp hk
  exact ⟨key, k, f, hkey, hfind, hm⟩

theorem log_fill (s : Composing) (slot : String) (place : SlotKey) (values : List Module) :
    s.log <+: (s.fill slot place values).log := by
  unfold Composing.fill
  split
  · exact prefix_append _ _
  · exact prefix_refl _

mutual

theorem compose_stands (houter : outer.Coherent c.modules) (o : Options) :
    ∀ (r : Request) (s t : Composing) (ms : List Module), outer.next ≤ s.next →
      c.compose o outer.scope r s = (some ms, t) → t.log.hasErrors = false →
      c.Supplies s t r.sources ∧ ∀ filled, t.filled <+: filled → List.Forall₂ (c.Stands filled) r.elements ms
  | .single cls, s, t, ms, hnext, h, _ => by
    have hfilled := filled_instance? c outer.scope (.single cls) s
    rw [compose] at h
    cases hone : c.instance? outer.scope (.single cls) s with
    | mk made u =>
      rw [hone] at h hfilled
      cases made with
      | none => cases h
      | some m =>
        cases h
        obtain ⟨key, k, f, hkey, hfind, hm⟩ := instance?_stands houter hnext hone
        exact ⟨.of_filled hfilled, fun filled _ => .cons (.intro hkey hfind hm nofun nofun) .nil⟩
  | .mixin bases slots macros, s, t, ms, hnext, h, hquiet => by
    have hfilled := filled_instance? c outer.scope (.mixin bases slots macros) s
    obtain ⟨hcomposed, hmade⟩ := instance?_spec houter (.mixin bases slots macros) hnext
    rw [compose] at h
    cases hone : c.instance? outer.scope (.mixin bases slots macros) s with
    | mk made u =>
      rw [hone] at h hfilled hcomposed hmade
      cases made with
      | none => cases h
      | some m =>
        obtain ⟨key, k, f, hkey, hfind, hm⟩ := instance?_stands houter hnext hone
        obtain ⟨k', hk', -, hcopy⟩ := hmade m rfl
        obtain ⟨key', -, hfind'⟩ := Option.bind_eq_some_iff.mp hk'
        have hinstance : c.Instance outer.scope s.next u.next m := ⟨k', (mem_of_find? hfind').1, hcopy⟩
        cases hslots : c.composeSlots o outer.scope m slots u with
        | mk all v =>
          dsimp only at h
          rw [hslots] at h
          cases all with
          | false => cases h
          | true =>
            cases h
            obtain ⟨hsupplies, hgiven⟩ := composeSlots_stands houter o slots u t s.next m hinstance
              (hnext.trans hcomposed.next) hslots hquiet
            have hsources : (Request.mixin bases slots macros).sources =
                slots ++ (Request.slotNodes slots).flatMap Request.slots := by
              rfl
            refine ⟨hsources ▸ .trans (.of_filled hfilled) hsupplies, fun filled hv => ?_⟩
            refine .cons (.intro hkey hfind hm ?_ ?_) .nil
            · intro slot value place hslot hplace
              obtain ⟨values, hvalues, -⟩ := hgiven slot value place hslot hplace filled hv
              rw [hvalues]
              rfl
            · intro slot value place values hslot hplace hvalues
              obtain ⟨values', hvalues', hstands⟩ := hgiven slot value place hslot hplace filled hv
              cases hvalues.symm.trans hvalues'
              exact hstands
  | .array values, s, t, ms, hnext, h, hquiet => by
    exact composeValues_stands houter o values s t ms hnext h hquiet

theorem composeSlots_stands (houter : outer.Coherent c.modules) (o : Options) :
    ∀ (slots : List (String × Request)) (s t : Composing) (lo : Nat) (m : Module),
      c.Instance outer.scope lo s.next m → outer.next ≤ s.next →
      c.composeSlots o outer.scope m slots s = (true, t) → t.log.hasErrors = false →
      c.Supplies s t (slots ++ (Request.slotNodes slots).flatMap Request.slots) ∧
        ∀ slot value place, (slot, value) ∈ slots → m.slot? slot = some place → ∀ filled, t.filled <+: filled →
          ∃ values, filled.lookup place = some values ∧ List.Forall₂ (c.Stands filled) value.elements values
  | [], s, t, lo, m, _, _, h, _ => by
    cases h
    exact ⟨.of_filled rfl, nofun⟩
  | (slot, value) :: rest, s, t, lo, m, hm, hnext, h, hquiet => by
    have hrestSources : rest ++ (Request.slotNodes rest).flatMap Request.slots ⊆
        ((slot, value) :: rest) ++ (Request.slotNodes ((slot, value) :: rest)).flatMap Request.slots := by
      rw [Request.slotNodes, flatMap_append]
      intro source hsource
      simp only [mem_append] at hsource ⊢
      tauto
    rw [composeSlots] at h
    cases hslot : m.slot? slot with
    | none =>
      -- a value for a slot that does not exist is passed over
      rw [hslot] at h
      generalize hwarned : (if o.warnUnknownSlot then s.report (.warning (.unknownSlot m.name slot)) else s) = u at h
      have hsame : u.filled = s.filled ∧ u.next = s.next := by
        rw [← hwarned]
        split <;> exact ⟨rfl, rfl⟩
      obtain ⟨hsupplies, hgiven⟩ := composeSlots_stands houter o rest u t lo m (hsame.2 ▸ hm)
        (hsame.2 ▸ hnext) h hquiet
      refine ⟨.trans (.of_filled hsame.1) (hsupplies.mono hrestSources), fun slot' value' place hmem hplace => ?_⟩
      rcases mem_cons.mp hmem with heq | hmem
      · cases heq
        cases hslot.symm.trans hplace
      · exact hgiven slot' value' place hmem hplace
    | some place =>
      rw [hslot] at h
      obtain ⟨hcomposed, -⟩ := compose_spec houter o value s hnext
      cases hone : c.compose o outer.scope value s with
      | mk found u =>
        rw [hone] at h hcomposed
        cases found with
        | none => cases h
        | some values =>
          dsimp only at h
          have hnextu : (u.fill slot place values).next = u.next := Composing.fill_next ..
          have hmu : c.Instance outer.scope lo (u.fill slot place values).next m :=
            hnextu ▸ hm.mono (Nat.le_refl _) hcomposed.next
          have hnextu' : outer.next ≤ (u.fill slot place values).next := hnextu ▸ hnext.trans hcomposed.next
          -- the log only grows, so that nothing was wrong up to here either
          have hlog := (composeSlots_spec houter o rest _ lo m hmu hnextu').log
          rw [h] at hlog
          have hquietFill := Log.quiet_of_prefix hlog hquiet
          have hquietu : u.log.hasErrors = false := Log.quiet_of_prefix (log_fill ..) hquietFill
          obtain ⟨hvalue, hstands⟩ := compose_stands houter o value s u values hnext hone hquietu
          have hmem : (slot, value) ∈ (slot, value) :: rest := mem_cons_self
          obtain ⟨hfill, hlookup⟩ := Supplies.fill hquietFill hmem hstands
          obtain ⟨hsupplies, hgiven⟩ := composeSlots_stands houter o rest _ t lo m hmu hnextu' h hquiet
          refine ⟨?_, fun slot' value' place' hmem hplace filled hfilled => ?_⟩
          · have hvalueSources : value.sources ⊆ ((slot, value) :: rest) ++
                (Request.slotNodes ((slot, value) :: rest)).flatMap Request.slots := by
              rw [Request.slotNodes, flatMap_append]
              exact subset_append_of_subset_right _ (subset_append_left _ _)
            have hfill := hfill.mono (subset_append_left _
              ((Request.slotNodes ((slot, value) :: rest)).flatMap Request.slots))
            exact ((hvalue.mono hvalueSources).trans hfill).trans (hsupplies.mono hrestSources)
          · rcases mem_cons.mp hmem with heq | hmem
            · cases heq
              cases hslot.symm.trans hplace
              have hgrows := hsupplies.grows.trans hfilled
              exact ⟨values, lookup_of_prefix hgrows hlookup, hstands filled (hfill.grows.trans hgrows)⟩
            · exact hgiven slot' value' place' hmem hplace filled hfilled

theorem composeValues_stands (houter : outer.Coherent c.modules) (o : Options) :
    ∀ (values : List Request) (s t : Composing) (ms : List Module), outer.next ≤ s.next →
      c.composeValues o outer.scope values s = (some ms, t) → t.log.hasErrors = false →
      c.Supplies s t (Request.array values).sources ∧
        ∀ filled, t.filled <+: filled → List.Forall₂ (c.Stands filled) (Request.listElements values) ms
  | [], s, t, ms, _, h, _ => by
    cases h
    exact ⟨.of_filled rfl, fun _ _ => .nil⟩
  | value :: rest, s, t, ms, hnext, h, hquiet => by
    rw [composeValues] at h
    obtain ⟨hcomposed, -⟩ := compose_spec houter o value s hnext
    cases hone : c.compose o outer.scope value s with
    | mk found u =>
      rw [hone] at h hcomposed
      cases found with
      | none => cases h
      | some first =>
        dsimp only at h
        have hnextu := hnext.trans hcomposed.next
        have hlog := (composeValues_spec houter o rest u hnextu).1.log
        cases hrest : c.composeValues o outer.scope rest u with
        | mk more v =>
          rw [hrest] at h hlog
          cases more with
          | none => cases h
          | some more =>
            cases h
            obtain ⟨hvalue, hstands⟩ := compose_stands houter o value s u first hnext hone
              (Log.quiet_of_prefix hlog hquiet)
            obtain ⟨hmore, hstandsMore⟩ := composeValues_stands houter o rest u v more hnextu hrest hquiet
            have hsources : (Request.array (value :: rest)).sources =
                value.sources ++ (Request.array rest).sources := flatMap_append
            refine ⟨hsources ▸ (hvalue.mono (subset_append_left _ _)).trans
              (hmore.mono (subset_append_right _ _)), fun filled hfilled => ?_⟩
            exact rel_append (hstands filled (hmore.grows.trans hfilled)) (hstandsMore filled hfilled)

end

end Context

end ShaderCompose
