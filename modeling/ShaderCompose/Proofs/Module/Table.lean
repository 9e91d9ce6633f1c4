import ShaderCompose.Module.Table
import ShaderCompose.Proofs.Pairs
import ShaderCompose.Proofs.Shader.Listed

/-!
What the table of a module holds.
-/

namespace ShaderCompose

open List

abbrev Listing := List (MemberRef × Decl)

def ShaderClass.structs (c : ShaderClass) : List (DeclId × Decl) := c.entries.filter fun e => e.2.isStruct

def along (pick : ShaderClass → List (DeclId × Decl)) (classes : List ShaderClass) : Listing :=
  classes.zipIdx.flatMap fun (cls, place) => (pick cls).map fun (id, d) => (⟨place, id⟩, d)

def Listing.named (ms : Listing) (name : String) : List MemberRef :=
  (ms.filter fun m => m.2.name == name).map (·.1)

def Listing.first? (ms : Listing) (name : String) : Option MemberRef :=
  (ms.find? fun m => m.2.name == name).map (·.1)

namespace Listing

theorem named_snoc (ms : Listing) (ref : MemberRef) (d : Decl) (name : String) :
    named (ms ++ [(ref, d)]) name = named ms name ++ if d.name = name then [ref] else [] := by
  by_cases h : d.name = name <;> simp [named, h]

variable {name : String}

theorem mem_named {ms : Listing} {ref : MemberRef} :
    ref ∈ ms.named name ↔ ∃ d, (ref, d) ∈ ms ∧ d.name = name := by
  simp [named]

theorem first?_snoc (ms : Listing) (ref : MemberRef) (d : Decl) (name : String) :
    first? (ms ++ [(ref, d)]) name = (first? ms name).or (if d.name = name then some ref else none) := by
  unfold first?
  rw [find?_append]
  cases ms.find? fun m => m.2.name == name with
  | some m => rfl
  | none => by_cases h : d.name = name <;> simp [h]

theorem first?_eq_some {ms : Listing} {ref : MemberRef} (h : ms.first? name = some ref) :
    ∃ d, (ref, d) ∈ ms ∧ d.name = name := by
  obtain ⟨⟨_, d⟩, hfound, rfl⟩ := Option.map_eq_some_iff.mp h
  exact ⟨d, mem_of_find?_eq_some hfound, by simpa using find?_some hfound⟩

theorem first?_isSome {ms : Listing} :
    (ms.first? name).isSome = true ↔ ∃ m ∈ ms, m.2.name = name := by
  simp [first?]

end Listing

namespace MemberTable

/-! ## Members of a listing -/

theorem mem_along {pick : ShaderClass → List (DeclId × Decl)} {classes : List ShaderClass}
    {ref : MemberRef} {d : Decl} :
    (ref, d) ∈ along pick classes ↔ ∃ cls, classes[ref.cls]? = some cls ∧ (ref.decl, d) ∈ pick cls := by
  obtain ⟨place, id⟩ := ref
  simp only [along, mem_flatMap, Prod.exists, mk_mem_zipIdx_iff_getElem?, mem_map, Prod.mk.injEq, MemberRef.mk.injEq]
  constructor
  · rintro ⟨cls, n, hcls, i, d', hd', ⟨rfl, rfl⟩, rfl⟩
    exact ⟨cls, hcls, hd'⟩
  · rintro ⟨cls, hcls, hd⟩
    exact ⟨cls, place, hcls, id, d, hd, ⟨rfl, rfl⟩, rfl⟩

/-! ## Member by member -/

def reportedIn (m : Module) (a b : Nat) : Bool :=
  sharedBy (m.hierarchy.take (m.hierarchy.length - 1)) (((m.hierarchy[a]?).map Module.name).getD "")
    (((m.hierarchy[b]?).map Module.name).getD "")

theorem foldl_listing {place : Nat} {add : MemberTable → DeclId × Decl → MemberTable}
    {P : MemberTable → Listing → Prop}
    (step : ∀ t ms id d, P t ms → P (add t (id, d)) (ms ++ [(⟨place, id⟩, d)])) (es : List (DeclId × Decl))
    {t : MemberTable} {ms : Listing} (h : P t ms) :
    P (es.foldl add t) (ms ++ es.map fun e => (⟨place, e.1⟩, e.2)) := by
  induction es generalizing t ms with
  | nil => simpa using h
  | cons e es ih => simpa using ih (step t ms e.1 e.2 h)

theorem ofModule_induction {m : Module} {P : MemberTable → Listing → Listing → Listing → Prop}
    (start : P { classes := m.hierarchy.map Module.cls } [] [] [])
    (method : ∀ cls place vars structs t ms id d, P t ms vars structs →
      P (addMethod cls place (place == m.hierarchy.length - 1) t (id, d)) (ms ++ [(⟨place, id⟩, d)]) vars structs)
    (var : ∀ place methods structs t ms id d, P t methods ms structs →
      P (addVariable m.name (reportedIn m) place t (id, d)) methods (ms ++ [(⟨place, id⟩, d)]) structs)
    (struct : ∀ place methods vars t ms id d, P t methods vars ms →
      P (addStruct m.name (reportedIn m) place t (id, d)) methods vars (ms ++ [(⟨place, id⟩, d)])) :
    P (ofModule m) (along ShaderClass.methods (m.hierarchy.map Module.cls))
      (along ShaderClass.vars (m.hierarchy.map Module.cls))
      (along ShaderClass.structs (m.hierarchy.map Module.cls)) := by
  have all : ∀ (cs : List (ShaderClass × Nat)) {t : MemberTable} {methods vars structs : Listing},
      P t methods vars structs →
      P (cs.foldl (addClass m.name (m.hierarchy.length - 1) (reportedIn m)) t)
        (methods ++ cs.flatMap fun c => c.1.methods.map fun e => (⟨c.2, e.1⟩, e.2))
        (vars ++ cs.flatMap fun c => c.1.vars.map fun e => (⟨c.2, e.1⟩, e.2))
        (structs ++ cs.flatMap fun c => c.1.structs.map fun e => (⟨c.2, e.1⟩, e.2)) := by
    intro cs
    induction cs with
    | nil =>
      intro t methods vars structs h
      simpa using h
    | cons c cs ih =>
      intro t methods vars structs h
      have hmethods := foldl_listing (method c.1 c.2 vars structs) c.1.methods h
      have hvars := foldl_listing (var c.2 _ structs) c.1.vars hmethods
      have hstructs := foldl_listing (struct c.2 _ _) c.1.structs hvars
      have hrest := ih hstructs
      simp only [append_assoc] at hrest
      exact hrest
  exact all _ start

/-! ## Dictionaries -/

def register (dict : List (String × MemberRef)) (ref : MemberRef) (d : Decl) : List (String × MemberRef) :=
  match dict.lookup d.name with
  | some _ => dict
  | none => dict ++ [(d.name, ref)]

def clash (owner : String) (reported : Nat → Nat → Bool) (place : Nat) (dict : List (String × MemberRef))
    (d : Decl) : Log :=
  (dict.lookup d.name).elim [] (conflict owner reported place d)

theorem lookup_register {dict : List (String × MemberRef)} {ms : Listing}
    (h : ∀ name, dict.lookup name = ms.first? name) (ref : MemberRef) (d : Decl) (name : String) :
    (register dict ref d).lookup name = Listing.first? (ms ++ [(ref, d)]) name := by
  rw [Listing.first?_snoc, ← h]
  unfold register
  by_cases hname : d.name = name
  · subst hname
    cases hfound : dict.lookup d.name <;> simp [hfound, lookup_append]
  · have hne : (name == d.name) = false := by simpa using Ne.symm hname
    cases dict.lookup d.name <;> simp [hname, hne, lookup_append, lookup_cons]

section

variable (owner : String) (reported : Nat → Nat → Bool) (cls : ShaderClass) (place : Nat) (isOwn : Bool)
  (t : MemberTable) (id : DeclId)

theorem addVariable_eq : addVariable owner reported place t (id, d) = { t with
      vars := register t.vars ⟨place, id⟩ d
      log := t.log ++ clash owner reported place t.vars d } := by
  unfold addVariable register clash variableRef?
  dsimp only
  cases t.vars.lookup d.name <;> simp

theorem addStruct_eq : addStruct owner reported place t (id, d) = { t with
      structs := register t.structs ⟨place, id⟩ d
      log := t.log ++ clash owner reported place t.structs d } := by
  unfold addStruct register clash structRef?
  dsimp only
  cases t.structs.lookup d.name <;> simp

theorem addMethod_eq : ∃ methods more,
    addMethod cls place isOwn t (id, d) = { t with methods, log := t.log ++ more } := by
  unfold addMethod addImplementation
  dsimp only
  split
  · exact ⟨_, _, rfl⟩
  · exact ⟨_, _, rfl⟩

end

structure Lists (t : MemberTable) (methods vars : Listing) : Prop where
  nodup : (t.methods.map MethodSlot.name).Nodup
  slots : ∀ slot, slot ∈ t.methods ↔ slot.implementations = methods.named slot.name ∧ slot.implementations ≠ []
  vars : ∀ name, t.variableRef? name = vars.first? name

namespace Lists

variable {t : MemberTable} {methods vars : Listing}

theorem method?_eq_some (h : t.Lists methods vars) {name : String} {slot : MethodSlot} : t.method? name = some slot ↔
      slot.name = name ∧ slot.implementations = methods.named name ∧ slot.implementations ≠ [] := by
  constructor
  · intro hslot
    have hname : slot.name = name := by simpa using find?_some hslot
    have hmem := (h.slots slot).mp (mem_of_find?_eq_some hslot)
    exact ⟨hname, hname ▸ hmem.1, hmem.2⟩
  · rintro ⟨rfl, hslot⟩
    have hmem := (h.slots slot).mpr hslot
    have hsome : (t.method? slot.name).isSome = true := find?_isSome.mpr ⟨slot, hmem, beq_self_eq_true _⟩
    obtain ⟨other, hother⟩ := Option.isSome_iff_exists.mp hsome
    have hname : other.name = slot.name := by simpa using find?_some hother
    rw [hother, inj_on_of_nodup_map h.nodup (mem_of_find?_eq_some hother) hmem hname]

theorem method?_eq_none (h : t.Lists methods vars) {name : String} :
    t.method? name = none ↔ methods.named name = [] := by
  constructor
  · intro hnone
    by_contra hne
    have hsome := h.method?_eq_some.mpr (⟨rfl, rfl, hne⟩ : (⟨name, methods.named name⟩ : MethodSlot).name = name ∧ _)
    rw [hnone] at hsome
    cases hsome
  · intro hnil
    cases hslot : t.method? name with
    | none => rfl
    | some slot =>
      obtain ⟨-, himpl, hne⟩ := h.method?_eq_some.mp hslot
      exact absurd (himpl.trans hnil) hne

theorem addImplementation (h : t.Lists methods vars) (ref : MemberRef) (d : Decl) :
    (t.addImplementation d.name ref).Lists (methods ++ [(ref, d)]) vars := by
  unfold MemberTable.addImplementation
  cases hslot : t.method? d.name with
  | none =>
    have hnil := h.method?_eq_none.mp hslot
    have hfresh : d.name ∉ t.methods.map MethodSlot.name := by
      intro hmem
      obtain ⟨slot, hmem, hname⟩ := mem_map.mp hmem
      simpa [hname] using find?_eq_none.mp hslot slot hmem
    rw [if_neg (by simp)]
    refine ⟨?_, fun slot => ?_, h.vars⟩
    · rw [map_append]
      exact h.nodup.append (nodup_singleton _) (disjoint_singleton.mpr hfresh)
    · rw [mem_append, h.slots, mem_singleton, Listing.named_snoc]
      obtain ⟨name, implementations⟩ := slot
      by_cases hname : d.name = name
      · subst hname
        simp only [hnil, MethodSlot.mk.injEq, true_and]
        exact ⟨fun hor => hor.elim (fun hand => absurd hand.1 hand.2) fun himpl => ⟨himpl, by simp [himpl]⟩,
          fun hand => .inr hand.1⟩
      · simp [hname, Ne.symm hname]
  | some old =>
    obtain ⟨hname, himpl, hne⟩ := h.method?_eq_some.mp hslot
    rw [if_pos (by simp)]
    have hgrow : ∀ s : MethodSlot, s.implementations = methods.named s.name →
        (if s.name == d.name then { s with implementations := s.implementations ++ [ref] } else s) =
          ⟨s.name, Listing.named (methods ++ [(ref, d)]) s.name⟩ := by
      rintro ⟨name, implementations⟩ hs
      dsimp only at hs ⊢
      subst hs
      rw [Listing.named_snoc]
      by_cases hd : d.name = name
      · simp [hd]
      · simp [hd, Ne.symm hd]
    refine ⟨?_, fun slot => ?_, h.vars⟩
    · have hnames := map_congr_left fun s hs => congrArg MethodSlot.name (hgrow s ((h.slots s).mp hs).1)
      rw [map_map]
      exact hnames ▸ h.nodup
    · rw [mem_map]
      constructor
      · rintro ⟨s, hs, rfl⟩
        obtain ⟨hsimpl, hsne⟩ := (h.slots s).mp hs
        rw [hgrow s hsimpl]
        exact ⟨rfl, by simp [Listing.named_snoc, ← hsimpl, hsne]⟩
      · rintro ⟨hsimpl, hsne⟩
        obtain ⟨name, implementations⟩ := slot
        dsimp only at hsimpl hsne
        subst hsimpl
        refine ⟨⟨name, methods.named name⟩, (h.slots _).mpr ⟨rfl, fun hnil => ?_⟩, hgrow _ rfl⟩
        by_cases hd : d.name = name
        · exact hne (himpl.trans (hd ▸ hnil))
        · exact hsne (by simp only [Listing.named_snoc, if_neg hd, append_nil]; exact hnil)

end Lists

structure Records (t : MemberTable) (methods vars structs : Listing) : Prop extends t.Lists methods vars where
  structs : ∀ name, t.structRef? name = structs.first? name

namespace Records

variable {t : MemberTable} {methods vars structs : Listing} (h : t.Records methods vars structs)

include h

theorem addMethod (cls : ShaderClass) (place : Nat) (isOwn : Bool) (id : DeclId) (d : Decl) :
    (MemberTable.addMethod cls place isOwn t (id, d)).Records (methods ++ [(⟨place, id⟩, d)]) vars structs := by
  obtain ⟨nodup, slots, -⟩ := h.addImplementation ⟨place, id⟩ d
  obtain ⟨added, more, hsame⟩ := addMethod_eq cls place isOwn t id
  have hadded : added = (t.addImplementation d.name ⟨place, id⟩).methods := (congrArg MemberTable.methods hsame).symm
  rw [hsame]
  exact ⟨⟨hadded ▸ nodup, hadded ▸ slots, h.vars⟩, h.structs⟩

theorem addVariable (owner : String) (reported : Nat → Nat → Bool) (place : Nat) (id : DeclId) (d : Decl) :
    (MemberTable.addVariable owner reported place t (id, d)).Records methods (vars ++ [(⟨place, id⟩, d)]) structs := by
  rw [addVariable_eq]
  exact ⟨⟨h.nodup, h.slots, lookup_register h.vars ⟨place, id⟩ d⟩, h.structs⟩

theorem addStruct (owner : String) (reported : Nat → Nat → Bool) (place : Nat) (id : DeclId) (d : Decl) :
    (MemberTable.addStruct owner reported place t (id, d)).Records methods vars (structs ++ [(⟨place, id⟩, d)]) := by
  rw [addStruct_eq]
  exact ⟨⟨h.nodup, h.slots, h.vars⟩, lookup_register h.structs ⟨place, id⟩ d⟩

end Records

theorem records_nil (classes : List ShaderClass) : ({ classes } : MemberTable).Records [] [] [] :=
  ⟨⟨nodup_nil, fun slot => by simp [Listing.named], fun _ => rfl⟩, fun _ => rfl⟩

@[simp] theorem classes_ofModule (m : Module) : (ofModule m).classes = m.hierarchy.map Module.cls := by
  refine ofModule_induction (P := fun t _ _ _ => t.classes = m.hierarchy.map Module.cls) rfl ?_ ?_ ?_
  · intro cls place _ _ t _ id d h
    obtain ⟨methods, more, hsame⟩ := addMethod_eq cls place (place == m.hierarchy.length - 1) t id
    rwa [hsame]
  · intro place _ _ t _ id d h
    rwa [addVariable_eq]
  · intro place _ _ t _ id d h
    rwa [addStruct_eq]

theorem ofModule_records (m : Module) : (ofModule m).Records (along ShaderClass.methods (m.hierarchy.map Module.cls))
    (along ShaderClass.vars (m.hierarchy.map Module.cls)) (along ShaderClass.structs (m.hierarchy.map Module.cls)) :=
  ofModule_induction (records_nil _) (fun _ _ _ _ _ _ _ _ h => h.addMethod ..)
    (fun _ _ _ _ _ _ _ h => h.addVariable ..) fun _ _ _ _ _ _ _ h => h.addStruct ..

theorem ofModule_lists (m : Module) : (ofModule m).Lists (along ShaderClass.methods (ofModule m).classes)
    (along ShaderClass.vars (ofModule m).classes) := by
  rw [classes_ofModule]
  exact (ofModule_records m).toLists

end MemberTable

end ShaderCompose
