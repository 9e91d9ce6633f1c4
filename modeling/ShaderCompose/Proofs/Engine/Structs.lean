import ShaderCompose.Proofs.Engine.Loops
import ShaderCompose.Proofs.Hlsl.Spelled

/-!
The structures of a mixed shader: the first one of each name.
-/

namespace ShaderCompose

open List

/-! ## Fields without places -/

def TypeRef.bare (t : TypeRef) : TypeRef :=
  { t with array := t.array.map fun
      | .unsized => .unsized
      | .fixed size => .fixed size.bare }

def Param.bare (p : Param) : Param :=
  { p with type := p.type.bare, default := p.default.map Expr.bare, loc := .generated }

def Decl.fields (d : Decl) : List Param :=
  match d.kind with
  | .struct fields => fields.map Param.bare
  | _ => []

def Shader.DeclaresStruct (s : Shader) (d : Decl) : Prop :=
  ∃ x ∈ s.decls, x.isStruct = true ∧ x.name = d.name ∧ x.fields = d.fields

namespace Mix

variable {builtins : List Module} {instances : List MixInstance} {refs : List BuiltinRef}

def structsOf (instances : List MixInstance) : List Decl :=
  instances.flatMap fun i => i.table.classes.flatMap fun cls =>
    (cls.memberDecls.map (·.2)).filter Decl.isStruct

def struct? (instances : List MixInstance) (name : String) : Option Decl :=
  (structsOf instances).find? fun d => d.name == name

theorem mem_structsOf {d : Decl} :
    d ∈ structsOf instances ↔ ∃ i ∈ instances, ∃ cls ∈ i.table.classes, ∃ id, (id, d) ∈ cls.memberDecls ∧
      d.isStruct = true := by
  simp [structsOf]

theorem structsOf_eq (builtins : List Module) (instances : List MixInstance) :
    structsOf instances = ((membersOf builtins instances).map (·.decl)).filter Decl.isStruct := by
  have hunnumbered : ∀ {α : Type} (l : List α) (f : α → List Decl),
      l.zipIdx.flatMap (fun x => f x.1) = l.flatMap f := by
    intro α l f
    conv_rhs => rw [← zipIdx_map_fst 0 l, flatMap_map]
  rw [membersOf, map_flatMap, filter_flatMap, structsOf, ← hunnumbered instances]
  refine flatMap_congr ?_
  rintro ⟨inst, number⟩ -
  rw [map_flatMap, filter_flatMap, ← hunnumbered inst.table.classes]
  refine flatMap_congr ?_
  rintro ⟨cls, place⟩ -
  rw [map_map]
  rfl

theorem find?_offers (ms : List Member) (name : String) :
    ((ms.flatMap Member.offers).find? fun o => o.key? == some (.struct name)).map (·.member.decl) =
      ((ms.map (·.decl)).filter Decl.isStruct).find? fun d => d.name == name := by
  induction ms with
  | nil => rfl
  | cons m ms ih =>
    rw [flatMap_cons, find?_append, Option.map_or, ih, map_cons, filter_cons]
    cases hstruct : m.decl.isStruct with
    | true =>
      obtain ⟨fields, hkind⟩ := Decl.isStruct_iff.mp hstruct
      have hoffers : m.offers = [.struct m] := by rw [Member.offers, hkind]
      rw [hoffers]
      cases hname : m.decl.name == name with
      | true => simp [Offer.key?, Offer.name?, Offer.keyOf, Offer.member, eq_of_beq hname]
      | false => simp [Offer.key?, Offer.name?, Offer.keyOf, ne_of_beq_false hname]
    | false =>
      have hnone : (m.offers.find? fun o => o.key? == some (.struct name)) = none := by
        rw [find?_eq_none]
        intro o ho hkey
        obtain ⟨m', rfl⟩ := (Offer.key?_cases (beq_iff_eq.mp hkey)).2
        unfold Member.offers at ho
        split at ho <;> simp_all [Decl.isStruct, Member.inner]
      rw [hnone]
      rfl

theorem find?_struct (builtins : List Module) (instances : List MixInstance) (name : String) :
    ((entriesOf builtins instances).find? fun o => o.key? == some (.struct name)).map (·.member.decl) =
      struct? instances name := by
  rw [entriesOf, find?_entries, struct?, structsOf_eq builtins, ← find?_offers]
  rfl

theorem struct_mem_decls (hmixes : Mixes builtins instances refs) (horderly : ∀ i ∈ instances, i.Orderly) {x : Decl} :
    (x ∈ (emit builtins instances).1.decls ∧ x.isStruct = true) ↔ struct? instances x.name = some x ∨
      ∃ ref ∈ refs, builtinDecl? (builtinEnv builtins instances) ref = some x ∧ x.isStruct = true := by
  constructor
  · rintro ⟨hx, hstruct⟩
    rcases (hmixes.decls x).mp hx with ⟨ref, href, hdecl⟩ | ⟨e, he, -, rfl⟩
    · exact .inr ⟨ref, href, hdecl, hstruct⟩
    · have hfits := fits_of_offered horderly ((entries_sublist _).subset he)
      obtain ⟨m, rfl⟩ := (Offer.placed_isStruct hfits).mp hstruct
      refine .inl ?_
      have hkey : (Offer.struct m).key? = some (.struct m.decl.name) := rfl
      obtain ⟨e, hfound⟩ := Option.isSome_iff_exists.mp
        (find?_isSome (p := fun o => o.key? == some (.struct m.decl.name)).mpr ⟨_, he, beq_iff_eq.mpr hkey⟩)
      obtain ⟨i, hi⟩ := mem_iff_getElem?.mp he
      obtain ⟨j, hj⟩ := mem_iff_getElem?.mp (mem_of_find?_eq_some hfound)
      obtain rfl := eq_of_key hi hj hkey (by simpa using find?_some hfound)
      cases hi.symm.trans hj
      exact (find?_struct builtins instances m.decl.name).symm.trans (congrArg _ hfound)
  · rintro (hfirst | ⟨ref, href, hdecl, hstruct⟩)
    · refine ⟨?_, (mem_structsOf.mp (mem_of_find?_eq_some hfirst)).elim fun _ h => ?_⟩
      · rw [← find?_struct builtins] at hfirst
        obtain ⟨e, hfound, rfl⟩ := Option.map_eq_some_iff.mp hfirst
        have hkey := find?_some hfound
        obtain ⟨m, rfl⟩ := (Offer.key?_cases (beq_iff_eq.mp hkey)).2
        exact (hmixes.decls _).mpr (.inr ⟨_, mem_of_find?_eq_some hfound, rfl, rfl⟩)
      · obtain ⟨-, _, -, _, -, hstruct⟩ := h
        exact hstruct
    · exact ⟨(hmixes.decls x).mpr (.inl ⟨ref, href, hdecl⟩), hstruct⟩

theorem struct?_of_mem {d : Decl} (h : d ∈ structsOf instances) :
    ∃ first ∈ structsOf instances, struct? instances d.name = some first ∧ first.name = d.name := by
  obtain ⟨first, hfirst⟩ := Option.isSome_iff_exists.mp
    (find?_isSome (p := fun x : Decl => x.name == d.name).mpr ⟨d, h, beq_self_eq_true _⟩)
  exact ⟨first, mem_of_find?_eq_some hfirst, hfirst, by simpa using find?_some hfirst⟩

theorem declaresStruct_iff (hmixes : Mixes builtins instances refs) (horderly : ∀ i ∈ instances, i.Orderly)
    {d : Decl} (hd : d ∈ structsOf instances) :
    (emit builtins instances).1.DeclaresStruct d ↔
      (∃ first, struct? instances d.name = some first ∧ first.fields = d.fields) ∨
        ∃ ref ∈ refs, ∃ x, builtinDecl? (builtinEnv builtins instances) ref = some x ∧ x.isStruct = true ∧
          x.name = d.name ∧ x.fields = d.fields := by
  constructor
  · rintro ⟨x, hx, hstruct, hname, hfields⟩
    rcases (struct_mem_decls hmixes horderly).mp ⟨hx, hstruct⟩ with hfirst | ⟨ref, href, hdecl, -⟩
    · exact .inl ⟨x, hname ▸ hfirst, hfields⟩
    · exact .inr ⟨ref, href, x, hdecl, hstruct, hname, hfields⟩
  · rintro (⟨first, hfirst, hfields⟩ | ⟨ref, href, x, hdecl, hstruct, hname, hfields⟩)
    · obtain ⟨first', -, hfirst', hname⟩ := struct?_of_mem hd
      cases hfirst.symm.trans hfirst'
      obtain ⟨hmem, hstruct⟩ := (struct_mem_decls hmixes horderly).mpr (.inl (hname.symm ▸ hfirst))
      exact ⟨first, hmem, hstruct, hname, hfields⟩
    · exact ⟨x, ((struct_mem_decls hmixes horderly).mpr (.inr ⟨ref, href, hdecl, hstruct⟩)).1, hstruct, hname,
        hfields⟩

end Mix

namespace Engine

open Mix

variable {e : Engine} {r : Request} {macros : List MacroDef}

/-- Without builtins, structures arrive with their fields exactly if those of one name have the
same. -/
theorem structs_declared_iff (h : e.Reachable) {shader : Shader}
    (hmix : ((e.loaded r macros).compose (e.contextOf r macros) r).1 = some shader) :
    ∃ instances, ∃ refs : List BuiltinRef, (e.loaded r macros).instances (e.contextOf r macros) r = some instances ∧
      (∀ ref ∈ refs, IsBuiltin e.builtins ref) ∧
      (∀ i ∈ instances, ∀ cls ∈ i.table.classes, ∀ (id : DeclId) d, cls.table[id]? = some d →
        d.isStruct = true → d ∈ structsOf instances) ∧
      (∀ x, (x ∈ shader.decls ∧ x.isStruct = true) ↔ struct? instances x.name = some x ∨
        ∃ ref ∈ refs, builtinDecl? (builtinEnv e.builtins instances) ref = some x ∧ x.isStruct = true) ∧
      (∀ d ∈ structsOf instances, shader.DeclaresStruct d ↔
        (∃ first, struct? instances d.name = some first ∧ first.fields = d.fields) ∨
          ∃ ref ∈ refs, ∃ x, builtinDecl? (builtinEnv e.builtins instances) ref = some x ∧ x.isStruct = true ∧
            x.name = d.name ∧ x.fields = d.fields) ∧
      (e.builtins = [] → ((∀ d ∈ structsOf instances, shader.DeclaresStruct d) ↔
        ∀ d ∈ structsOf instances, ∀ d' ∈ structsOf instances, d.name = d'.name → d.fields = d'.fields)) := by
  obtain ⟨instances, his, hlog, rfl⟩ := compose_eq_some hmix
  have horderly := h.orderly his
  obtain ⟨refs, hmixes⟩ := emit_mixes hlog
  refine ⟨instances, refs, his, hmixes.known, ?_, fun x => struct_mem_decls hmixes horderly,
    fun d hd => declaresStruct_iff hmixes horderly hd, fun hnone => ?_⟩
  · intro i hi cls hcls id d hd hstruct
    have hmember := mem_memberDecls_of_isStruct ((horderly i hi).layout cls hcls) hd hstruct
    exact mem_structsOf.mpr ⟨i, hi, cls, hcls, id, hmember, hstruct⟩
  · have hfirst : ∀ d ∈ structsOf instances, (emit (e.contextOf r macros).builtins instances).1.DeclaresStruct d ↔
        ∃ first, struct? instances d.name = some first ∧ first.fields = d.fields := by
      intro d hd
      refine (declaresStruct_iff hmixes horderly hd).trans (or_iff_left ?_)
      rintro ⟨ref, href, -⟩
      obtain ⟨name, hname⟩ := hmixes.known ref href
      rw [show (e.contextOf r macros).builtins = [] from hnone] at hname
      cases hname
    constructor
    · intro hall d hd d' hd' hname
      obtain ⟨first, hd, hfields⟩ := (hfirst d hd).mp (hall d hd)
      obtain ⟨first', hd', hfields'⟩ := (hfirst d' hd').mp (hall d' hd')
      rw [hname] at hd
      cases hd.symm.trans hd'
      exact hfields.symm.trans hfields'
    · intro hall d hd
      obtain ⟨first, hmem, hfound, hname⟩ := struct?_of_mem hd
      exact (hfirst d hd).mpr ⟨first, hfound, hall first hmem d hd hname⟩

def campEngine : Engine where
  library := {
    store := {
      inMemory :=
        [("Camp", "shader Camp { struct Spot { float x; }; compose Tent tent; };"),
         ("Tent", "shader Tent { struct Spot { float x; }; };")] } }

def campRequest : Request := .mixin [⟨"Camp", []⟩] [("tent", .single ⟨"Tent", []⟩)] []

def hasField (field type : String) (d : Decl) : Bool :=
  match d.kind with
  | .struct [⟨name, ⟨typeName, [], none⟩, quals, none, none, _⟩] => name == field && typeName == type && quals == {}
  | _ => false

theorem fields_of_hasField {field type : String} {d : Decl} (h : hasField field type d = true) :
    d.fields = [⟨field, ⟨type, [], none⟩, {}, none, none, .generated⟩] := by
  unfold hasField at h
  split at h
  · next name typeName quals loc hkind =>
    simp only [Bool.and_eq_true, beq_iff_eq] at h
    obtain ⟨⟨rfl, rfl⟩, rfl⟩ := h
    rw [Decl.fields, hkind]
    rfl
  · cases h

theorem camp_structs_declared : campEngine.Reachable ∧ ∃ shader instances,
    ((campEngine.loaded campRequest []).compose (campEngine.contextOf campRequest []) campRequest).1 = some shader ∧
    (campEngine.loaded campRequest []).instances (campEngine.contextOf campRequest []) campRequest =
      some instances ∧
    (structsOf instances).length = 2 ∧ ∀ d ∈ structsOf instances, shader.DeclaresStruct d := by
  have hreachable : campEngine.Reachable := .new _ {}
  have hcamp : (campEngine.mixesSorted campRequest fun _ instances => decide ((structsOf instances).length = 2) &&
      (structsOf instances).all (hasField "x" "float")) = true := by
    decide +kernel
  obtain ⟨shader, instances, hmix, his, hcamp⟩ := mixes_of_sorted hcamp
  obtain ⟨instances', refs, his', -, -, -, -, hall⟩ := structs_declared_iff hreachable hmix
  cases his.symm.trans his'
  obtain ⟨hlength, hfields⟩ := Bool.and_eq_true_iff.mp hcamp
  refine ⟨hreachable, shader, instances, hmix, his, of_decide_eq_true hlength, (hall rfl).mpr fun d hd d' hd' _ => ?_⟩
  have hfield := List.all_eq_true.mp hfields
  exact (fields_of_hasField (hfield d hd)).trans (fields_of_hasField (hfield d' hd')).symm

/-! ## Structures that are lost -/

def dockEngine : Engine where
  library := {
    store := {
      inMemory :=
        [("Dock", "shader Dock { struct Spot { float x; }; compose Ferry ferry; };"),
         ("Ferry", "shader Ferry { struct Spot { int y; }; };")] } }

def dockRequest : Request := .mixin [⟨"Dock", []⟩] [("ferry", .single ⟨"Ferry", []⟩)] []

theorem struct_lost_to_namesake : dockEngine.Reachable ∧ ∃ shader instances,
    ((dockEngine.loaded dockRequest []).compose (dockEngine.contextOf dockRequest []) dockRequest).1 = some shader ∧
    (dockEngine.loaded dockRequest []).instances (dockEngine.contextOf dockRequest []) dockRequest =
      some instances ∧
    ∃ d ∈ structsOf instances, d.name = "Spot" ∧ hasField "y" "int" d = true ∧ ¬ shader.DeclaresStruct d := by
  have hdock : (dockEngine.mixesSorted dockRequest fun shader instances =>
      shader.decls.all (hasField "x" "float") &&
        (structsOf instances).any fun d => d.name == "Spot" && hasField "y" "int" d) = true := by
    decide +kernel
  obtain ⟨shader, instances, hmix, his, hdock⟩ := mixes_of_sorted hdock
  obtain ⟨hshader, hinstances⟩ := Bool.and_eq_true_iff.mp hdock
  obtain ⟨d, hd, hspot⟩ := List.any_eq_true.mp hinstances
  obtain ⟨hname, hfield⟩ := Bool.and_eq_true_iff.mp hspot
  refine ⟨.new _ {}, shader, instances, hmix, his, d, hd, eq_of_beq hname, hfield, ?_⟩
  rintro ⟨x, hx, -, -, hfields⟩
  rw [fields_of_hasField hfield, fields_of_hasField (List.all_eq_true.mp hshader x hx)] at hfields
  simp at hfields

end Engine

end ShaderCompose
