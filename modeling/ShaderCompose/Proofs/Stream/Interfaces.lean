import Mathlib.Data.List.Induction
import ShaderCompose.Proofs.Shader.Listed
import ShaderCompose.Proofs.Stream.Walk

/-!
The structures between the vertex and the pixel stage.
-/

namespace ShaderCompose

open List

def Decl.isMethodNamed (name : String) (d : Decl) : Bool := d.isMethod && d.name == name

namespace Shader

variable {s : Shader}

def methodId? (s : Shader) (name : String) : Option DeclId :=
  s.declarations.find? fun id => (s.table[id]?).any (Decl.isMethodNamed name)

theorem find?_entries (q : Decl → Bool) : s.entries.find? (fun e => q e.2) =
      (s.declarations.find? fun id => (s.table[id]?).any q).bind fun id => (s.table[id]?).map fun d => (id, d) := by
  rw [entries, find?_filterMap]
  congr 2
  funext id
  cases s.table[id]? <;> rfl

theorem methodId?_spec {name : String} {id : DeclId} (h : s.methodId? name = some id) :
    id ∈ s.declarations ∧ ∃ d, s.table[id]? = some d ∧ d.isMethod = true ∧ d.name = name := by
  have hany := find?_some (p := fun id => (s.table[id]?).any (Decl.isMethodNamed name)) h
  refine ⟨mem_of_find?_eq_some h, ?_⟩
  cases htable : s.table[id]? with
  | none => simp [htable] at hany
  | some d =>
    simp only [htable, Option.any_some, Decl.isMethodNamed, Bool.and_eq_true, beq_iff_eq] at hany
    exact ⟨d, rfl, hany⟩

theorem mem_methods_iff {d : Decl} :
    d ∈ s.methods ↔ d.isMethod = true ∧ ∃ id ∈ s.declarations, s.table[id]? = some d := by
  rw [methods, mem_filter, mem_decls, and_comm]

section

variable (hnames : (s.methods.map Decl.name).Nodup)

include hnames

theorem eq_of_name {d d' : Decl} (hd : d ∈ s.methods) (hd' : d' ∈ s.methods) (h : d.name = d'.name) : d = d' :=
  inj_on_of_nodup_map hnames hd hd' h

theorem find?_methods {d : Decl} (hd : d ∈ s.methods) : s.methods.find? (fun m => m.name == d.name) = some d := by
  obtain ⟨m, hm⟩ := Option.isSome_iff_exists.mp
    (find?_isSome.mpr ⟨d, hd, beq_self_eq_true d.name⟩ : (s.methods.find? fun m => m.name == d.name).isSome)
  have hname : m.name = d.name := by simpa using find?_some hm
  rw [hm, eq_of_name hnames (mem_of_find?_eq_some hm) hd hname]

theorem methodId?_of_mem {d : Decl} (hd : d ∈ s.methods) :
    ∃ id, s.methodId? d.name = some id ∧ id ∈ s.declarations ∧ s.table[id]? = some d := by
  obtain ⟨hmethod, i, hi, htable⟩ := mem_methods_iff.mp hd
  have hnamed : d.isMethodNamed d.name = true := by simp [Decl.isMethodNamed, hmethod]
  obtain ⟨id, hid⟩ := Option.isSome_iff_exists.mp (find?_isSome.mpr ⟨i, hi, by simpa [htable] using hnamed⟩ :
    (s.methodId? d.name).isSome)
  obtain ⟨hmem, d', htable', hmethod', hname⟩ := methodId?_spec hid
  have hd' : d' ∈ s.methods := mem_methods_iff.mpr ⟨hmethod', id, hmem, htable'⟩
  exact ⟨id, hid, hmem, by rw [htable', eq_of_name hnames hd' hd hname]⟩

end

theorem get?_entryPoints (hcompute : s.entryOf? .compute = none) (stage : Stage) :
    s.entryPoints.get? stage = (s.entryOf? stage).map (·.2) := by
  have hstages : ∀ stages : List Stage, (stages.filterMap s.entryOf?).lookup stage =
      if stage ∈ stages then (s.entryOf? stage).map (·.2) else none := by
    intro stages
    induction stages with
    | nil => rfl
    | cons first rest ih =>
      have hfst : ∀ entry, s.entryOf? first = some entry → entry.1 = first := by
        intro entry hentry
        obtain ⟨m, -, rfl⟩ := Option.map_eq_some_iff.mp hentry
        rfl
      cases hfirst : s.entryOf? first with
      | none =>
        rw [filterMap_cons_none hfirst, ih]
        by_cases hstage : stage = first
        · simp [hstage, hfirst]
        · simp [hstage]
      | some entry =>
        rw [filterMap_cons_some hfirst]
        by_cases hstage : stage = first
        · have hentry : entry = (stage, entry.2) := Prod.ext ((hfst entry hfirst).trans hstage.symm) rfl
          rw [hentry, lookup_cons_self, if_pos (by simp [hstage]), hstage, hfirst]
          rfl
        · have hne : (stage == entry.1) = false := by
            rw [hfst entry hfirst]
            simpa using hstage
          rw [lookup_cons, hne, ih]
          simp [hstage]
  rw [entryPoints, hcompute]
  exact (hstages Stage.all).trans (if_pos (Stage.mem_all stage))

theorem table_foldl_modify (f : Decl → Decl) {ids : List DeclId} {id : DeclId} (h : id ∉ ids) :
    (ids.foldl (fun s i => s.modify i f) s).table[id]? = s.table[id]? := by
  induction ids generalizing s with
  | nil => rfl
  | cons i ids ih =>
    rw [foldl_cons, ih fun hmem => h (mem_cons_of_mem _ hmem), modify, Array.getElem?_modify]
    have hne : i ≠ id := fun heq => h (heq ▸ mem_cons_self)
    exact if_neg hne

theorem declarations_foldl_modify (f : Decl → Decl) (ids : List DeclId) :
    (ids.foldl (fun s i => s.modify i f) s).declarations = s.declarations := by
  induction ids generalizing s with
  | nil => rfl
  | cons i ids ih => exact ih

end Shader

namespace Stream

variable {s : Shader} {vars : List StreamVar}

/-! ## Carrying out a plan -/

variable {plan : EntryPlan} {d : Decl} {streams : List Nat} {name : String}

theorem not_isMethod_of_mem_planStructs (h : d ∈ planStructs vars plan) : d.isMethod = false := by
  have hstruct : ∀ generate (struct : StreamStruct), (structDecl vars generate struct).isMethod = false :=
    fun _ _ => rfl
  rcases mem_append.mp h with h | h
  · split at h
    · cases h
    · obtain ⟨struct, -, rfl⟩ := mem_map.mp h
      exact hstruct _ struct
  · obtain ⟨struct, -, rfl⟩ := mem_map.mp h
    exact hstruct _ struct

theorem any_append_planStructs (vars : List StreamVar) (plan : EntryPlan) (name : String) (i : DeclId) :
    ((s.table ++ (planStructs vars plan).toArray)[i]?).any (Decl.isMethodNamed name) =
      (s.table[i]?).any (Decl.isMethodNamed name) := by
  rw [Array.getElem?_append]
  split
  · rfl
  · next hge =>
    rw [Array.getElem?_eq_none (Nat.le_of_not_lt hge)]
    cases hmade : (planStructs vars plan).toArray[i - s.table.size]? with
    | none => rfl
    | some d =>
      have hd : d ∈ planStructs vars plan := mem_of_getElem? (by simpa using hmade)
      simp [Decl.isMethodNamed, not_isMethod_of_mem_planStructs hd]

theorem applyPlan_eq {id : DeclId} (ids : List DeclId) (hid : s.methodId? plan.entry = some id) :
    applyPlan vars (s, ids) plan =
      (⟨(s.table ++ (planStructs vars plan).toArray).modify id (planMethod vars plan), s.declarations⟩,
        ids ++ List.range' s.table.size (planStructs vars plan).length) := by
  have hfound : (⟨s.table ++ (planStructs vars plan).toArray, s.declarations⟩ : Shader).methodId? plan.entry =
      some id := by
    rw [← hid]
    simp only [Shader.methodId?, any_append_planStructs]
  have hentry := Shader.find?_entries (s := ⟨s.table ++ (planStructs vars plan).toArray, s.declarations⟩)
    (Decl.isMethodNamed plan.entry)
  obtain ⟨-, d, hd, -⟩ := Shader.methodId?_spec hid
  have hlt : id < s.table.size := (Array.getElem?_eq_some_iff.mp hd).1
  rw [show List.find? _ s.declarations = some id from hfound, Option.bind_some, Array.getElem?_append_left hlt,
    Array.getElem?_eq_getElem hlt] at hentry
  simp only [applyPlan]
  rw [show List.find? (fun e : DeclId × Decl => e.2.isMethod && e.2.name == plan.entry) _ = _ from hentry]
  rfl

theorem isMethodNamed_planMethod (plan : EntryPlan) (name : String) (d : Decl) :
    (planMethod vars plan d).isMethodNamed name = d.isMethodNamed name := by
  rw [planMethod]
  split
  · next hkind => simp [Decl.isMethodNamed, Decl.isMethod, hkind]
  · rfl

section

variable {plan : EntryPlan} {id : DeclId} (ids : List DeclId) (hid : s.methodId? plan.entry = some id)

include hid

theorem table_applyPlan_of_lt {i : DeclId} (hi : i < s.table.size) (hne : i ≠ id) :
    (applyPlan vars (s, ids) plan).1.table[i]? = s.table[i]? := by
  rw [applyPlan_eq ids hid, Array.getElem?_modify, if_neg hne.symm, Array.getElem?_append_left hi]

theorem table_applyPlan_entry {d : Decl} (hd : s.table[id]? = some d) :
    (applyPlan vars (s, ids) plan).1.table[id]? = some (planMethod vars plan d) := by
  have hlt := (Array.getElem?_eq_some_iff.mp hd).1
  rw [applyPlan_eq ids hid, Array.getElem?_modify, if_pos rfl, Array.getElem?_append_left hlt, hd]
  rfl

theorem table_applyPlan_made {i : Nat} {d : Decl} (hd : (planStructs vars plan)[i]? = some d) :
    (applyPlan vars (s, ids) plan).1.table[s.table.size + i]? = some d := by
  obtain ⟨-, d', hd', -⟩ := Shader.methodId?_spec hid
  have hlt := (Array.getElem?_eq_some_iff.mp hd').1
  rw [applyPlan_eq ids hid, Array.getElem?_modify, if_neg (by omega),
    Array.getElem?_append_right (Nat.le_add_right ..)]
  simpa using hd

theorem size_applyPlan :
    (applyPlan vars (s, ids) plan).1.table.size = s.table.size + (planStructs vars plan).length := by
  rw [applyPlan_eq ids hid]
  simp

theorem methodId?_applyPlan (name : String) : (applyPlan vars (s, ids) plan).1.methodId? name = s.methodId? name := by
  rw [Shader.methodId?, applyPlan_eq ids hid]
  congr 1
  funext i
  refine Eq.trans ?_ (any_append_planStructs vars plan name i)
  rw [Array.getElem?_modify]
  split
  · rw [Option.any_map]
    congr 1
    funext d
    exact isMethodNamed_planMethod plan name d
  · rfl

end

/-! ## What the stages exchange -/

def HasFields (vars : List StreamVar) (d : Decl) (name : String) (streams : List Nat) : Prop :=
  d.name = name ∧ ∃ fields, d.kind = .struct fields ∧
    List.Forall₂ (fun k f => ∃ v, vars[k]? = some v ∧ f.name = v.field ∧ f.type = v.type) streams fields

def CopiesInput (vars : List StreamVar) (k : Nat) (s : Stmt) : Prop :=
  ∃ v, vars[k]? = some v ∧ s = .simple Stmt.generatedLead (.expr (.assign .generated none
    (.ident .generated v.global) (.member .generated (.ident .generated "__input__") v.field)))

theorem forall₂_pick {β : Type} (f : StreamVar → β) (h : ∀ k ∈ streams, k < vars.length) :
    List.Forall₂ (fun k b => ∃ v, vars[k]? = some v ∧ b = f v) streams ((pick vars streams).map f) := by
  induction streams with
  | nil => exact .nil
  | cons k streams ih =>
    have hlt : k < vars.length := h k mem_cons_self
    have hk : vars[k]? = some vars[k] := getElem?_eq_getElem hlt
    rw [pick, filterMap_cons_some hk]
    exact .cons ⟨_, hk, rfl⟩ (ih fun j hj => h j (mem_cons_of_mem _ hj))

theorem holds_structDecl (generate : Bool) (h : ∀ k ∈ streams, k < vars.length) :
    HasFields vars (structDecl vars generate ⟨name, streams⟩) name streams := by
  refine ⟨rfl, _, rfl, (forall₂_pick (StreamVar.toField · generate) h).imp ?_⟩
  rintro k f ⟨v, hv, rfl⟩
  exact ⟨v, hv, rfl, rfl⟩

/-- The structures between the stages fit what the stages use. -/
structure StagesAgree (vars : List StreamVar) (vs ps : Usage) (vsIn vsOut psOut : List Nat) : Prop where
  fed : ∀ k ∈ ps.inputs, k ∈ vsOut
  used : ∀ k ∈ vsOut, k ∈ ps.inputs ∨ ∃ v semantic, vars[k]? = some v ∧ v.semantic = some semantic ∧
    upperCase semantic = "SV_POSITION"
  available : ∀ k ∈ vsOut, k ∈ vs.outputs ∨ k ∈ vsIn
  once : vsIn.Nodup ∧ vsOut.Nodup ∧ psOut.Nodup
  targets : ∀ k ∈ psOut, ∃ v semantic, vars[k]? = some v ∧ v.semantic = some semantic ∧
    ((upperCase semantic).startsWith "SV_TARGET" = true ∨ (upperCase semantic).startsWith "SV_DEPTH" = true ∨
      upperCase semantic = "SV_COVERAGE")

theorem exists_semantic {p : String → Bool} (hp : p "" = false) {k : Nat}
    (h : (vars[k]?).any (fun v => p v.upperSemantic) = true) :
    ∃ v semantic, vars[k]? = some v ∧ v.semantic = some semantic ∧ p (upperCase semantic) = true := by
  cases hv : vars[k]? with
  | none => simp [hv] at h
  | some v =>
    rw [hv, Option.any_some, StreamVar.upperSemantic] at h
    cases hsemantic : v.semantic with
    | none =>
      rw [hsemantic, Option.map_none, Option.getD_none, hp] at h
      cases h
    | some semantic =>
      rw [hsemantic] at h
      exact ⟨v, semantic, rfl, hsemantic, h⟩

theorem tidy_streams (vars : List StreamVar) (entry : String) :
    (usageOf s (streamIndex vars) entry).Tidy (· < vars.length) (· < vars.length) :=
  tidy_usageOf (fun _ => lt_of_lookup_streamIndex) fun _ _ => lt_of_lookup_streamIndex

section

variable {vs ps : Usage} {P : Nat → Prop}

theorem mem_feed_outputs {k : Nat} : k ∈ (feed vars vs ps).outputs ↔
    (k ∈ vs.outputs ∨ k ∈ ps.inputs) ∧ (k ∈ ps.inputs ∨ (vars[k]?).any StreamVar.isPosition = true) := by
  simp only [feed, mem_filter, mem_append, Bool.not_eq_true', Bool.or_eq_true, contains_eq_mem,
    decide_eq_true_eq, decide_eq_false_iff_not]
  tauto

theorem mem_feed_inputs {k : Nat} : k ∈ (feed vars vs ps).inputs ↔
    k ∈ vs.inputs ∨ k ∈ ps.inputs ∧ k ∉ vs.outputs := by
  simp only [feed, mem_filter, mem_append, Bool.not_eq_true', contains_eq_mem, decide_eq_false_iff_not]
  tauto

theorem Usage.Tidy.feed (hvs : vs.Tidy P P) (hps : ps.Tidy P P) (vars : List StreamVar) :
    (feed vars vs ps).Tidy P P := by
  have hfresh : ∀ {xs ys : List Nat}, ∀ k ∈ xs, ∀ j ∈ ys.filter (fun s => !xs.contains s), k ≠ j := by
    rintro xs ys k hk _ hj rfl
    simp [hk] at hj
  refine ⟨nodup_append.mpr ⟨hvs.inputs_nodup, (hps.inputs_nodup.filter _).filter _, hfresh⟩,
    (nodup_append.mpr ⟨hvs.outputs_nodup, hps.inputs_nodup.filter _, hfresh⟩).filter _, fun k hk => ?_, fun k hk => ?_⟩
  · exact (mem_feed_inputs.mp hk).elim (hvs.inputs k) fun h => hps.inputs k h.1
  · exact (mem_feed_outputs.mp hk).1.elim (hvs.outputs k) (hps.inputs k)

theorem Usage.Tidy.pixelUsage (h : ps.Tidy P P) (vars : List StreamVar) : (pixelUsage vars ps).Tidy P P :=
  ⟨h.inputs_nodup, h.outputs_nodup.filter _, h.inputs, fun k hk => h.outputs k (mem_of_mem_filter hk)⟩

theorem feed_agrees (hvs : vs.Tidy P P) (hps : ps.Tidy P P) {psOut : List Nat}
    (hpsOut : psOut.Sublist (pixelUsage vars ps).outputs) :
    StagesAgree vars vs ps (feed vars vs (pixelUsage vars ps)).inputs
      (feed vars vs (pixelUsage vars ps)).outputs psOut := by
  have hpixel := hps.pixelUsage vars
  have hfed := hvs.feed hpixel vars
  refine ⟨fun k hk => ?_, fun k hk => ?_, fun k hk => ?_,
    ⟨hfed.inputs_nodup, hfed.outputs_nodup, hpixel.outputs_nodup.sublist hpsOut⟩, fun k hk => ?_⟩
  · exact mem_feed_outputs.mpr ⟨.inr hk, .inl hk⟩
  · refine (mem_feed_outputs.mp hk).2.imp_right fun hposition => ?_
    obtain ⟨v, semantic, hv, hsemantic, heq⟩ :=
      exists_semantic (p := fun semantic => semantic == "SV_POSITION") (by decide) hposition
    exact ⟨v, semantic, hv, hsemantic, by simpa using heq⟩
  · by_cases hwritten : k ∈ vs.outputs
    · exact .inl hwritten
    · have hread := (mem_feed_outputs.mp hk).1.resolve_left hwritten
      exact .inr (mem_feed_inputs.mpr (.inr ⟨hread, hwritten⟩))
  · have htarget := (mem_filter.mp (hpsOut.mem hk)).2
    obtain ⟨v, semantic, hv, hsemantic, heq⟩ := exists_semantic (p := fun semantic =>
      semantic.startsWith "SV_TARGET" || semantic.startsWith "SV_DEPTH" || semantic == "SV_COVERAGE")
      (by decide +kernel) htarget
    refine ⟨v, semantic, hv, hsemantic, ?_⟩
    simpa [Bool.or_eq_true, or_assoc] using heq

end

/-! ## A shader with both stages -/

theorem mem_streamVars {v : StreamVar} (h : v ∈ streamVars s) :
    ∃ d, s.table[v.id]? = some d ∧ d.isMethod = false := by
  obtain ⟨⟨id, d⟩, hentry, hv⟩ := mem_filterMap.mp h
  have htable := (Shader.mem_entries.mp hentry).2
  dsimp only at hv
  split at hv
  · next hkind =>
    split at hv
    · cases hv
      exact ⟨d, htable, by simp [Decl.isMethod, hkind]⟩
    · cases hv
  · cases hv

def planned (s : Shader) (entries : EntryPoints) : List EntryPlan :=
  if (streamVars s).isEmpty || !(unsupportedStages.filter fun stage => (entries.get? stage).isSome).isEmpty then []
  else (plans s (streamVars s) entries).1

theorem planned_eq {entries : EntryPoints} (hvars : streamVars s ≠ [])
    (hstages : ∀ stage ∈ unsupportedStages, entries.get? stage = none) :
    planned s entries = (plans s (streamVars s) entries).1 := by
  have hsupported : (unsupportedStages.filter fun stage => (entries.get? stage).isSome) = [] :=
    filter_eq_nil_iff.mpr fun stage hstage => by simp [hstages stage hstage]
  have hnot : (streamVars s).isEmpty = false := by simpa using hvars
  simp [planned, hsupported, hnot]

theorem create_eq (s : Shader) (entries : EntryPoints) :
    (create s entries).1 = ((streamVars s).map StreamVar.id).foldl (fun t id => t.modify id retire)
      ⟨((planned s entries).foldl (applyPlan (streamVars s)) (s, [])).1.table,
        ((planned s entries).foldl (applyPlan (streamVars s)) (s, [])).2 ++
          ((planned s entries).foldl (applyPlan (streamVars s)) (s, [])).1.declarations⟩ := by
  simp only [create, planned]
  split <;> rfl

theorem select_range' {structs : List Decl} {start : Nat} {t : Shader}
    (h : ∀ i d, structs[i]? = some d → t.table[start + i]? = some d) :
    t.select (List.range' start structs.length) = structs := by
  induction structs generalizing start with
  | nil => rfl
  | cons d structs ih =>
    have hd : t.table[start]? = some d := h 0 d rfl
    rw [length_cons, range'_succ, Shader.select, filterMap_cons_some hd]
    refine congrArg _ (ih fun i d' hd' => ?_)
    rw [Nat.add_assoc, Nat.add_comm 1 i]
    exact h (i + 1) d' hd'

structure Carried (vars : List StreamVar) (s : Shader) (ps : List EntryPlan) (t : Shader × List DeclId) : Prop where
  declarations : t.1.declarations = s.declarations
  ids : t.2 = List.range' s.table.size (ps.flatMap (planStructs vars)).length
  size : t.1.table.size = s.table.size + (ps.flatMap (planStructs vars)).length
  methodId : ∀ name, t.1.methodId? name = s.methodId? name
  made : ∀ i d, (ps.flatMap (planStructs vars))[i]? = some d → t.1.table[s.table.size + i]? = some d
  entry : ∀ plan ∈ ps, ∀ id d, s.methodId? plan.entry = some id → s.table[id]? = some d →
    t.1.table[id]? = some (planMethod vars plan d)
  kept : ∀ id < s.table.size, (∀ plan ∈ ps, s.methodId? plan.entry ≠ some id) → t.1.table[id]? = s.table[id]?

theorem Carried.step {ps : List EntryPlan} {t : Shader × List DeclId} {id : DeclId} (h : Carried vars s ps t)
    (hid : s.methodId? plan.entry = some id) (hnew : ∀ p ∈ ps, s.methodId? p.entry ≠ some id) :
    Carried vars s (ps ++ [plan]) (applyPlan vars t plan) := by
  obtain ⟨t, ids⟩ := t
  have hid' : t.methodId? plan.entry = some id := (h.methodId _).trans hid
  obtain ⟨-, d, hd, -⟩ := Shader.methodId?_spec hid
  have hlt : id < s.table.size := (Array.getElem?_eq_some_iff.mp hd).1
  have hids : ids = List.range' s.table.size (ps.flatMap (planStructs vars)).length := h.ids
  have hsize : t.table.size = s.table.size + (ps.flatMap (planStructs vars)).length := h.size
  have hbelow : ∀ i < s.table.size, i < t.table.size := fun i hi => by omega
  constructor
  · rw [applyPlan_eq ids hid']
    exact h.declarations
  · rw [applyPlan_eq ids hid', hids, hsize]
    simp [range'_append_1]
  · rw [size_applyPlan ids hid', hsize]
    simp [Nat.add_assoc]
  · exact fun name => (methodId?_applyPlan ids hid' name).trans (h.methodId name)
  · intro i d hi
    rw [flatMap_append, flatMap_singleton] at hi
    rcases Nat.lt_or_ge i (ps.flatMap (planStructs vars)).length with hlow | hhigh
    · rw [getElem?_append_left hlow] at hi
      have hother : s.table.size + i ≠ id := Nat.ne_of_gt (Nat.lt_of_lt_of_le hlt (Nat.le_add_right ..))
      rw [table_applyPlan_of_lt ids hid' (hsize ▸ Nat.add_lt_add_left hlow _) hother]
      exact h.made i d hi
    · rw [getElem?_append_right hhigh] at hi
      have hplace : s.table.size + i = t.table.size + (i - (ps.flatMap (planStructs vars)).length) := by omega
      rw [hplace]
      exact table_applyPlan_made ids hid' hi
  · intro p hp i d hi htable
    have hi' : i < s.table.size := (Array.getElem?_eq_some_iff.mp htable).1
    rcases mem_append.mp hp with hp | hp
    · have hne : i ≠ id := fun heq => hnew p hp (heq ▸ hi)
      rw [table_applyPlan_of_lt ids hid' (hbelow i hi') hne]
      exact h.entry p hp i d hi htable
    · cases mem_singleton.mp hp
      cases hid.symm.trans hi
      exact table_applyPlan_entry ids hid' ((h.kept id hlt hnew).trans htable)
  · intro i hi hother
    obtain ⟨hps, hplan⟩ := forall_mem_append.mp hother
    have hne : i ≠ id := fun heq => hplan plan mem_cons_self (heq ▸ hid)
    rw [table_applyPlan_of_lt ids hid' (hbelow i hi) hne]
    exact h.kept i hi hps

theorem carried_foldl {ps : List EntryPlan} (hfound : ∀ plan ∈ ps, (s.methodId? plan.entry).isSome)
    (hnodup : (ps.map EntryPlan.entry).Nodup) : Carried vars s ps (ps.foldl (applyPlan vars) (s, [])) := by
  induction ps using List.reverseRecOn with
  | nil => exact ⟨rfl, rfl, rfl, fun _ => rfl, by simp, by simp, fun _ _ _ => rfl⟩
  | append_singleton ps plan ih =>
    obtain ⟨hfound, hplan⟩ := forall_mem_append.mp hfound
    obtain ⟨id, hid⟩ := Option.isSome_iff_exists.mp (hplan plan mem_cons_self)
    rw [map_append, nodup_append] at hnodup
    rw [foldl_append]
    refine (ih hfound hnodup.1).step hid fun p hp hsame => ?_
    obtain ⟨-, d, hd, -, hname⟩ := Shader.methodId?_spec hid
    obtain ⟨-, d', hd', -, hname'⟩ := Shader.methodId?_spec hsame
    rw [hd] at hd'
    cases hd'
    exact hnodup.2.2 _ (mem_map_of_mem hp) _ (by simp) (hname'.symm.trans hname)

theorem create_spec {entries : EntryPoints} (hfound : ∀ plan ∈ planned s entries, (s.methodId? plan.entry).isSome)
    (hnodup : ((planned s entries).map EntryPlan.entry).Nodup) :
    ∃ ids, (create s entries).1.declarations = ids ++ s.declarations ∧
      (create s entries).1.select ids = (planned s entries).flatMap (planStructs (streamVars s)) ∧
      (∀ plan ∈ planned s entries, ∀ id d, s.methodId? plan.entry = some id → s.table[id]? = some d →
        (create s entries).1.table[id]? = some (planMethod (streamVars s) plan d)) ∧
      ∀ id d, s.table[id]? = some d → (∀ plan ∈ planned s entries, s.methodId? plan.entry ≠ some id) →
        (∀ v ∈ streamVars s, v.id ≠ id) → (create s entries).1.table[id]? = some d := by
  have hcarried : Carried (streamVars s) s (planned s entries) _ := carried_foldl hfound hnodup
  have hkept : ∀ id, (∀ v ∈ streamVars s, v.id ≠ id) → (create s entries).1.table[id]? =
      ((planned s entries).foldl (applyPlan (streamVars s)) (s, [])).1.table[id]? := by
    intro id hid
    rw [create_eq, Shader.table_foldl_modify retire]
    rintro hmem
    obtain ⟨v, hv, hv'⟩ := mem_map.mp hmem
    exact hid v hv hv'
  refine ⟨List.range' s.table.size _, ?_, select_range' fun i d hd => ?_, fun plan hplan id d hid hd => ?_,
    fun id d hd hplans hvars => ?_⟩
  · rw [create_eq, Shader.declarations_foldl_modify, hcarried.declarations, hcarried.ids]
  · rw [hkept]
    · exact hcarried.made i d hd
    · intro v hv heq
      obtain ⟨d', hd', -⟩ := mem_streamVars hv
      exact Nat.not_lt.mpr (Nat.le_add_right ..) (heq ▸ (Array.getElem?_eq_some_iff.mp hd').1)
  · rw [hkept]
    · exact hcarried.entry plan hplan id d hid hd
    · rintro v hv rfl
      obtain ⟨d', hd', hvar⟩ := mem_streamVars hv
      obtain ⟨-, d'', hd'', hmethod, -⟩ := Shader.methodId?_spec hid
      rw [hd'] at hd''
      cases hd''
      cases hvar.symm.trans hmethod
  · rw [hkept id hvars]
    exact (hcarried.kept id (Array.getElem?_eq_some_iff.mp hd).1 hplans).trans hd

theorem hasFields_make? (generate : Bool) (h : ∀ k ∈ streams, k < vars.length) :
    List.Forall₂ (fun d p => HasFields vars d p.1 p.2)
      ((StreamStruct.make? name streams).toList.map (structDecl vars generate))
      ([(name, streams)].filter fun p => !p.2.isEmpty) := by
  cases streams with
  | nil => exact .nil
  | cons k streams => exact .cons (holds_structDecl generate h) .nil

theorem planBody_eq (vars : List StreamVar) (plan : EntryPlan) (body : List Stmt) : planBody vars plan body =
      (plan.input.map (loadInput vars)).getD [] ++ planBody vars { plan with input := none } body := by
  cases houtput : plan.output <;> simp [planBody, houtput]

theorem copies_loadInput (h : ∀ k ∈ streams, k < vars.length) : List.Forall₂ (CopiesInput vars) streams
      (((StreamStruct.make? name streams).map (loadInput vars)).getD []) := by
  cases streams with
  | nil => exact .nil
  | cons k streams => exact forall₂_pick _ h

theorem planMethod_input {returns : TypeRef} {params : List Param} {semantic : Option String}
    {body : List Stmt} (hkind : d.kind = .method returns params semantic (some body))
    (hinput : plan.input = StreamStruct.make? name streams) (h : ∀ k ∈ streams, k < vars.length) :
    (planMethod vars plan d).isMethod = true ∧ (planMethod vars plan d).name = d.name ∧
      (planMethod vars plan d).params? = some (params ++ if streams = [] then [] else
        [{ name := "__input__", type := { name := name }, loc := .generated }]) ∧
      ∃ copies, (planMethod vars plan d).body? = some (copies ++ planBody vars { plan with input := none } body) ∧
        List.Forall₂ (CopiesInput vars) streams copies := by
  have hbody := planBody_eq vars plan body
  simp only [planMethod, hkind, hinput, Decl.isMethod, hbody, true_and]
  refine ⟨?_, _, rfl, copies_loadInput h⟩
  cases streams <;> rfl

section

variable {vertex pixel : Decl} (hnames : (s.methods.map Decl.name).Nodup)
  (hvertex : s.methods.find? (fun m => m.entry == some .vertex) = some vertex)
  (hpixel : s.methods.find? (fun m => m.entry == some .pixel) = some pixel)
  (hothers : ∀ m ∈ s.methods, ∀ stage, m.entry = some stage → stage = .vertex ∨ stage = .pixel)

include hothers in
theorem entryOf?_eq_none {stage : Stage} (hv : stage ≠ .vertex) (hp : stage ≠ .pixel) : s.entryOf? stage = none := by
  refine Option.map_eq_none_iff.mpr (find?_eq_none.mpr fun m hm hentry => ?_)
  rcases hothers m hm stage (by simpa using hentry) with h | h
  · exact hv h
  · exact hp h

include hnames hvertex hpixel in
theorem vertex_ne_pixel : vertex.name ≠ pixel.name := by
  intro hname
  have hsame := Shader.eq_of_name hnames (mem_of_find?_eq_some hvertex) (mem_of_find?_eq_some hpixel) hname
  have hv : vertex.entry = some .vertex := by simpa using find?_some hvertex
  have hp : pixel.entry = some .pixel := by simpa using find?_some hpixel
  rw [hsame, hp] at hv
  cases hv

include hvertex hpixel hothers in
theorem plans_eq (vars : List StreamVar) : (plans s vars s.entryPoints).1 =
    [planVertex s vertex.name (feed vars (usageOf s (streamIndex vars) vertex.name)
        (pixelUsage vars (usageOf s (streamIndex vars) pixel.name))),
      planPixel s pixel.name (pixelUsage vars (usageOf s (streamIndex vars) pixel.name))
        (planVertex s vertex.name (feed vars (usageOf s (streamIndex vars) vertex.name)
          (pixelUsage vars (usageOf s (streamIndex vars) pixel.name)))).output] := by
  have hcompute : s.entryOf? .compute = none := entryOf?_eq_none hothers (by decide) (by decide)
  have hget := Shader.get?_entryPoints hcompute
  have hv : s.entryPoints.get? .vertex = some vertex.name := by
    rw [hget, Shader.entryOf?, hvertex]
    rfl
  have hp : s.entryPoints.get? .pixel = some pixel.name := by
    rw [hget, Shader.entryOf?, hpixel]
    rfl
  simp only [plans, hget .compute, hcompute, Option.map_none, hv, hp]

theorem planStructs_planVertex {entry : String} {u : Usage} (hvoid : returnsVoid s entry = true) :
    planStructs vars (planVertex s entry u) =
      (StreamStruct.make? "VS_INPUT" u.inputs).toList.map (structDecl vars true) ++
        (StreamStruct.make? "VS_OUTPUT" u.outputs).toList.map (structDecl vars true) := by
  simp [planStructs, planVertex, outputStruct?, hvoid]

theorem planPixel_input (entry name : String) {u : Usage} {streams : List Nat} (h : ∀ k ∈ u.inputs, k ∈ streams) :
    (planPixel s entry u (StreamStruct.make? name streams)).input = StreamStruct.make? name streams := by
  cases streams with
  | nil =>
    have hnil : u.inputs = [] := eq_nil_iff_forall_not_mem.mpr fun k hk => absurd (h k hk) not_mem_nil
    simp [planPixel, StreamStruct.make?, hnil]
  | cons k streams => rfl

theorem planStructs_planPixel (entry name : String) {u : Usage} {streams : List Nat}
    (h : ∀ k ∈ u.inputs, k ∈ streams) : ∃ psOut, psOut.Sublist u.outputs ∧
      planStructs vars (planPixel s entry u (StreamStruct.make? name streams)) =
        (StreamStruct.make? "PS_OUTPUT" psOut).toList.map (structDecl vars false) := by
  have hinput : (if (planPixel s entry u (StreamStruct.make? name streams)).sharedInput then []
      else (planPixel s entry u (StreamStruct.make? name streams)).input.toList.map (structDecl vars true)) = [] := by
    rw [planPixel_input entry name h]
    cases streams <;> rfl
  by_cases hvoid : returnsVoid s entry = true
  · refine ⟨u.outputs, .refl _, ?_⟩
    rw [planStructs, hinput]
    simp [planPixel, outputStruct?, hvoid]
  · refine ⟨[], nil_sublist _, ?_⟩
    rw [planStructs, hinput]
    simp [planPixel, outputStruct?, hvoid, StreamStruct.make?]

/-- The pixel stage takes what the vertex stage puts out, and copies its streams before anything
else. -/
theorem stages_agree {vreturns preturns : TypeRef} {vparams pparams : List Param}
    {vsemantic psemantic : Option String} {vbody pbody : List Stmt} (hstreams : streamVars s ≠ [])
    (hnames : (s.methods.map Decl.name).Nodup)
    (hvertex : s.methods.find? (fun m => m.entry == some .vertex) = some vertex)
    (hpixel : s.methods.find? (fun m => m.entry == some .pixel) = some pixel)
    (hothers : ∀ m ∈ s.methods, ∀ stage, m.entry = some stage → stage = .vertex ∨ stage = .pixel)
    (hvkind : vertex.kind = .method vreturns vparams vsemantic (some vbody)) (hvoid : vreturns.isVoid = true)
    (hpkind : pixel.kind = .method preturns pparams psemantic (some pbody)) :
    ∃ vsIn vsOut psOut ids,
      StagesAgree (streamVars s) (usageOf s (streamIndex (streamVars s)) vertex.name)
        (usageOf s (streamIndex (streamVars s)) pixel.name) vsIn vsOut psOut ∧
      (create s s.entryPoints).1.declarations = ids ++ s.declarations ∧
      List.Forall₂ (fun d p => HasFields (streamVars s) d p.1 p.2) ((create s s.entryPoints).1.select ids)
        ([("VS_INPUT", vsIn), ("VS_OUTPUT", vsOut), ("PS_OUTPUT", psOut)].filter fun p => !p.2.isEmpty) ∧
      ∃ entry plan copies, entry ∈ (create s s.entryPoints).1.methods ∧ entry.name = pixel.name ∧
        entry.params? = some (pparams ++ if vsOut = [] then [] else
          [{ name := "__input__", type := { name := "VS_OUTPUT" }, loc := .generated }]) ∧
        entry.body? = some (copies ++ planBody (streamVars s) plan pbody) ∧ plan.input = none ∧
        List.Forall₂ (CopiesInput (streamVars s)) vsOut copies := by
  have hv := List.mem_of_find?_eq_some hvertex
  have hp := List.mem_of_find?_eq_some hpixel
  obtain ⟨i, hi, -, -⟩ := Shader.methodId?_of_mem hnames hv
  obtain ⟨j, hj, hmem, hptable⟩ := Shader.methodId?_of_mem hnames hp
  have hvoid' : returnsVoid s vertex.name = true := by
    simp [returnsVoid, Shader.find?_methods hnames hv, hvkind, hvoid]
  obtain ⟨vars, hvars⟩ : ∃ vars, vars = streamVars s := ⟨_, rfl⟩
  have hplans := plans_eq hvertex hpixel hothers vars
  have hvs := tidy_streams (s := s) vars vertex.name
  have hps := tidy_streams (s := s) vars pixel.name
  rw [← hvars]
  generalize usageOf s (streamIndex vars) vertex.name = vs at hplans hvs ⊢
  generalize usageOf s (streamIndex vars) pixel.name = ps at hplans hps ⊢
  obtain ⟨fed, hfed⟩ : ∃ fed, fed = feed vars vs (pixelUsage vars ps) := ⟨_, rfl⟩
  have hread : ∀ k ∈ (pixelUsage vars ps).inputs, k ∈ fed.outputs :=
    fun k hk => hfed ▸ mem_feed_outputs.mpr ⟨Or.inr hk, Or.inl hk⟩
  have houtput : (planVertex s vertex.name fed).output = StreamStruct.make? "VS_OUTPUT" fed.outputs := by
    simp [planVertex, outputStruct?, hvoid']
  rw [← hfed, houtput] at hplans
  obtain ⟨psOut, hpsOut, hsecond⟩ : ∃ psOut, psOut.Sublist (pixelUsage vars ps).outputs ∧
      planStructs vars (planPixel s pixel.name (pixelUsage vars ps)
        (StreamStruct.make? "VS_OUTPUT" fed.outputs)) =
          (StreamStruct.make? "PS_OUTPUT" psOut).toList.map (structDecl vars false) :=
    planStructs_planPixel pixel.name "VS_OUTPUT" hread
  have hagree := feed_agrees hvs hps hpsOut
  rw [← hfed] at hagree
  have hwithin : fed.Tidy (· < vars.length) (· < vars.length) := hfed ▸ hvs.feed (hps.pixelUsage vars) vars
  have htarget : ∀ k ∈ psOut, k < vars.length :=
    fun k hk => hps.outputs k (List.mem_of_mem_filter (hpsOut.mem hk))
  have hstages : ∀ stage ∈ unsupportedStages, s.entryPoints.get? stage = none := by
    intro stage hstage
    have hnot : stage ≠ .vertex ∧ stage ≠ .pixel := by
      constructor <;> rintro rfl <;> exact absurd hstage (by decide)
    rw [Shader.get?_entryPoints (entryOf?_eq_none hothers (by decide) (by decide)),
      entryOf?_eq_none hothers hnot.1 hnot.2]
    rfl
  subst hvars
  rw [← planned_eq hstreams hstages] at hplans
  have hfound : ∀ plan ∈ planned s s.entryPoints, (s.methodId? plan.entry).isSome := by
    rw [hplans]
    simp [planVertex, planPixel, hi, hj]
  obtain ⟨ids, hdeclarations, hselect, hentry, -⟩ := create_spec hfound (by
    rw [hplans]
    simpa [planVertex, planPixel] using vertex_ne_pixel hnames hvertex hpixel)
  rw [hplans] at hselect hentry
  have htable := hentry _ (List.mem_cons_of_mem _ List.mem_cons_self) j pixel hj hptable
  obtain ⟨hmethod', hname, hparams, copies, hbody, hcopies⟩ :=
    planMethod_input hpkind (planPixel_input pixel.name "VS_OUTPUT" hread) hwithin.outputs
  refine ⟨fed.inputs, fed.outputs, psOut, ids, hagree, hdeclarations, ?_, _, _, copies,
    Shader.mem_methods_iff.mpr ⟨hmethod', j, ?_, htable⟩, hname, hparams, hbody, rfl, hcopies⟩
  · rw [hselect, List.flatMap_cons, List.flatMap_singleton, hsecond, planStructs_planVertex hvoid',
      show [("VS_INPUT", fed.inputs), ("VS_OUTPUT", fed.outputs), ("PS_OUTPUT", psOut)] =
        [("VS_INPUT", fed.inputs)] ++ [("VS_OUTPUT", fed.outputs)] ++ [("PS_OUTPUT", psOut)] from rfl,
      List.filter_append, List.filter_append]
    exact List.rel_append (List.rel_append (hasFields_make? true hwithin.inputs) (hasFields_make? true hwithin.outputs))
      (hasFields_make? false htarget)
  · rw [hdeclarations]
    exact List.mem_append_right _ hmem

end

def lampShader : Shader where
  table := #[
    { name := "streams_Position", loc := .generated, quals := { stream := true }
      kind := .var { name := "float4" } (some "sv_position") none },
    { name := "streams_Light", loc := .generated, quals := { stream := true }
      kind := .var { name := "float" } none none },
    { name := "streams_Color", loc := .generated, quals := { stream := true }
      kind := .var { name := "float4" } (some "SV_Target0") none },
    { name := "VS", loc := .generated, entry := some .vertex
      kind := .method { name := "void" } [] none
        (some [assignStmt (nameExpr "streams_Position") (nameExpr "streams_Light")]) },
    { name := "PS", loc := .generated, entry := some .pixel
      kind := .method { name := "void" } [] none
        (some [assignStmt (nameExpr "streams_Color") (nameExpr "streams_Light")]) }]
  declarations := [0, 1, 2, 3, 4]

theorem lamp_stages_agree :
    (create lampShader lampShader.entryPoints).1.decls.map Decl.name =
      ["VS_INPUT", "VS_OUTPUT", "PS_OUTPUT", "streams_Position", "streams_Light", "streams_Color", "VS", "PS"] ∧
    ∃ vsIn vsOut psOut, StagesAgree (streamVars lampShader)
      (usageOf lampShader (streamIndex (streamVars lampShader)) "VS")
      (usageOf lampShader (streamIndex (streamVars lampShader)) "PS") vsIn vsOut psOut := by
  have hothers : ∀ m ∈ lampShader.methods, ∀ stage, m.entry = some stage → stage = .vertex ∨ stage = .pixel := by
    have hentries : ∀ m ∈ lampShader.methods, m.entry = some .vertex ∨ m.entry = some .pixel := by decide +kernel
    intro m hm stage hstage
    exact (hentries m hm).imp (fun h => Option.some.inj (hstage.symm.trans h))
      fun h => Option.some.inj (hstage.symm.trans h)
  have hstreams : streamVars lampShader ≠ [] := fun hnil => absurd (congrArg List.length hnil) (by decide +kernel)
  obtain ⟨vsIn, vsOut, psOut, ids, hagree, -⟩ :=
    stages_agree hstreams (by decide +kernel) rfl rfl hothers rfl rfl rfl
  exact ⟨by decide +kernel, vsIn, vsOut, psOut, hagree⟩

end Stream

end ShaderCompose
