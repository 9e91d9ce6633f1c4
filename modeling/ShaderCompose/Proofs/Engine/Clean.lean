import ShaderCompose.Proofs.Engine.Calls
import ShaderCompose.Proofs.Engine.Loops
import ShaderCompose.Proofs.Shader.Clean

/-!
No syntax of mixing is left in compiled shaders.
-/

namespace ShaderCompose

open List

namespace Mix

variable {builtins : List Module} {instances : List MixInstance} {refs : List BuiltinRef} {o : Offer}

/-! ## What declarations are made of -/

theorem mem_table_of_offered (h : o ∈ offersOf builtins instances) :
    ∃ inst ∈ instances, ∃ cls ∈ inst.table.classes, ∃ id : DeclId, cls.table[id]? = some o.member.decl := by
  obtain ⟨m, hm, ho⟩ := mem_offersOf.mp h
  obtain ⟨number, inst, cls, ref, d, hinst, hcls, hd, rfl⟩ := mem_membersOf.mp hm
  refine ⟨inst, mem_of_getElem? hinst, cls, mem_of_getElem? hcls, ?_⟩
  have hown : cls.table[ref.decl]? = some d := (ShaderClass.mem_memberDecls.mp hd).2
  unfold Member.offers at ho
  split at ho
  · rw [mem_singleton.mp ho]
    exact ⟨_, hown⟩
  · rw [mem_singleton.mp ho]
    exact ⟨_, hown⟩
  · rw [mem_singleton.mp ho]
    exact ⟨_, hown⟩
  · rcases mem_cons.mp ho with rfl | ho
    · exact ⟨_, hown⟩
    · obtain ⟨id, -, hinner⟩ := mem_filterMap.mp ho
      obtain ⟨v, hv, rfl⟩ := Option.map_eq_some_iff.mp hinner
      exact ⟨id, hv⟩

theorem Offer.placed_loc (o : Offer) (es : List Offer) : (o.placed es).loc = o.member.decl.loc := by
  cases o <;> rfl

theorem Offer.placed_freeOf {k : MixinSyntax} (es : List Offer) (h : o.member.decl.FreeOf k) :
    (o.placed es).FreeOf k := by
  cases o with
  | «variable» m home => exact RenameEnv.decl_freeOf (d := (Offer.variable m home).source) m.env h _
  | method m => exact RenameEnv.decl_freeOf (d := (Offer.method m).source) m.env h _
  | struct m => exact h
  | buffer m kind => exact forall_mem_nil _

section

variable (hlog : (emit builtins instances).2.hasErrors = false) (hmixes : Mixes builtins instances refs)

include hlog hmixes

theorem table_emit_cases {i : DeclId} {x : Decl} (hx : (emit builtins instances).1.table[i]? = some x) :
    (∃ ref ∈ refs, builtinDecl? (builtinEnv builtins instances) ref = some x) ∨
      ∃ e ∈ entriesOf builtins instances, x = e.placed (entriesOf builtins instances) := by
  cases he : (entriesOf builtins instances)[i]? with
  | some e =>
    cases hx.symm.trans (getElem?_emit hlog he)
    exact .inr ⟨e, mem_of_getElem? he, rfl⟩
  | none =>
    -- what follows the entries in the table stands at the top level
    obtain ⟨-, more, hshader⟩ := emit_spec hlog
    have hmem : i ∈ (emit builtins instances).1.declarations := by
      have hlt := (Array.getElem?_eq_some_iff.mp hx).1
      have hle : (entriesOf builtins instances).length ≤ i := List.getElem?_eq_none_iff.mp he
      rw [hshader] at hlt ⊢
      refine mem_append_left _ (mem_range'_1.mpr ⟨hle, ?_⟩)
      simpa using hlt
    refine ((hmixes.decls x).mp (Shader.mem_decls.mpr ⟨i, hmem, hx⟩)).imp_right ?_
    rintro ⟨e, he, -, hsame⟩
    exact ⟨e, he, hsame⟩

theorem mem_decls_of_not_isVar (horderly : ∀ i ∈ instances, i.Orderly) {i : DeclId} {x : Decl}
    (hx : (emit builtins instances).1.table[i]? = some x) (hvar : x.isVar = false) :
    x ∈ (emit builtins instances).1.decls := by
  rcases table_emit_cases hlog hmixes hx with hbuiltin | ⟨e, he, rfl⟩
  · exact (hmixes.decls x).mpr (.inl hbuiltin)
  · refine (hmixes.decls _).mpr (.inr ⟨e, he, ?_, rfl⟩)
    have hfits := fits_of_offered horderly ((entries_sublist _).subset he)
    cases e with
    | «variable» m home => cases hvar.symm.trans (Offer.isVar_variable _ home hfits)
    | _ => rfl

theorem loopless_of_table (horderly : ∀ i ∈ instances, i.Orderly) {i : DeclId} {x : Decl}
    (hx : (emit builtins instances).1.table[i]? = some x) : (Node.decl x).Loopless := by
  cases hvar : x.isVar with
  | true =>
    obtain ⟨_, _, _, hkind⟩ := Decl.isVar_iff.mp hvar
    exact RenameEnv.loopless_of_not_isMethod (by simp [Decl.isMethod, hkind])
  | false => exact loopless_of_mem_decls hmixes horderly (mem_decls_of_not_isVar hlog hmixes horderly hx hvar)

end

section

variable (hlog : (emit [] instances).2.hasErrors = false)

include hlog

variable {x : Decl}

theorem entry_of_table {i : DeclId} (hx : (emit [] instances).1.table[i]? = some x) :
    ∃ e ∈ entriesOf [] instances, x = e.placed (entriesOf [] instances) := by
  obtain ⟨refs, hmixes⟩ := emit_mixes hlog
  refine (table_emit_cases hlog hmixes hx).resolve_left ?_
  rintro ⟨ref, href, -⟩
  obtain ⟨name, hname⟩ := hmixes.known ref href
  cases hname

theorem source_of_table {i : DeclId} (hx : (emit [] instances).1.table[i]? = some x) :
    ∃ inst ∈ instances, ∃ cls ∈ inst.table.classes, ∃ (id : DeclId) (d : Decl),
      cls.table[id]? = some d ∧ d.loc = x.loc ∧ ∀ k, d.FreeOf k → x.FreeOf k := by
  obtain ⟨e, he, rfl⟩ := entry_of_table hlog hx
  obtain ⟨inst, hinst, cls, hcls, id, hid⟩ := mem_table_of_offered ((entries_sublist _).subset he)
  exact ⟨inst, hinst, cls, hcls, id, _, hid, (Offer.placed_loc _ _).symm, fun _ h => Offer.placed_freeOf _ h⟩

theorem variable_of_table (horderly : ∀ i ∈ instances, i.Orderly) {i : DeclId}
    (hx : (emit [] instances).1.table[i]? = some x) (hvar : x.isVar = true) :
    ∃ number inst cls ref v, HasVariable instances number inst cls ref v ∧ v.isComposition = false ∧
      x.name = variableName inst.label cls v ∧ x.loc = v.loc := by
  obtain ⟨e, he, rfl⟩ := entry_of_table hlog hx
  have hoffer := (entries_sublist _).subset he
  obtain ⟨m, home, rfl⟩ := (Offer.placed_isVar (fits_of_offered horderly hoffer)).mp hvar
  obtain ⟨number, inst, cls, ref, v, hv, -, rfl⟩ := (variable_mem_offersOf [] horderly).mp hoffer
  obtain ⟨name, hname⟩ := Option.isSome_iff_exists.mp (name?_of_mem_entries he)
  have hnamed := Offer.made_name hname
  rw [Offer.name?] at hname
  split at hname
  · cases hname
  · next hown =>
    refine ⟨number, inst, cls, ref, v, hv, eq_false_of_ne_true hown, ?_, Offer.placed_loc _ _⟩
    exact hnamed.trans (Option.some.inj hname).symm

theorem body_of_entry (horderly : ∀ i ∈ instances, i.Orderly) (hx : x ∈ (emit [] instances).1.decls)
    (hmethod : x.isMethod = true) {stage : Stage} (hentry : x.entry = some stage) : x.body?.isSome = true := by
  obtain ⟨id, -, hx⟩ := Shader.mem_decls.mp hx
  obtain ⟨e, he, rfl⟩ := entry_of_table hlog hx
  have hoffer := (entries_sublist _).subset he
  obtain ⟨m, rfl⟩ := (Offer.placed_isMethod (fits_of_offered horderly hoffer)).mp hmethod
  have hcomplete := (emit_spec hlog).1.complete _ hoffer
  have hname : m.methodName?.isSome = true := name?_of_mem_entries he
  -- the mark is that of a final implementation, and these are complete
  have hfinal : m.isFinal = true := by
    have hmark : m.entry? = some stage := hentry
    unfold Member.isFinal
    obtain ⟨slot, hslot, hmark⟩ := Option.bind_eq_some_iff.mp hmark
    rw [hslot]
    split at hmark
    · next hlast => simpa using hlast
    · cases hmark
  rw [Offer.body?_method]
  simpa [Offer.isComplete, hfinal, Option.isSome_iff_ne_none.mp hname] using hcomplete

end

end Mix

theorem Shader.exists_of_mem_entryPoints {s : Shader} {entry : Stage × String} (h : entry ∈ s.entryPoints) :
    ∃ d ∈ s.decls, d.isMethod = true ∧ d.entry = some entry.1 ∧ d.name = entry.2 := by
  have hentry : ∃ stage, s.entryOf? stage = some entry := by
    unfold entryPoints at h
    split at h
    · next found hfound => exact ⟨_, hfound.trans (congrArg some (mem_singleton.mp h).symm)⟩
    · obtain ⟨stage, -, hstage⟩ := mem_filterMap.mp h
      exact ⟨stage, hstage⟩
  obtain ⟨stage, hstage⟩ := hentry
  obtain ⟨d, hfound, rfl⟩ := Option.map_eq_some_iff.mp hstage
  obtain ⟨hd, hmethod⟩ := mem_filter.mp (mem_of_find?_eq_some hfound)
  exact ⟨d, hd, hmethod, by simpa using find?_some hfound, rfl⟩

namespace Engine

open Mix

variable {e : Engine} {r : Request} {macros : List MacroDef}

/-- Declarations of a compiled shader have no syntax of mixing, and its methods have bodies. -/
theorem mixin_syntax_removed (h : e.Reachable) {shader : Shader}
    (hcompile : (e.compile r macros).1.shader = some shader) :
    (∀ (i : DeclId) x, shader.table[i]? = some x →
      x.quals.isMixin = false ∧ (∀ a ∈ x.attrs, a.isMixin = false) ∧ (Node.decl x).Loopless) ∧
    (∀ x ∈ shader.decls, x.isMethod = true → x.body?.isSome = true) ∧
    (e.builtins = [] →
      (∀ entry ∈ (e.compile r macros).1.entryPoints, ∃ x ∈ shader.decls, x.isMethod = true ∧ x.name = entry.2 ∧
        x.body?.isSome = true) ∧
      ∃ instances, (e.loaded r macros).instances (e.contextOf r macros) r = some instances ∧
        ∀ (i : DeclId) x, shader.table[i]? = some x →
          (x.isVar = true → ∃ number inst cls ref v, HasVariable instances number inst cls ref v ∧
            v.isComposition = false ∧ x.name = variableName inst.label cls v ∧ x.loc = v.loc) ∧
          (¬ x.FreeOf .mark → ∃ inst ∈ instances, ∃ cls ∈ inst.table.classes, ∃ (id : DeclId) (d : Decl),
            cls.table[id]? = some d ∧ d.loc = x.loc ∧ ¬ d.FreeOf .mark)) := by
  obtain ⟨outcome, mixed, start, -, hmix, hstart, hfinish⟩ := compile_eq_some hcompile
  rw [hfinish] at hcompile ⊢
  have hcarries := finish_carries Stream.follows_linking hstart hcompile
  obtain ⟨hclean, hentries⟩ := finish_eq_some hstart hcompile
  obtain ⟨instances, his, hlog, rfl⟩ := compose_eq_some hmix
  have horderly := h.orderly his
  obtain ⟨refs, hmixes⟩ := emit_mixes hlog
  have hbuiltins : e.builtins = [] → (e.contextOf r macros).builtins = [] := fun h => h
  refine ⟨fun i x hx => ?_, fun x hx => ?_, fun hnone => ⟨fun entry hentry => ?_, instances, his, fun i x hx => ?_⟩⟩
  · rw [hclean] at hx
    obtain ⟨hquals, hattrs⟩ := Shader.unmarked_of_clean hx
    refine ⟨hquals, hattrs, Decl.freeOf_loop.mp ?_⟩
    rw [← hclean] at hx
    rcases hcarries.cases_table hx with ⟨d, hd, hfollows⟩ | ⟨-, hmade⟩
    · exact hfollows.free .loop (Decl.freeOf_loop.mpr (loopless_of_table hlog hmixes horderly hd))
    · exact hmade.2 .loop
  · rw [hclean] at hx
    exact Shader.body_of_clean hx
  · rw [hentries] at hentry
    obtain ⟨d, hd, hmethod, hmark, hname⟩ := Shader.exists_of_mem_entryPoints hentry
    have hbody : d.body?.isSome = true := by
      rw [hbuiltins hnone] at hlog hd
      exact body_of_entry hlog horderly hd hmethod hmark
    obtain ⟨x, hx, hfollows⟩ := hcarries.mem_decls hd (by simp [Decl.isCallable, hbody])
    exact ⟨x, hx, hfollows.shape.isMethod.trans hmethod, hfollows.name.trans hname, hfollows.shape.body?.trans hbody⟩
  · rw [hbuiltins hnone] at hlog hcarries
    rcases hcarries.cases_table hx with ⟨d, hd, hfollows⟩ | ⟨-, hvar, hfree⟩
    · refine ⟨fun hvar => ?_, fun hmarked => ?_⟩
      · obtain ⟨number, inst, cls, ref, v, hv, hown, hname, hloc⟩ :=
          variable_of_table hlog horderly hd (hfollows.shape.isVar.symm.trans hvar)
        exact ⟨number, inst, cls, ref, v, hv, hown, hfollows.name.trans hname, hfollows.loc.trans hloc⟩
      · obtain ⟨inst, hinst, cls, hcls, id, source, hid, hloc, hfree⟩ := source_of_table hlog hd
        refine ⟨inst, hinst, cls, hcls, id, source, hid, hloc.trans hfollows.loc.symm, fun hsource => hmarked ?_⟩
        exact hfollows.free .mark (hfree .mark hsource)
    · refine ⟨fun hisVar => ?_, fun hmarked => absurd (hfree .mark) hmarked⟩
      cases hvar.symm.trans hisVar

def forgeEngine : Engine where
  library := {
    store := {
      inMemory :=
        [("Forge", "shader Forge : Hearth \x7b compose Iron irons[]; [EntryPoint(\"Compute\")] override void Work() " ++
            "\x7b foreach (var i in irons) i.N = Heat; \x7d \x7d;"),
         ("Hearth", "shader Hearth { [Color] stage float Heat; abstract void Work(); };"),
         ("Iron", "shader Iron { float N; };")] } }

def forgeRequest : Request :=
  .mixin [⟨"Forge", []⟩] [("irons", .array [.single ⟨"Iron", []⟩, .single ⟨"Iron", []⟩])] []

theorem forge_mixin_syntax_removed : forgeEngine.Reachable ∧ forgeEngine.builtins = [] ∧ ∃ shader,
    (forgeEngine.compile forgeRequest []).1.shader = some shader ∧
    shader.decls.map Decl.name = ["Heat", "Iron_id1_N", "Iron_id2_N", "Work"] ∧
    (∀ (i : DeclId) x, shader.table[i]? = some x →
      x.quals.isMixin = false ∧ (∀ a ∈ x.attrs, a.isMixin = false) ∧ (Node.decl x).Loopless) ∧
    ∃ x ∈ shader.decls, x.isMethod = true ∧ x.name = "Work" ∧ x.body?.isSome = true := by
  have hreachable : forgeEngine.Reachable := .new _ {}
  obtain ⟨hentry, hnames⟩ :
      (forgeEngine.mixesSorted forgeRequest fun mixed _ => decide (mixed.entryPoints = [(.compute, "Work")])) = true ∧
      (forgeEngine.compilesSorted forgeRequest fun s =>
        decide (s.decls.map Decl.name = ["Heat", "Iron_id1_N", "Iron_id2_N", "Work"])) = true := by
    decide +kernel
  obtain ⟨shader, hcompile, hnames⟩ := compiles_of_sorted hnames
  obtain ⟨mixed, -, hmix, -, hentry⟩ := mixes_of_sorted hentry
  obtain ⟨hclean, -, hown⟩ := mixin_syntax_removed hreachable hcompile
  refine ⟨hreachable, rfl, shader, hcompile, of_decide_eq_true hnames, hclean, (hown rfl).1 (.compute, "Work") ?_⟩
  obtain ⟨-, mixed, start, -, hmixed, hstart, hfinish⟩ := compile_eq_some hcompile
  cases hmix.symm.trans hmixed
  rw [hfinish] at hcompile ⊢
  rw [(finish_eq_some hstart hcompile).2, of_decide_eq_true hentry]
  exact List.mem_singleton_self _

/-! ## Marks that stay -/

def shedEngine : Engine where
  library := { store := { inMemory := [("Shed", "shader Shed { void F() { stage float x; } };")] } }

def shedRequest : Request := .single ⟨"Shed", []⟩

def declaresStage : Node → Bool
  | .simple (.declare quals ..) => quals.stage
  | _ => false

theorem shows_of_declaresStage {n : Node} (h : declaresStage n = true) : n.shows .mark = true := by
  unfold declaresStage at h
  split at h
  · simp [Node.shows, Qualifiers.isMixin, h]
  · cases h

theorem stage_left_at_local : shedEngine.Reachable ∧ shedEngine.builtins = [] ∧ ∃ shader,
    (shedEngine.compile shedRequest []).1.shader = some shader ∧
    ∃ x ∈ shader.decls, ((Node.decl x).at? [3, 0, 1]).any declaresStage = true ∧ ¬ x.FreeOf .mark := by
  obtain ⟨shader, hcompile, hstage⟩ := compiles_of_sorted (show (shedEngine.compilesSorted shedRequest fun s =>
    s.decls.any fun x => ((Node.decl x).at? [3, 0, 1]).any declaresStage) = true by decide +kernel)
  obtain ⟨x, hx, hstage⟩ := List.any_eq_true.mp hstage
  refine ⟨.new _ {}, rfl, shader, hcompile, x, hx, hstage, fun hfree => ?_⟩
  obtain ⟨n, hn, hstage⟩ := (Option.any_eq_true _ _).mp hstage
  obtain ⟨body, hbody, hn⟩ := Option.bind_eq_some_iff.mp hn
  have hnone := hfree body (Decl.mem_parts hbody) _ n hn
  rw [shows_of_declaresStage hstage] at hnone
  cases hnone

end Engine

end ShaderCompose
