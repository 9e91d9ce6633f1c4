import ShaderCompose.Proofs.Generic.Positions
import ShaderCompose.Proofs.Stream.Interfaces

/-!
The exits of an entry point.
-/

namespace ShaderCompose

open List

namespace Piece

variable {p q q' : Piece} {exit : List Stmt}

def level : Piece → Nat
  | stmt _ | stmts _ => 1
  | body _ | kind _ | decls _ => 2
  | _ => 0

theorem level_parts (h : q ∈ p.parts) : q.level ≤ p.level := by
  revert h
  fun_cases parts p <;> grind [level]

def Closed (p : Piece) : Prop := ∀ path lead, p.at? path ≠ some (stmt (.ret lead none))

theorem closed_of_level (hp : p.level = 0) : p.Closed := by
  intro path lead hpath
  induction path generalizing p with
  | nil =>
    cases hpath
    cases hp
  | cons i path ih =>
    obtain ⟨q, hq, hpath⟩ := Option.bind_eq_some_iff.mp hpath
    have hlevel := level_parts (mem_of_getElem? hq)
    exact ih (by omega) hpath

theorem Closed.of_parts (hp : ∀ lead, p ≠ stmt (.ret lead none)) (hparts : ∀ q ∈ p.parts, q.Closed) : p.Closed := by
  intro path lead hpath
  cases path with
  | nil => exact hp lead (Option.some.inj hpath)
  | cons i path =>
    obtain ⟨q, hq, hpath⟩ := Option.bind_eq_some_iff.mp hpath
    exact hparts q (mem_of_getElem? hq) path lead hpath

theorem Closed.parts (h : p.Closed) (hq : q ∈ p.parts) : q.Closed := by
  intro path lead hpath
  obtain ⟨i, hi⟩ := getElem?_of_mem hq
  exact h (i :: path) lead (by rw [at?, hi]; exact hpath)

theorem closed_stmts {ss : List Stmt} : (stmts ss).Closed ↔ ∀ s ∈ ss, (stmt s).Closed := by
  induction ss with
  | nil => exact ⟨fun _ s hs => absurd hs not_mem_nil, fun _ => .of_parts (by simp) (by simp [Piece.parts])⟩
  | cons s ss ih =>
    rw [forall_mem_cons, ← ih]
    refine ⟨fun h => ⟨h.parts mem_cons_self, h.parts (by simp [Piece.parts])⟩, fun h => ?_⟩
    exact .of_parts (by simp) (by simpa [Piece.parts] using h)

/-- A return without a value has become a block. -/
inductive Closes (exit : List Stmt) : Piece → Piece → Prop
  | exit (lead : Lead) : Closes exit (stmt (.ret lead none)) (stmt (.block lead exit))
  | alike {p q : Piece} : (∀ lead, p ≠ stmt (.ret lead none)) → Alike p q →
      (∀ (i : Nat) x y, p.parts[i]? = some x → q.parts[i]? = some y → Closes exit x y) → Closes exit p q

theorem Closes.unique (h : Closes exit p q) (h' : Closes exit p q') : q = q' := by
  induction h generalizing q' with
  | exit lead =>
    cases h' with
    | exit => rfl
    | alike hbare => exact absurd rfl (hbare lead)
  | alike hbare halike _ ih =>
    cases h' with
    | exit lead => exact absurd rfl (hbare lead)
    | alike _ halike' hparts' =>
      refine halike.ext halike' (ext_getElem ?_ fun i hi hi' => ?_)
      · rw [halike.length_parts, halike'.length_parts]
      · have hp := getElem?_eq_getElem (halike.length_parts ▸ hi)
        exact ih i _ _ hp (getElem?_eq_getElem hi) (hparts' i _ _ hp (getElem?_eq_getElem hi'))

theorem Closes.closed (h : Closes exit p q) (hexit : (stmts exit).Closed) : q.Closed := by
  induction h with
  | exit lead =>
    obtain ⟨loc, as⟩ := lead
    refine .of_parts (by simp) ?_
    simpa [Piece.parts] using ⟨closed_of_level rfl, hexit⟩
  | @alike p q hbare halike hparts ih =>
    refine .of_parts (fun lead hq => ?_) fun y hy => ?_
    · subst hq
      cases halike with
      | refl => exact hbare lead rfl
      | ret loc as value as' =>
        cases value with
        | none => exact hbare _ rfl
        | some value =>
          cases hparts 1 _ _ rfl rfl with
          | alike _ halike => cases halike
    · obtain ⟨i, hi⟩ := getElem?_of_mem hy
      have hlt : i < p.parts.length := halike.length_parts ▸ (List.getElem?_eq_some_iff.mp hi).1
      exact ih i _ y (getElem?_eq_getElem hlt) hi

def shut (exit : List Stmt) : Piece → Piece
  | stmt s => stmt (Stream.closeReturns exit s)
  | stmts ss => stmts (Stream.closeAll exit ss)
  | p => p

theorem alike_shut (hbare : ∀ lead, p ≠ stmt (.ret lead none)) : Alike p (p.shut exit) := by
  revert hbare
  fun_cases parts p with
  | case40 _ _ value =>
    intro hbare
    cases value with
    | none => exact absurd rfl (hbare _)
    | some value => exact .refl _
  | _ =>
    intro _
    first | exact .refl _ | constructor

theorem parts_shut (hbare : ∀ lead, p ≠ stmt (.ret lead none)) (hp : p.level ≤ 1) :
    (p.shut exit).parts = p.parts.map (shut exit) := by
  revert hbare hp
  fun_cases parts p with
  | case40 _ _ value =>
    intro hbare _
    cases value with
    | none => exact absurd rfl (hbare _)
    | some value => rfl
  | _ =>
    intro _ hp
    first | rfl | exact absurd hp (by simp [level])

theorem closes_shut (p : Piece) (hp : p.level ≤ 1) : Closes exit p (p.shut exit) := by
  by_cases hbare : ∃ lead, p = stmt (.ret lead none)
  · obtain ⟨lead, rfl⟩ := hbare
    exact .exit lead
  · rw [not_exists] at hbare
    refine .alike hbare (alike_shut hbare) fun i x y hx hy => ?_
    rw [parts_shut hbare hp, getElem?_map, hx] at hy
    cases hy
    have hmem := mem_of_getElem? hx
    exact closes_shut x (Nat.le_trans (level_parts hmem) hp)
termination_by sizeOf p
decreasing_by exact sizeOf_parts (mem_of_getElem? hx)

end Piece

theorem Shader.mem_entryPoints {s : Shader} {stage : Stage} {name : String} (h : (stage, name) ∈ s.entryPoints) :
    ∃ m ∈ s.methods, m.name = name ∧ m.entry = some stage := by
  have hentry : ∀ {st}, s.entryOf? st = some (stage, name) → ∃ m ∈ s.methods, m.name = name ∧ m.entry = some stage := by
    intro st hst
    obtain ⟨m, hm, heq⟩ := Option.map_eq_some_iff.mp hst
    cases heq
    exact ⟨m, mem_of_find?_eq_some hm, rfl, by simpa using find?_some hm⟩
  unfold entryPoints at h
  split at h
  · next hcompute =>
    cases mem_singleton.mp h
    exact hentry hcompute
  · obtain ⟨st, -, hst⟩ := mem_filterMap.mp h
    exact hentry hst

namespace Stream

variable {s : Shader} {vars : List StreamVar} {plan : EntryPlan} {st : StreamStruct}

def StreamsIn (n : Nat) (o : Option StreamStruct) : Prop := ∀ st, o = some st → ∀ k ∈ st.streams, k < n

variable {n : Nat} {streams : List Nat}

theorem streamsIn_make? (name : String) (h : ∀ k ∈ streams, k < n) : StreamsIn n (StreamStruct.make? name streams) := by
  intro st hst
  unfold StreamStruct.make? at hst
  split at hst
  · cases hst
  · cases hst
    exact h

theorem within_outputStruct? (entry name : String) (h : ∀ k ∈ streams, k < n) :
    StreamsIn n (outputStruct? s entry name streams) := by
  unfold outputStruct?
  split
  · exact streamsIn_make? name h
  · exact fun st hst => by cases hst

structure Sensible (s : Shader) (vars : List StreamVar) (ps : List EntryPlan) : Prop where
  found : ∀ plan ∈ ps, ∃ m ∈ s.methods, m.name = plan.entry
  nodup : (ps.map EntryPlan.entry).Nodup
  streams : ∀ plan ∈ ps, StreamsIn vars.length plan.input ∧ StreamsIn vars.length plan.output
  input : ∀ plan ∈ ps, ∀ st, plan.input = some st →
    ∃ generate, structDecl vars generate st ∈ ps.flatMap (planStructs vars)

theorem mem_planStructs_input (hshared : plan.sharedInput = false) (h : plan.input = some st) :
    structDecl vars true st ∈ planStructs vars plan := by
  simp [planStructs, h, hshared]

theorem mem_planStructs_output (h : plan.output = some st) :
    structDecl vars plan.generateSemantics st ∈ planStructs vars plan := by
  simp [planStructs, h]

theorem sensible_single (hfound : ∃ m ∈ s.methods, m.name = plan.entry) (hshared : plan.sharedInput = false)
    (hinput : StreamsIn vars.length plan.input) (houtput : StreamsIn vars.length plan.output) :
    Sensible s vars [plan] := by
  refine ⟨?_, nodup_singleton _, ?_, ?_⟩ <;> simp only [forall_mem_singleton, flatMap_singleton]
  · exact hfound
  · exact ⟨hinput, houtput⟩
  · exact fun st hst => ⟨true, mem_planStructs_input hshared hst⟩

theorem sensible_pair {vertex pixel : String} {vs ps : Usage} (hvertex : ∃ m ∈ s.methods, m.name = vertex)
    (hpixel : ∃ m ∈ s.methods, m.name = pixel) (hne : vertex ≠ pixel)
    (hvs : vs.Tidy (· < vars.length) (· < vars.length)) (hps : ps.Tidy (· < vars.length) (· < vars.length)) :
    Sensible s vars [planVertex s vertex (feed vars vs ps),
      planPixel s pixel ps (planVertex s vertex (feed vars vs ps)).output] := by
  have hfed := hvs.feed hps vars
  obtain ⟨first, hfirst⟩ : ∃ first, first = planVertex s vertex (feed vars vs ps) := ⟨_, rfl⟩
  have houtput : StreamsIn vars.length first.output := hfirst ▸ within_outputStruct? _ _ hfed.outputs
  have hinput : ∀ st, (planPixel s pixel ps first.output).input = some st → first.output = some st ∨
      first.output = none ∧ StreamStruct.make? "PS_INPUT" ps.inputs = some st := by
    intro st hst
    cases hoption : first.output <;> simp_all [planPixel]
  rw [← hfirst]
  have both : ∀ {P : EntryPlan → Prop}, P first → P (planPixel s pixel ps first.output) →
      ∀ plan ∈ [first, planPixel s pixel ps first.output], P plan := fun hvertex hpixel =>
    forall_mem_cons.mpr ⟨hvertex, forall_mem_singleton.mpr hpixel⟩
  refine ⟨both (hfirst ▸ hvertex) hpixel, ?_, both ⟨hfirst ▸ streamsIn_make? _ hfed.inputs, houtput⟩ ⟨fun st hst => ?_,
    within_outputStruct? _ _ hps.outputs⟩, both (fun st hst => ?_) fun st hst => ?_⟩
  · simpa [hfirst, planVertex, planPixel] using hne
  · exact (hinput st hst).elim (houtput st) fun h => streamsIn_make? _ hps.inputs st h.2
  · exact ⟨true, mem_append_left _ (mem_planStructs_input (hfirst ▸ rfl) hst)⟩
  · rcases hinput st hst with h | ⟨hnone, -⟩
    · exact ⟨_, mem_append_left _ (mem_planStructs_output h)⟩
    · refine ⟨true, mem_append_right _ (mem_append_left _ (mem_planStructs_input ?_ hst))⟩
      rw [hnone]
      rfl

theorem sensible_planned (hnames : (s.methods.map Decl.name).Nodup) :
    Sensible s (streamVars s) (planned s s.entryPoints) := by
  unfold planned
  split
  · exact ⟨by simp, nodup_nil, by simp, by simp⟩
  · have hentry : ∀ {stage name}, s.entryPoints.get? stage = some name →
        ∃ m ∈ s.methods, m.name = name ∧ m.entry = some stage := fun h => Shader.mem_entryPoints (mem_of_lookup h)
    have hfound : ∀ {stage name}, s.entryPoints.get? stage = some name → ∃ m ∈ s.methods, m.name = name := fun h => by
      obtain ⟨m, hm, hname, -⟩ := hentry h
      exact ⟨m, hm, hname⟩
    have husage := tidy_streams (s := s) (streamVars s)
    generalize hu : usageOf s (streamIndex (streamVars s)) = usage at husage
    have hpixel : ∀ entry, (pixelUsage (streamVars s) (usage entry)).Tidy (· < (streamVars s).length)
        (· < (streamVars s).length) := fun entry => (husage entry).pixelUsage _
    unfold plans
    rw [hu]
    split
    · next entry hcompute =>
      exact sensible_single (hfound hcompute) rfl (streamsIn_make? _ (husage entry).inputs) fun st hst => by cases hst
    · split
      · exact ⟨by simp, nodup_nil, by simp, by simp⟩
      · next vertex hvertex _ =>
        exact sensible_single (hfound hvertex) rfl (streamsIn_make? _ (husage vertex).inputs)
          (within_outputStruct? _ _ (husage vertex).outputs)
      · next pixel _ hp =>
        exact sensible_single (hfound hp) rfl (streamsIn_make? _ (husage pixel).inputs)
          (within_outputStruct? _ _ (hpixel pixel).outputs)
      · next vertex pixel hv hp =>
        refine sensible_pair (hfound hv) (hfound hp) (fun hsame => ?_) (husage vertex) (hpixel pixel)
        obtain ⟨m, hm, hname, hstage⟩ := hentry hv
        obtain ⟨m', hm', hname', hstage'⟩ := hentry hp
        cases Shader.eq_of_name hnames hm hm' (hname.trans (hsame.trans hname'.symm))
        cases hstage.symm.trans hstage'

def CopiesOutput (vars : List StreamVar) (k : Nat) (s : Stmt) : Prop :=
  ∃ v, vars[k]? = some v ∧ s = .simple Stmt.generatedLead (.expr (.assign .generated none
    (.member .generated (.ident .generated "__output__") v.field) (.ident .generated v.global)))

def returnOutput : Stmt := .ret Stmt.generatedLead (some (.ident .generated "__output__"))

/-- Inputs are copied first, outputs at every exit. -/
structure Rewritten (vars : List StreamVar) (inputs outputs : List Nat) (type : String) (body made : List Stmt) :
    Prop where
  parts : ∃ copies main inner assigns,
    made = copies ++ .simple Stmt.generatedLead (.declare {} { name := type } "__output__" none) ::
      (inner ++ (assigns ++ [returnOutput])) ∧
    List.Forall₂ (CopiesInput vars) inputs copies ∧ List.Forall₂ (CopiesOutput vars) outputs assigns ∧
    (main = body ∧ (∀ lead, body.getLast? ≠ some (.ret lead none)) ∨ ∃ lead, body = main ++ [.ret lead none]) ∧
    ∀ ss, Piece.Closes (assigns ++ [returnOutput]) (.stmts main) (.stmts ss) ↔ ss = inner
  last : made.getLast? = some returnOutput
  closed : (Piece.stmts made).Closed

theorem dropLastReturn_cases (body : List Stmt) :
    dropLastReturn body = body ∧ (∀ lead, body.getLast? ≠ some (.ret lead none)) ∨
      ∃ lead, body = dropLastReturn body ++ [.ret lead none] := by
  unfold dropLastReturn
  cases hlast : body.getLast? with
  | none => exact .inl ⟨by simp, by simp⟩
  | some st =>
    by_cases hbare : isBareReturn st = true
    · right
      obtain ⟨lead, rfl⟩ : ∃ lead, st = .ret lead none := by
        unfold isBareReturn at hbare
        split at hbare
        · exact ⟨_, rfl⟩
        · cases hbare
      exact ⟨lead, by simpa [isBareReturn] using (dropLast_append_getLast? _ hlast).symm⟩
    · refine .inl ⟨by simp [hbare], fun lead heq => hbare ?_⟩
      cases heq
      rfl

theorem closed_simple (lead : Lead) (what : Simple) : (Piece.stmt (.simple lead what)).Closed := by
  obtain ⟨loc, as⟩ := lead
  refine .of_parts (by simp) ?_
  simpa [Piece.parts] using ⟨Piece.closed_of_level rfl, Piece.closed_of_level rfl⟩

theorem closed_returnOutput : (Piece.stmt returnOutput).Closed := by
  refine .of_parts (by simp [returnOutput]) ?_
  simpa [returnOutput, Stmt.generatedLead, Piece.parts] using ⟨Piece.closed_of_level rfl, Piece.closed_of_level rfl⟩

theorem rewritten_planBody (body : List Stmt) (h : plan.output = some st) (hinput : StreamsIn vars.length plan.input)
    (houtput : StreamsIn vars.length plan.output) :
    Rewritten vars ((plan.input.map StreamStruct.streams).getD []) st.streams st.name body
      (planBody vars plan body) := by
  obtain ⟨assigns, hassigns⟩ : ∃ assigns, assigns = (pick vars st.streams).map fun v =>
      assignStmt (memberExpr outputName v.field) (nameExpr v.global) := ⟨_, rfl⟩
  have hmade : planBody vars plan body = (plan.input.map (loadInput vars)).getD [] ++
      .simple Stmt.generatedLead (.declare {} { name := st.name } "__output__" none) ::
        (closeAll (assigns ++ [returnOutput]) (dropLastReturn body) ++ (assigns ++ [returnOutput])) := by
    rw [hassigns, planBody, h]
    rfl
  have hcopies : List.Forall₂ (CopiesInput vars) ((plan.input.map StreamStruct.streams).getD [])
      ((plan.input.map (loadInput vars)).getD []) := by
    cases hin : plan.input with
    | none => exact .nil
    | some input => exact forall₂_pick _ (hinput input hin)
  have hstores : List.Forall₂ (CopiesOutput vars) st.streams assigns := hassigns ▸ forall₂_pick _ (houtput st h)
  have hcloses : Piece.Closes (assigns ++ [returnOutput]) (.stmts (dropLastReturn body))
      (.stmts (closeAll (assigns ++ [returnOutput]) (dropLastReturn body))) := Piece.closes_shut _ (Nat.le_refl 1)
  have hexit : (Piece.stmts (assigns ++ [returnOutput])).Closed := by
    refine Piece.closed_stmts.mpr (forall_mem_append.mpr ⟨fun s hs => ?_, forall_mem_singleton.mpr closed_returnOutput⟩)
    obtain ⟨v, -, rfl⟩ := mem_map.mp (hassigns ▸ hs)
    exact closed_simple _ _
  rw [hmade]
  refine ⟨⟨_, _, _, assigns, rfl, hcopies, hstores, dropLastReturn_cases body,
    fun ss => ⟨fun hss => ?_, fun hss => ?_⟩⟩, ?_, ?_⟩
  · exact Piece.stmts.inj (hss.unique hcloses)
  · exact hss ▸ hcloses
  · simp [getLast?_cons]
  · refine Piece.closed_stmts.mpr (forall_mem_append.mpr ⟨fun s hs => ?_, forall_mem_cons.mpr
      ⟨closed_simple _ _, forall_mem_append.mpr
        ⟨Piece.closed_stmts.mp (hcloses.closed hexit), Piece.closed_stmts.mp hexit⟩⟩⟩)
    obtain ⟨k, -, v, -, rfl⟩ := mem_right_of_forall₂ hcopies hs
    exact closed_simple _ _

/-- Planned entry points have their exits closed, and all else stays as it is. -/
theorem exits_closed (hnames : (s.methods.map Decl.name).Nodup) :
    ∃ ids, (create s s.entryPoints).1.declarations = ids ++ s.declarations ∧
      (create s s.entryPoints).1.select ids = (planned s s.entryPoints).flatMap (planStructs (streamVars s)) ∧
      (∀ id d, s.table[id]? = some d → (d.isMethod = true → ∀ plan ∈ planned s s.entryPoints, plan.entry ≠ d.name) →
        (∀ v ∈ streamVars s, v.id ≠ id) → (create s s.entryPoints).1.table[id]? = some d) ∧
      ∀ plan ∈ planned s s.entryPoints, ∀ output, plan.output = some output → ∀ d ∈ s.methods, d.name = plan.entry →
        ∀ returns params semantic body, d.kind = .method returns params semantic (some body) →
          (∃ o ∈ (create s s.entryPoints).1.select ids, HasFields (streamVars s) o output.name output.streams) ∧
          (∀ input, plan.input = some input →
            ∃ i ∈ (create s s.entryPoints).1.select ids, HasFields (streamVars s) i input.name input.streams) ∧
          ∃ (id : DeclId) (made : List Stmt), s.table[id]? = some d ∧
            (create s s.entryPoints).1.table[id]? = some { d with
              kind := .method { name := output.name } (params ++ plan.input.toList.map fun st : StreamStruct =>
                { name := "__input__", type := { name := st.name }, loc := .generated : Param }) none (some made) } ∧
            Rewritten (streamVars s) ((plan.input.map StreamStruct.streams).getD []) output.streams output.name
              body made := by
  have hsensible := sensible_planned hnames
  have hfound : ∀ plan ∈ planned s s.entryPoints, (s.methodId? plan.entry).isSome := by
    intro plan hplan
    obtain ⟨m, hm, hname⟩ := hsensible.found plan hplan
    obtain ⟨id, hid, -⟩ := Shader.methodId?_of_mem hnames hm
    rw [← hname, hid]
    rfl
  obtain ⟨ids, hdeclarations, hselect, hentry, hkept⟩ := create_spec hfound hsensible.nodup
  refine ⟨ids, hdeclarations, hselect, fun id d hd hmethod hvars => hkept id d hd (fun plan hplan hid => ?_) hvars, ?_⟩
  · obtain ⟨-, d', hd', hmethod', hname⟩ := Shader.methodId?_spec hid
    cases hd.symm.trans hd'
    exact hmethod hmethod' plan hplan hname.symm
  · intro plan hplan output houtput d hd hname returns params semantic body hkind
    obtain ⟨id, hid, -, htable⟩ := Shader.methodId?_of_mem hnames hd
    obtain ⟨hin, hout⟩ := hsensible.streams plan hplan
    rw [hselect]
    refine ⟨⟨_, List.mem_flatMap.mpr ⟨plan, hplan, mem_planStructs_output houtput⟩,
      holds_structDecl _ (hout output houtput)⟩, fun input hinput => ?_, id, _, htable, ?_,
      rewritten_planBody body houtput hin hout⟩
    · obtain ⟨generate, hmem⟩ := hsensible.input plan hplan input hinput
      exact ⟨_, hmem, holds_structDecl _ (hin input hinput)⟩
    · rw [hentry plan hplan id d (hname ▸ hid) htable, planMethod, hkind, houtput]
      rfl

def shutterShader : Shader where
  table := #[
    { name := "streams_Color", loc := .generated, quals := { stream := true }
      kind := .var { name := "float4" } (some "SV_Target0") none },
    { name := "PS", loc := .generated, entry := some .pixel
      kind := .method { name := "void" } [] none (some [assignStmt (nameExpr "streams_Color") (nameExpr "light"),
        .ifThen Stmt.generatedLead (nameExpr "dark") (.ret Stmt.generatedLead none),
        assignStmt (nameExpr "streams_Color") (nameExpr "shade"), .ret Stmt.generatedLead none]) }]
  declarations := [0, 1]

theorem shutter_exits_closed :
    (create shutterShader shutterShader.entryPoints).1.decls.map Decl.name = ["PS_OUTPUT", "streams_Color", "PS"] ∧
    ∃ (id : DeclId) (d : Decl) (made : List Stmt),
      (create shutterShader shutterShader.entryPoints).1.table[id]? = some d ∧ d.name = "PS" ∧
      d.body? = some made ∧ made.getLast? = some returnOutput ∧ (Piece.stmts made).Closed := by
  have hplan : ∃ plan ∈ planned shutterShader shutterShader.entryPoints, plan.entry = "PS" ∧
      plan.output.isSome := ⟨_, List.mem_cons_self, rfl, by decide +kernel⟩
  obtain ⟨plan, hplan, hentry, hsome⟩ := hplan
  obtain ⟨output, houtput⟩ := Option.isSome_iff_exists.mp hsome
  obtain ⟨ids, -, -, -, hclosed⟩ := @exits_closed shutterShader (by decide +kernel)
  obtain ⟨-, -, id, made, -, htable, hmade⟩ := hclosed plan hplan output houtput _
    (List.mem_cons_self : _ ∈ shutterShader.methods) hentry.symm _ _ _ _ rfl
  exact ⟨by decide +kernel, id, _, made, htable, rfl, rfl, hmade.last, hmade.closed⟩

end Stream

end ShaderCompose
