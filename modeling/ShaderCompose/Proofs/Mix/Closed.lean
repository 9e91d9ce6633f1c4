import ShaderCompose.Proofs.Mix.Builtins
import ShaderCompose.Proofs.Mix.Variables
import ShaderCompose.Proofs.Shader.Closed

/-!
The calls of a mixed shader.
-/

namespace ShaderCompose

open List

theorem Decl.isCallable_of_sameShape {d d' : Decl} (h : d.kind.SameShape d'.kind) : d'.isCallable = d.isCallable := by
  rw [isCallable, isCallable, h.isStruct, h.body?]

namespace Mix

/-! ## Calls in bodies -/

structure CallSite where
  inst : MixInstance
  place : Nat
  spot : Spot
  callee : Callee

def callSites (instances : List MixInstance) : List CallSite :=
  instances.flatMap fun inst => (along ShaderClass.methods inst.table.classes).flatMap fun m =>
    m.2.spots.flatMap fun spot => spot.expr.calls.map fun callee => ⟨inst, m.1.cls, spot, callee⟩

def CallSite.baseMethod? (s : CallSite) : Option Decl :=
  if s.callee.receiver? = some "base" then
    ((s.inst.table.method? s.callee.called).bind fun slot => slot.before? s.place).bind s.inst.table.decl?
  else none

def MixInstance.isVariable (i : MixInstance) (name : String) : Bool :=
  (i.names.methods.lookup name).isNone && (i.names.vars.lookup name).isSome

def builtinNamed? (builtins : List Module) (name : String) : Option Decl :=
  (builtinMember? builtins name).bind fun ref => ref.1.cls.table[ref.2]?

/-- What neither the check nor renaming sees to. -/
structure CallSite.Plain (builtins : List Module) (instances : List MixInstance) (s : CallSite) : Prop where
  aside : s.spot.isAside = false
  loop : ∀ n ∈ s.callee.name?, s.spot.scope.lookup n ≠ some .loop
  name : ∀ n ∈ s.callee.name?, s.inst.isVariable n = false
  member : s.callee.name? = none → ∀ i ∈ instances, i.isVariable s.callee.called = false
  stream : s.callee.receiver? ≠ some "streams"
  base : ∀ d ∈ s.baseMethod?, d.body?.isSome = true
  builtin : ∀ n ∈ s.callee.name?, ∀ d ∈ builtinNamed? builtins n, d.isCallable = true

def PlainBuiltinCall (builtins : List Module) (spot : Spot) (n : String) : Prop :=
  spot.scope.lookup n = some .value ∨ spot.scope.lookup n = none ∧
    ((intrinsicArity? n).isSome = true ∨ isNumericType n = true ∨
      (builtinNamed? builtins n).any Decl.isCallable = true)

structure PlainCalls (builtins : List Module) (instances : List MixInstance) : Prop where
  sites : ∀ s ∈ callSites instances, s.Plain builtins instances
  builtins : ∀ m ∈ builtins, ∀ e ∈ m.cls.memberDecls, ∀ spot ∈ e.2.spots, ∀ c ∈ spot.expr.calls,
    spot.isAside = false ∧ ∀ n ∈ c.name?, PlainBuiltinCall builtins spot n

instance (builtins : List Module) (instances : List MixInstance) (s : CallSite) :
    Decidable (s.Plain builtins instances) :=
  decidable_of_iff (_ ∧ _ ∧ _ ∧ _ ∧ _ ∧ _ ∧ _)
    ⟨fun ⟨aside, loop, name, member, stream, base, lib⟩ => ⟨aside, loop, name, member, stream, base, lib⟩,
      fun ⟨aside, loop, name, member, stream, base, lib⟩ => ⟨aside, loop, name, member, stream, base, lib⟩⟩

instance (builtins : List Module) (spot : Spot) (n : String) : Decidable (PlainBuiltinCall builtins spot n) :=
  inferInstanceAs (Decidable (_ ∨ _ ∧ _))

instance (builtins : List Module) (instances : List MixInstance) : Decidable (PlainCalls builtins instances) :=
  decidable_of_iff (_ ∧ _) ⟨fun ⟨sites, lib⟩ => ⟨sites, lib⟩, fun ⟨sites, lib⟩ => ⟨sites, lib⟩⟩

def Cleared (builtins : List Module) (inst : MixInstance) (spot : Spot) : Prop :=
  spot.isAside = false → ∀ n, .name n ∈ spot.expr.calls → (spot.scope.lookup n).isSome = true ∨
    (inst.table.method? n).isSome = true ∨ (builtinMember? builtins n).isSome = true ∨
    (intrinsicArity? n).isSome = true ∨ isNumericType n = true ∨
    ∃ cls ∈ inst.table.classes, ∃ e ∈ cls.entries, e.2.isStruct = true ∧ e.2.name = n

section

variable {builtins : List Module} {instances : List MixInstance} {number : Nat} {inst : MixInstance}
  {cls : ShaderClass} {ref : MemberRef} {d : Decl}

theorem HasMethod.mem_callSites (h : HasMethod instances number inst cls ref d) {spot : Spot}
    (hspot : spot ∈ d.spots) {c : Callee} (hc : c ∈ spot.expr.calls) :
    (⟨inst, ref.cls, spot, c⟩ : CallSite) ∈ callSites instances := by
  have hmethod : (ref, d) ∈ along ShaderClass.methods inst.table.classes :=
    MemberTable.mem_along.mpr ⟨cls, h.cls_eq, h.mem⟩
  refine mem_flatMap.mpr ⟨inst, h.inst_mem, mem_flatMap.mpr ⟨_, hmethod, ?_⟩⟩
  exact mem_flatMap.mpr ⟨spot, hspot, mem_map_of_mem hc⟩

variable {i : MixInstance}

theorem MixInstance.methods_of_member? {called n : String}
    (hmember : i.names.member? called = some n) (hvariable : i.isVariable called = false) :
    i.names.methods.lookup called = some n := by
  rcases Names.member?_cases hmember with hmethod | ⟨hnone, hvar⟩
  · exact hmethod
  · simp [isVariable, hnone, hvar] at hvariable

theorem MixInstance.Orderly.methods_isSome (h : i.Orderly) {name : String}
    (hmethod : (i.table.method? name).isSome = true) : (i.names.methods.lookup name).isSome = true := by
  obtain ⟨slot, hslot⟩ := Option.isSome_iff_exists.mp hmethod
  have hmem : slot ∈ i.table.methods := mem_of_find?_eq_some hslot
  obtain ⟨hname, -, hne⟩ := h.lists.method?_eq_some.mp hslot
  have hfinal : slot.final? = some (slot.implementations.getLast hne) := getLast?_eq_some_getLast hne
  have href : slot.implementations.getLast hne ∈ slot.implementations := getLast_mem hne
  obtain ⟨cls, d, hcls, hd, -⟩ := Names.slot_of_mem h.lists hmem href
  have hnamed : (_, _) ∈ Names.ofSlot i.label i.table slot :=
    Names.mem_ofSlot.mpr ⟨href, cls, d, hcls, (ShaderClass.mem_methods.mp hd).2.1, rfl⟩
  obtain ⟨renamed, hrenamed⟩ := Option.isSome_iff_exists.mp
    (lookup_isSome_of_mem_keys (mem_map_of_mem (f := Prod.fst) hnamed))
  refine lookup_isSome_of_mem_keys (mem_map.mpr ⟨(slot.name, renamed), ?_, hname⟩)
  rw [h.names]
  refine mem_filterMap.mpr ⟨slot, hmem, ?_⟩
  rw [hfinal, Option.bind_some, hrenamed]
  rfl

theorem MixInstance.Orderly.methods_eq_none (h : i.Orderly) {name : String}
    (hmethod : i.table.method? name = none) : i.names.methods.lookup name = none := by
  cases hlookup : i.names.methods.lookup name with
  | none => rfl
  | some renamed =>
    rw [h.names] at hlookup
    obtain ⟨slot, -, hslot, hname, -⟩ := Names.lookup_methods hlookup
    exact absurd (beq_iff_eq.mpr hname) (find?_eq_none.mp hmethod slot hslot)

theorem builtinNamed?_eq_some {n : String} {m : Module} {id : DeclId} (h : builtinMember? builtins n = some (m, id)) :
    ∃ d, builtinNamed? builtins n = some d ∧ m.cls.table[id]? = some d ∧ d.name = n := by
  obtain ⟨-, d, hd, hname⟩ := builtinMember?_eq_some h
  have htable := (ShaderClass.mem_memberDecls.mp hd).2
  exact ⟨d, by rw [builtinNamed?, h]; exact htable, htable, hname⟩

theorem mem_memberDecls_of_isStruct (hlayout : cls.Layout) {id : DeclId} (hd : cls.table[id]? = some d)
    (hstruct : d.isStruct = true) : (id, d) ∈ cls.memberDecls := by
  obtain ⟨home, ⟨-, hmember⟩ | ⟨b, buffer, hb, hinner, -⟩⟩ := hlayout.exists_home hd
  · exact ShaderClass.mem_memberDecls.mpr ⟨hmember, hd⟩
  · obtain ⟨hb, hbuffer⟩ := ShaderClass.mem_memberDecls.mp hb
    obtain ⟨v, hv, hvar⟩ := hlayout.inner b buffer hb hbuffer id hinner
    cases hd.symm.trans hv
    obtain ⟨fields, hkind⟩ := Decl.isStruct_iff.mp hstruct
    simp [Decl.isVar, hkind] at hvar

/-! ## What can be called -/

section

variable {refs : List BuiltinRef} (hmixes : Mixes builtins instances refs)

include hmixes

theorem canCall_entry {e : Offer} (he : e ∈ entriesOf builtins instances) {name : String}
    (hname : e.name? = some name) (hhome : e.home = none)
    (hcallable : (e.placed (entriesOf builtins instances)).isCallable = true) :
    (emit builtins instances).1.CanCall name := by
  refine .inr (.inr ⟨_, (hmixes.decls _).mpr (.inr ⟨e, he, hhome, rfl⟩), hcallable, ?_⟩)
  rw [Offer.placed_name, Offer.made_name hname]

theorem canCall_builtin (hids : (builtins.map Module.id).Nodup) {n : String} {used : BuiltinRef}
    (hused : builtinMember? builtins n = some used) (hnoted : refKey used ∈ refs.map refKey)
    (hcallable : (builtinNamed? builtins n).any Decl.isCallable = true) :
    (emit builtins instances).1.CanCall n := by
  obtain ⟨m, id⟩ := used
  obtain ⟨d, hd, htable, rfl⟩ := builtinNamed?_eq_some hused
  rw [hd] at hcallable
  -- the numbers of a builtin tell it apart
  obtain ⟨⟨m', id'⟩, href, hkey⟩ := mem_map.mp hnoted
  obtain ⟨hid, rfl⟩ := Prod.mk.inj hkey
  obtain ⟨name', hother⟩ := hmixes.known _ href
  have hm := (builtinMember?_eq_some hused).1
  have hm' := (builtinMember?_eq_some hother).1
  obtain rfl : m' = m := inj_on_of_nodup_map hids hm' hm hid
  obtain ⟨attrs, kind, hmade, hshape⟩ := decl_fst (builtinEnv builtins instances) d {}
  have hdeclared : builtinDecl? (builtinEnv builtins instances) (m', id') = some { d with attrs, kind } := by
    rw [← hmade]
    exact congrArg (Option.map _) htable
  refine .inr (.inr ⟨_, (hmixes.decls _).mpr (.inl ⟨_, href, hdeclared⟩), ?_, rfl⟩)
  exact (Decl.isCallable_of_sameShape hshape).trans hcallable

theorem canCall_struct (horderly : ∀ i ∈ instances, i.Orderly) (hinst : instances[number]? = some inst)
    {place : Nat} (hcls : inst.table.classes[place]? = some cls) {id : DeclId} (hd : cls.table[id]? = some d)
    (hstruct : d.isStruct = true) : (emit builtins instances).1.CanCall d.name := by
  have hlayout := (horderly inst (mem_of_getElem? hinst)).layout cls (mem_of_getElem? hcls)
  have hmember := mem_memberDecls_of_isStruct hlayout hd hstruct
  obtain ⟨fields, hkind⟩ := Decl.isStruct_iff.mp hstruct
  have hoffer : Offer.struct (memberOf builtins instances number inst cls ⟨place, id⟩ d) ∈
      offersOf builtins instances := by
    refine mem_offersOf.mpr ⟨_, mem_membersOf.mpr ⟨number, inst, cls, ⟨place, id⟩, d, hinst, hcls, hmember, rfl⟩, ?_⟩
    simp [Member.offers, memberOf, hkind]
  have hentry : ∃ e ∈ entriesOf builtins instances, e.key? = some (.struct d.name) := by
    rcases mem_entries_of_offered hoffer rfl with he | ⟨k, hk, hmem⟩
    · exact ⟨_, he, rfl⟩
    · cases hk
      exact mem_keys.mp hmem
  obtain ⟨e, he, hkey⟩ := hentry
  obtain ⟨hename, m, rfl⟩ := Offer.key?_cases hkey
  have hfits := fits_of_offered horderly ((entries_sublist _).subset he)
  refine canCall_entry hmixes he hename rfl ?_
  rw [Decl.isCallable, Offer.isStruct_struct _ hfits, Bool.true_or]

end

section

variable (hlog : (emit builtins instances).2.hasErrors = false) (horderly : ∀ i ∈ instances, i.Orderly)
  (hnames : ClassesByName instances) {refs : List BuiltinRef} (hmixes : Mixes builtins instances refs)

include hlog horderly hnames hmixes

theorem canCall_method (hd : HasMethod instances number inst cls ref d) (hbody : d.body?.isSome = true)
    {name : String} (hname : (memberOf builtins instances number inst cls ref d).methodName? = some name) :
    (emit builtins instances).1.CanCall name := by
  have hoffer := (method_mem_offersOf builtins).mpr ⟨number, inst, cls, ref, d, hd, rfl⟩
  have hcallable : ∀ {m : Member}, m.decl = d →
      ((Offer.method m).placed (entriesOf builtins instances)).isCallable = true := by
    rintro m rfl
    rw [Decl.isCallable, Offer.body?_method, hbody, Bool.or_true]
  cases hkey : (Offer.method (memberOf builtins instances number inst cls ref d)).key? with
  | none =>
    have hentry := mem_entries_of_keyless hoffer (by simp [Offer.name?, hname]) hkey
    exact canCall_entry hmixes hentry hname rfl (hcallable rfl)
  | some k =>
    have hshared : k = .shared name := by
      simp only [Offer.key?, Offer.name?, hname, Offer.keyOf] at hkey
      split at hkey <;> cases hkey
      rfl
    subst hshared
    obtain ⟨e, he, hekey, howner⟩ := (emit_spec hlog).1.agree _ hoffer _ hkey
    obtain ⟨hclass, hdecl⟩ := Prod.mk.inj howner
    have heoffer := (entries_sublist _).subset he
    have hename : e.name? = some name := (Offer.key?_cases hekey).1
    -- what shares the name is the same declaration of the same class
    cases e with
    | method m =>
      obtain ⟨number', inst', cls', ref', d', hd', rfl⟩ := (method_mem_offersOf builtins).mp heoffer
      obtain rfl := hnames _ hd'.inst_mem _ hd'.cls_mem _ hd.inst_mem _ hd.cls_mem hclass
      obtain ⟨-, hfound, -⟩ := ShaderClass.mem_methods.mp hd.mem
      obtain ⟨-, hfound', -⟩ := ShaderClass.mem_methods.mp hd'.mem
      rw [show ref'.decl = ref.decl from hdecl] at hfound'
      cases hfound.symm.trans hfound'
      exact canCall_entry hmixes he hename rfl (hcallable rfl)
    | «variable» m home =>
      obtain ⟨number', inst', cls', ref', d', hd', -, rfl⟩ := (variable_mem_offersOf builtins horderly).mp heoffer
      obtain rfl := hnames _ hd'.inst_mem _ hd'.cls_mem _ hd.inst_mem _ hd.cls_mem hclass
      exact absurd hd' (hd.not_hasVariable (Eq.symm hdecl))
    | struct | buffer => cases hekey

theorem canCall_implementation (hinst : instances[number]? = some inst) {name : String}
    (himplements : Implements inst.label inst.table ref name)
    (hbody : ∀ d, inst.table.decl? ref = some d → d.body?.isSome = true) :
    (emit builtins instances).1.CanCall name := by
  have hinst_orderly := horderly inst (mem_of_getElem? hinst)
  obtain ⟨slot, cls, d, hslot, href, hcls, hd, rfl⟩ := himplements
  obtain ⟨cls', d', hcls', hd', -⟩ := Names.slot_of_mem hinst_orderly.lists hslot href
  cases hcls.symm.trans hcls'
  cases hd.symm.trans (ShaderClass.mem_methods.mp hd').2.1
  refine canCall_method hlog horderly hnames hmixes ⟨hinst, hcls, hd'⟩ (hbody d ?_)
    (methodName?_memberOf builtins instances number hinst_orderly hslot href hcls hd)
  rw [MemberTable.decl?, hcls]
  exact hd

theorem canCall_final (hi : inst ∈ instances) {called name : String}
    (hmethod : inst.names.methods.lookup called = some name) : (emit builtins instances).1.CanCall name := by
  obtain ⟨number, hinst⟩ := mem_iff_getElem?.mp hi
  have hinst_orderly := horderly inst hi
  rw [hinst_orderly.names] at hmethod
  obtain ⟨slot, ref, hslot, -, hfinal, himplements⟩ := Names.lookup_methods hmethod
  refine canCall_implementation hlog horderly hnames hmixes hinst himplements fun d hd => ?_
  have href : ref ∈ slot.implementations := mem_of_getLast? hfinal
  obtain ⟨cls, d', hcls, hd', hname⟩ := Names.slot_of_mem hinst_orderly.lists hslot href
  have htable := (ShaderClass.mem_methods.mp hd').2.1
  obtain rfl : d' = d := by
    rw [MemberTable.decl?, hcls] at hd
    exact Option.some.inj (htable.symm.trans hd)
  have hoffer := (method_mem_offersOf builtins).mpr ⟨number, inst, cls, ref, d', ⟨hinst, hcls, hd'⟩, rfl⟩
  have hcomplete := (emit_spec hlog).1.complete _ hoffer
  have hmethod? : inst.table.method? d'.name = some slot := by
    rw [hinst_orderly.lists.method?_eq_some]
    exact ⟨hname.symm, hname ▸ (hinst_orderly.lists.slots slot).mp hslot⟩
  have hisFinal : (memberOf builtins instances number inst cls ref d').isFinal = true := by
    simp [Member.isFinal, memberOf, hmethod?, hfinal]
  rw [Offer.isComplete, hisFinal,
    methodName?_memberOf builtins instances number hinst_orderly hslot href hcls htable] at hcomplete
  simpa [memberOf] using hcomplete

/-! ## Calls in the mixed shader -/

variable (hids : (builtins.map Module.id).Nodup) (hplain : PlainCalls builtins instances)

include hids hplain

theorem canCall_of_becomes (hd : HasMethod instances number inst cls ref d) {spot : Spot}
    (hspot : spot ∈ d.spots) (hcleared : Cleared builtins inst spot) {noted : List BuiltinRef}
    (hnoted : ∀ used ∈ noted, refKey used ∈ refs.map refKey) {c : Callee} (hc : c ∈ spot.expr.calls) {n : String}
    (hfree : spot.scope.lookup n ≠ some .value)
    (hbecomes : Becomes (memberOf builtins instances number inst cls ref d).env spot.scope noted c n) :
    (emit builtins instances).1.CanCall n := by
  have hsite := hplain.sites _ (hd.mem_callSites hspot hc)
  have hinst := hd.inst_mem
  have hown : (memberOf builtins instances number inst cls ref d).env.instance? = some inst := hd.inst_eq
  cases hbecomes with
  | bound hbound =>
    obtain ⟨b, hb⟩ := Option.isSome_iff_exists.mp hbound
    cases b with
    | value => exact absurd hb hfree
    | loop => exact absurd hb (hsite.loop n rfl)
  | kept hunbound hmember hused =>
    rcases (hcleared hsite.aside n hc).resolve_left (by simp [hunbound]) with
      hmethod | hbuiltin | hintrinsic | hnumeric | ⟨cls', hcls', e, he, hstruct, rfl⟩
    · rw [hown, Option.bind_some] at hmember
      obtain ⟨renamed, hrenamed⟩ := Option.isSome_iff_exists.mp ((horderly inst hinst).methods_isSome hmethod)
      rw [Names.member?, hrenamed] at hmember
      cases hmember
    · obtain ⟨⟨m, id⟩, hmem⟩ := Option.isSome_iff_exists.mp hbuiltin
      obtain ⟨builtin, hbuiltin, -⟩ := builtinNamed?_eq_some hmem
      refine canCall_builtin hmixes hids hmem (hnoted _ (hused _ hmem)) ?_
      rw [hbuiltin]
      exact hsite.builtin n rfl builtin hbuiltin
    · exact .inl hintrinsic
    · exact .inr (.inl hnumeric)
    · obtain ⟨place, hplace⟩ := mem_iff_getElem?.mp hcls'
      obtain ⟨⟨struct, id⟩, hentry, rfl⟩ := mem_map.mp he
      have htable := mk_mem_zipIdx_iff_getElem?.mp hentry
      exact canCall_struct hmixes horderly hd.inst_eq hplace (by simpa using htable) hstruct
  | own hi hmember =>
    cases hown.symm.trans hi
    exact canCall_final hlog horderly hnames hmixes hinst (MixInstance.methods_of_member? hmember (hsite.name _ rfl))
  | member _ hi hmember =>
    exact canCall_final hlog horderly hnames hmixes hi
      (MixInstance.methods_of_member? hmember (hsite.member rfl _ hi))
  | @base _ _ called _ hplace hget hbase =>
    cases hplace
    cases hd.inst_eq.symm.trans hget
    unfold RenameEnv.baseMember? at hbase
    split at hbase
    · next slot hslot =>
      obtain ⟨base, hbefore, hlookup⟩ := Option.bind_eq_some_iff.mp hbase
      rw [(horderly inst hinst).names, Names.lookup_implementations (horderly inst hinst).lists] at hlookup
      refine canCall_implementation hlog horderly hnames hmixes hd.inst_eq hlookup fun b hb => ?_
      refine hsite.base b ?_
      simp [CallSite.baseMethod?, Callee.receiver?, Callee.called, hslot, hbefore, hb]
    · next hslot =>
      have hnone : inst.names.methods.lookup called = none := (horderly inst hinst).methods_eq_none hslot
      have hvariable := hsite.member rfl inst hinst
      simp [MixInstance.isVariable, Callee.called, hnone, hbase] at hvariable
  | stream => exact absurd rfl hsite.stream

theorem entry_calls (hcleared : ∀ number inst cls ref d, HasMethod instances number inst cls ref d →
      ∀ spot ∈ d.spots, Cleared builtins inst spot) {e : Offer} (he : e ∈ entriesOf builtins instances)
    {n : String} (hn : n ∈ (e.placed (entriesOf builtins instances)).freeCalls) :
    (emit builtins instances).1.CanCall n := by
  have hoffer := (entries_sublist _).subset he
  cases hmethod : (e.placed (entriesOf builtins instances)).isMethod with
  | false =>
    rw [Decl.freeCalls_of_not_isMethod hmethod] at hn
    cases hn
  | true =>
    obtain ⟨m, rfl⟩ := (Offer.placed_isMethod (fits_of_offered horderly hoffer)).mp hmethod
    obtain ⟨number, inst, cls, ref, d, hd, rfl⟩ := (method_mem_offersOf builtins).mp hoffer
    obtain ⟨spot', hspot', hcall, hfree⟩ := Decl.mem_freeCalls.mp hn
    obtain ⟨spot, hspot, harises⟩ := decl_arises _ _ (bounded_startState d) spot' hspot'
    obtain ⟨c, hc, hbecomes⟩ := harises.calls n hcall
    have haside : spot.isAside = false := (hplain.sites _ (hd.mem_callSites hspot hc)).aside
    refine canCall_of_becomes hlog horderly hnames hmixes hids hplain hd hspot
      (hcleared _ _ _ _ _ hd spot hspot) (hmixes.entries _ he) hc ?_ (hbecomes.resolve_left (by simp [haside]))
    intro hvalue
    have hbound := harises.covers n hvalue
    rw [hfree] at hbound
    cases hbound

omit hlog horderly hnames in
theorem builtin_calls {used : BuiltinRef} (hused : used ∈ refs) {b : Decl}
    (hb : builtinDecl? (builtinEnv builtins instances) used = some b) {n : String} (hn : n ∈ b.freeCalls) :
    (emit builtins instances).1.CanCall n := by
  obtain ⟨source, hsource, rfl⟩ := Option.map_eq_some_iff.mp hb
  obtain ⟨name, hknown⟩ := hmixes.known used hused
  obtain ⟨hm, d, hd, -⟩ := builtinMember?_eq_some hknown
  cases hsource.symm.trans (ShaderClass.mem_memberDecls.mp hd).2
  obtain ⟨spot', hspot', hcall, hfree⟩ := Decl.mem_freeCalls.mp hn
  obtain ⟨spot, hspot, harises⟩ := decl_arises (builtinEnv builtins instances) source (s := {}) nofun spot' hspot'
  obtain ⟨c, hc, hbecomes⟩ := harises.calls n hcall
  obtain ⟨haside, hcalled⟩ := hplain.builtins used.1 hm _ hd spot hspot c hc
  cases hbecomes.resolve_left (by simp [haside]) with
  | bound hbound =>
    rcases hcalled n rfl with hvalue | ⟨hnone, -⟩
    · have hstill := harises.covers n hvalue
      rw [hfree] at hstill
      cases hstill
    · rw [hnone] at hbound
      cases hbound
  | kept hunbound _ hnoted =>
    rcases hcalled n rfl with hvalue | ⟨-, hintrinsic | hnumeric | hbuiltin⟩
    · cases hunbound.symm.trans hvalue
    · exact .inl hintrinsic
    · exact .inr (.inl hnumeric)
    · obtain ⟨decl, hdecl, -⟩ := (Option.any_eq_true _ _).mp hbuiltin
      obtain ⟨other, hother, -⟩ := Option.bind_eq_some_iff.mp hdecl
      exact canCall_builtin hmixes hids hother
        (hmixes.builtins used hused source hsource other (hnoted other hother)) hbuiltin
  | own hi => cases hi
  | member hplaced => cases hplaced
  | base hplace => cases hplace
  | stream hplaced => cases hplaced

end

theorem emit_closed (hlog : (emit builtins instances).2.hasErrors = false)
    (horderly : ∀ i ∈ instances, i.Orderly) (hnames : ClassesByName instances)
    (hids : (builtins.map Module.id).Nodup) (hplain : PlainCalls builtins instances)
    (hcleared : ∀ number inst cls ref d, HasMethod instances number inst cls ref d →
      ∀ spot ∈ d.spots, Cleared builtins inst spot) : (emit builtins instances).1.Closed := by
  obtain ⟨refs, hmixes⟩ := emit_mixes hlog
  intro d hd n hn
  rcases (hmixes.decls d).mp hd with ⟨used, hused, hb⟩ | ⟨e, he, -, rfl⟩
  · exact builtin_calls hmixes hids hplain hused hb hn
  · exact entry_calls hlog horderly hnames hmixes hids hplain hcleared he hn

end

end Mix

end ShaderCompose
