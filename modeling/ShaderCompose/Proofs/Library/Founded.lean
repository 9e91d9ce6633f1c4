import ShaderCompose.Proofs.Library.Ends
import ShaderCompose.Proofs.Library.Faithful

/-!
Which classes can be loaded: those whose bases are declared all the way down.
-/

namespace ShaderCompose

open Relation (ReflTransGen TransGen)
open List Loading

def IsReserved (name : String) : Prop := "Mixin_".toList <+: name.toList

instance (name : String) : Decidable (IsReserved name) := inferInstanceAs (Decidable (_ <+: _))

theorem isReserved_mixinName (refs : List ClassRef) : IsReserved (mixinName refs) := by
  unfold IsReserved mixinName
  rw [String.toList_append]
  exact prefix_append _ _

/-! ## Declared classes -/

namespace SourceStore

def Declares (store : SourceStore) (fill : Bool) (key : ModuleKey) (made : ShaderClass) : Prop :=
  ∃ file text cls log, store.fetch key.name = .ok file ∧ preprocessedText store key.macros file = .ok text ∧
    Reader.source text file.fileName = ([cls], log) ∧ log.hasErrors = false ∧
    cls.name = key.name ∧ cls.instantiate key.generics fill = .ok made

def IsBase (store : SourceStore) (fill : Bool) (b key : ModuleKey) : Prop :=
  ∃ made, store.Declares fill key made ∧ b ∈ baseKeysOf made key.macros

/-- The class is declared, and so is all that it inherits from. -/
inductive Founded (store : SourceStore) (fill : Bool) : ModuleKey → Prop
  | declared {key : ModuleKey} {made : ShaderClass} : store.Declares fill key made →
      (∀ b ∈ baseKeysOf made key.macros, Founded store fill b) → Founded store fill key

def OverCycle (store : SourceStore) (fill : Bool) (key : ModuleKey) : Prop :=
  ∃ k, TransGen (store.IsBase fill) k k ∧ ReflTransGen (store.IsBase fill) k key

def Unreserved (store : SourceStore) (macros : List MacroDef) : Prop :=
  ∀ name file text cls, store.fetch name = .ok file → preprocessedText store macros file = .ok text →
    cls ∈ (Reader.source text file.fileName).1 → ∀ b ∈ cls.bases, ¬ IsReserved b.name

variable {store : SourceStore} {fill : Bool} {key b : ModuleKey} {made other : ShaderClass} {c : LoadedClass}

theorem Declares.unique (h : store.Declares fill key made) (h' : store.Declares fill key other) : made = other := by
  obtain ⟨file, text, cls, log, hfile, htext, hsource, -, -, hmade⟩ := h
  obtain ⟨file', text', cls', log', hfile', htext', hsource', -, -, hmade'⟩ := h'
  cases hfile.symm.trans hfile'
  cases htext.symm.trans htext'
  cases hsource.symm.trans hsource'
  cases hmade.symm.trans hmade'
  rfl

theorem Declares.isSome (h : store.Declares fill key made) : (store.declared? fill key).isSome = true := by
  obtain ⟨file, text, cls, log, hfile, htext, hsource, hlog, hname, hmade⟩ := h
  unfold declared? classOfFile classOfText
  rw [Option.isSome_map, hfile]
  dsimp only [LoadPlan.quiet]
  rw [htext]
  dsimp only
  rw [hsource]
  dsimp only
  rw [hlog, if_neg Bool.false_ne_true, if_neg (not_not_intro hname), hmade, Option.isSome_some]

theorem declares_of_declared (h : store.declared? fill key = some c) :
    store.Declares fill key c.module.cls ∧ c.baseKeys = baseKeysOf c.module.cls key.macros := by
  obtain ⟨read, hread, rfl⟩ := Option.map_eq_some_iff.mp h
  obtain ⟨file, text, hfile, htext, hclass⟩ := classOfFile_eq_some hread
  obtain ⟨cls, hsource, hname, hmade, -⟩ := classOfText_eq_some hclass
  refine ⟨⟨file, text, cls, _, hfile, htext, Prod.ext hsource rfl, ?_, hname, hmade⟩, rfl⟩
  unfold classOfText at hclass
  dsimp only at hclass
  split at hclass
  · cases hclass
  · next hlog => simpa using hlog

theorem Unreserved.base (h : store.Unreserved key.macros) (hb : store.IsBase fill b key) : ¬ IsReserved b.name := by
  obtain ⟨made, ⟨file, text, cls, log, hfile, htext, hsource, -, -, hinstance⟩, hb⟩ := hb
  have hcls : cls ∈ (Reader.source text file.fileName).1 := by simp [hsource]
  have hplain := h key.name file text cls hfile htext hcls
  obtain ⟨base, hbase, rfl⟩ := mem_map.mp hb
  -- arguments are put into those of a base, and its name stays
  rcases ShaderClass.instantiate_cases hinstance with ⟨-, rfl⟩ | ⟨_, σ, -, -, rfl⟩
  · exact hplain base hbase
  · obtain ⟨plain, hmem, rfl⟩ := mem_map.mp hbase
    exact hplain plain hmem

namespace Founded

theorem of_declared (h : store.declared? fill key = some c)
    (hbases : ∀ b ∈ c.baseKeys, store.Founded fill b) : store.Founded fill key := by
  obtain ⟨hmade, hkeys⟩ := declares_of_declared h
  exact .declared hmade (hkeys ▸ hbases)

theorem base (h : store.Founded fill key) (hb : store.IsBase fill b key) : store.Founded fill b := by
  obtain ⟨hmade, hbases⟩ := h
  obtain ⟨other, hother, hb⟩ := hb
  rw [hother.unique hmade] at hb
  exact hbases b hb

theorem irrefl (h : store.Founded fill key) : ¬ TransGen (store.IsBase fill) key key := by
  induction h with
  | declared hmade _ ih =>
    intro hcycle
    obtain ⟨b, hback, other, hother, hb⟩ := TransGen.tail'_iff.mp hcycle
    exact ih b (hother.unique hmade ▸ hb) (TransGen.head' ⟨other, hother, hb⟩ hback)

theorem not_overCycle (h : store.Founded fill key) : ¬ store.OverCycle fill key := by
  rintro ⟨k, hcycle, hpath⟩
  induction hpath with
  | refl => exact h.irrefl hcycle
  | tail _ hb ih => exact ih (h.base hb)

end Founded

end SourceStore

/-! ## What a load settles -/

/-- What was settled so far is right. -/
structure Loading.Justified (store : SourceStore) (plan : LoadPlan) (s : Loading) : Prop where
  cached : ∀ e ∈ s.library.cache, store.Founded plan.fill e.1
  loaded : store.Unreserved plan.macros → ∀ key, (s.loaded.lookup key).isSome = true →
    IsReserved key.name ∨ store.Founded plan.fill key
  failed : s.exhausted = false → ∀ key ∈ s.failed, ¬ store.Founded plan.fill key

namespace Loading.Justified

variable {store : SourceStore} {plan : LoadPlan} {s : Loading} {key : ModuleKey}

theorem add (h : s.Justified store plan) {c : LoadedClass}
    (hkey : store.Unreserved plan.macros → IsReserved key.name ∨ store.Founded plan.fill key) :
    (s.add key c).Justified store plan :=
  { h with
    loaded := fun hnames k hk => by
      rw [Loading.add, lookup_setKey] at hk
      split at hk
      · next heq => exact heq ▸ hkey hnames
      · exact h.loaded hnames k hk }

theorem read (h : s.Justified store plan) : (s.read plan key).2.Justified store plan :=
  ⟨fun e he => h.cached e ((s.read_frame plan key).1 he), h.loaded, h.failed⟩

theorem finish (h : s.Justified store plan) {r : ReadClass} {bases : List LoadedClass}
    (hkey : key.macros = plan.macros) (unkept : s.library.cached? key = none)
    (hread : store.declared? plan.fill key = some (madeClass plan key r [] 0))
    (hbases : ∀ b ∈ baseKeysOf r.cls plan.macros, (s.loaded.lookup b).isSome = true) :
    (finishClass plan key r bases s).2.Justified store plan := by
  have hfounded : store.Unreserved plan.macros → IsReserved key.name ∨ store.Founded plan.fill key := by
    intro hnames
    obtain ⟨hmade, hkeys⟩ := SourceStore.declares_of_declared hread
    refine .inr (.of_declared hread fun b hb => (h.loaded hnames b (hbases b hb)).resolve_left ?_)
    exact SourceStore.Unreserved.base (hkey ▸ hnames) ⟨_, hmade, hkeys ▸ hb⟩
  have hnext : ∀ number, (s.await (madeClass plan key r bases number).slotKeys).takeNumber.Justified store plan :=
    fun _ => ⟨h.cached, h.loaded, h.failed⟩
  rcases finishClass_cases plan r bases unkept rfl with heq | ⟨hkept, heq⟩ <;> rw [heq]
  · exact (hnext _).add hfounded
  · refine { (hnext s.library.next).add hfounded with cached := fun e he => ?_ }
    rcases mem_setKey he with rfl | he
    · -- a class is kept only if all its bases are
      refine .of_declared hread fun b hb => ?_
      obtain ⟨kept, _, hb, -, -⟩ := hkept b hb
      exact h.cached _ (mem_of_lookup hb)
    · exact h.cached e he

end Loading.Justified

theorem isBase_of_inheritsBy {store : SourceStore} {plan : LoadPlan} {b key : ModuleKey}
    (h : InheritsBy plan (fun key read =>
      store.declared? plan.fill key = some (madeClass plan key read [] 0)) b key) :
    store.IsBase plan.fill b key := by
  obtain ⟨r, hr, hb⟩ := h
  obtain ⟨hmade, hkeys⟩ := SourceStore.declares_of_declared hr
  exact ⟨_, hmade, hkeys ▸ hb⟩

theorem justified_invariant (plan : LoadPlan) (bound : Nat) (store : SourceStore) :
    RequestInvariant plan bound (fun key => key.macros = plan.macros)
      (fun key read => store.declared? plan.fill key = some (madeClass plan key read [] 0))
      (fun s => s.FaithfulTo store plan.fill ∧ s.Justified store plan) where
  cyclic _ _ _ _ h := ⟨⟨h.1.sources, h.1.library⟩, h.2.cached, h.2.loaded, h.2.failed⟩
  empty _ h := ⟨⟨h.1.sources, h.1.library⟩, h.2.cached, h.2.loaded, h.2.failed⟩
  giveUp _ _ _ _ _ h := ⟨⟨h.1.sources, h.1.library⟩, h.2.cached, h.2.loaded, fun hfine => by cases hfine⟩
  fail s key hkey _ hwhy h := by
    refine ⟨⟨h.1.sources, h.1.library⟩, h.2.cached, h.2.loaded, fun hfine =>
      forall_mem_cons.mpr ⟨fun hfounded => ?_, h.2.failed hfine⟩⟩
    rcases hwhy with hgiven | ⟨u, hu, hread⟩ | ⟨b, hb, hfailed | hcycle⟩
    · exact absurd (hfine.symm.trans hgiven) Bool.false_ne_true
    · obtain ⟨hmade, -⟩ := hfounded
      have hdeclared := hmade.isSome
      rw [(hu.1.read hkey).2, hread] at hdeclared
      cases hdeclared
    · exact h.2.failed hfine b hfailed (hfounded.base (isBase_of_inheritsBy hb))
    · refine (hfounded.base (isBase_of_inheritsBy hb)).irrefl ?_
      exact TransGen.mono (fun _ _ => isBase_of_inheritsBy) b b hcycle
  await _ _ _ h := ⟨⟨h.1.sources, h.1.library⟩, h.2.cached, h.2.loaded, h.2.failed⟩
  take s key c _ _ hc h := by
    have hnext : (s.await c.dependencies).Justified store plan := ⟨h.2.cached, h.2.loaded, h.2.failed⟩
    exact ⟨⟨h.1.sources, h.1.library⟩, hnext.add fun _ => .inr (h.2.cached _ (mem_of_lookup hc))⟩
  read s key hkey _ _ h := by
    obtain ⟨hnext, hdeclared⟩ := h.1.read hkey
    refine ⟨⟨hnext, h.2.read⟩, fun r hr => ?_⟩
    rw [hdeclared, hr, Option.map_some]
  base _ _ _ b hb := by
    obtain ⟨_, -, rfl⟩ := mem_map.mp hb
    rfl
  finish _ _ _ _ hkey hread _ unkept hbases h :=
    ⟨h.1.finish unkept hread, h.2.finish hkey unkept hread (isSome_of_loadedBases hbases)⟩
  mixin s refs _ _ _ h := by
    have hnext : s.takeNumber.Justified store plan := ⟨h.2.cached, h.2.loaded, h.2.failed⟩
    exact ⟨⟨h.1.sources, h.1.library.cache, h.1.library.texts⟩, hnext.add fun _ => .inl (isReserved_mixinName refs)⟩

/-! ## Whole loads -/

namespace Library

inductive LoadedFrom (store : SourceStore) (fill : Bool) : Library → Prop
  | new (next : Nat) : store.read = [] → LoadedFrom store fill { store, next }
  | load {l : Library} (plan : LoadPlan) (r : Request) : plan.fill = fill → LoadedFrom store fill l →
      LoadedFrom store fill (l.loadBy plan r).library
  | evict {l : Library} (names : List String) : LoadedFrom store fill l → LoadedFrom store fill (l.evict names)

variable {store : SourceStore} {fill : Bool} {l : Library}

theorem LoadedFrom.reachable (h : l.LoadedFrom store fill) : l.Reachable := by
  induction h with
  | new next _ => exact .new store next
  | load plan r _ _ ih => exact .load plan r ih
  | evict names _ ih => exact .evict names ih

theorem loadBy_justified {plan : LoadPlan} (h : l.Reachable)
    (hfaithful : ({ library := l } : Loading).FaithfulTo store plan.fill)
    (hcached : ∀ e ∈ l.cache, store.Founded plan.fill e.1) (r : Request) :
    (l.loadBy plan r).FaithfulTo store plan.fill ∧ (l.loadBy plan r).Justified store plan := by
  obtain ⟨bound, hbound⟩ := l.exists_loadWithin plan r
  rw [hbound]
  have hstart : ({ library := l } : Loading).Sound [] plan.macros := .start h.sound.1 (by simpa using h.sound.2)
  have hjustified : ({ library := l } : Loading).Justified store plan :=
    ⟨hcached, (fun _ _ hk => by cases hk), fun _ => forall_mem_nil _⟩
  exact (loadWithin_invariant ((sound_invariant plan bound []).and (justified_invariant plan bound store))
    (fun s hs => hs.1.waiting)
    (fun s rest hrest hs => ⟨{ hs.1 with waiting := fun k hk => hs.1.waiting k (hrest hk) },
      ⟨hs.2.1.sources, hs.2.1.library⟩, hs.2.2.cached, hs.2.2.loaded, hs.2.2.failed⟩)
    (fun _ _ => rfl) ⟨hstart, hfaithful, hjustified⟩).2

theorem LoadedFrom.justified (h : l.LoadedFrom store fill) :
    ({ library := l } : Loading).FaithfulTo store fill ∧ ∀ e ∈ l.cache, store.Founded fill e.1 := by
  induction h with
  | new next hread => exact ⟨⟨.refl store, .empty rfl hread⟩, forall_mem_nil _⟩
  | load plan r hfill h ih =>
    subst hfill
    obtain ⟨hfaithful, hjustified⟩ := loadBy_justified h.reachable ih.1 ih.2 r
    exact ⟨⟨hfaithful.sources, hfaithful.library⟩, hjustified.cached⟩
  | @evict l names _ ih =>
    exact ⟨ih.1.evict_all [names], fun e he => ih.2 e (l.evict_cache_subset names he)⟩

/-- If no class inherits from a reserved name, what a load settles is loaded if and only if it is
founded. -/
theorem loaded_iff_founded (h : l.LoadedFrom store fill) (plan : LoadPlan) (hfill : plan.fill = fill)
    (hnames : store.Unreserved plan.macros) (r : Request) :
    (∀ node ∈ r.nodes, ∀ c, node.classes = [c] →
      (l.loadBy plan r).isSettled (c.key plan.macros) = true) ∧
    (∀ key ∈ (l.loadBy plan r).parsed, (l.loadBy plan r).isSettled key = true) ∧
    (∀ e ∈ (l.loadBy plan r).loaded, ∀ d ∈ e.2.dependencies, (l.loadBy plan r).isSettled d = true) ∧
    (∀ key, (l.loadBy plan r).isSettled key = true → ¬ IsReserved key.name →
      (((l.loadBy plan r).loaded.lookup key).isSome = true ↔ store.Founded fill key)) ∧
    (∀ key, ((l.loadBy plan r).loaded.lookup key).isSome = true → ¬ IsReserved key.name →
      ¬ store.OverCycle fill key) ∧
    ∀ e ∈ (l.loadBy plan r).library.cache, ¬ store.OverCycle fill e.1 := by
  subst hfill
  have hgrounded := h.reachable.sound.1
  have hj := (loadBy_justified h.reachable h.justified.1 h.justified.2 r).2
  obtain ⟨-, hnodes, hdependencies⟩ := loadBy_settled hgrounded plan r
  have hloaded : ∀ key, ((l.loadBy plan r).loaded.lookup key).isSome = true →
      ¬ IsReserved key.name → store.Founded plan.fill key :=
    fun key hkey hname => (hj.loaded hnames key hkey).resolve_left hname
  refine ⟨fun node hnode c hc => ?_, fun key hkey => ?_, hdependencies,
    fun key hkey hname => ⟨fun hk => hloaded key hk hname, fun hfounded => ?_⟩,
    fun key hkey hname => (hloaded key hkey hname).not_overCycle,
    fun e he => (hj.cached e he).not_overCycle⟩
  · rcases hnodes node hnode with ⟨-, hmany⟩ | ⟨key, hkey, hsettled⟩
    · exact absurd (congrArg List.length hc) hmany
    · rw [node.key?_eq, hc] at hkey
      exact Option.some.inj hkey ▸ hsettled
  · exact ((l.loadBy_tracked plan r).settled key hkey).resolve_right List.not_mem_nil
  · rcases Bool.or_eq_true_iff.mp hkey with hkey | hkey
    · exact hkey
    · exact absurd hfounded (hj.failed (loadBy_exhausted hgrounded plan r) key (List.contains_iff_mem.mp hkey))

def hierarchySources : SourceStore where
  inMemory :=
    [("Base", "shader Base { };"), ("Derived", "shader Derived : Base { };"),
     ("Left", "shader Left : Right { };"), ("Over", "shader Over : Left { };"),
     ("Right", "shader Right : Left { };")]

theorem hierarchySources_unreserved : hierarchySources.Unreserved [] := by
  have hplain : ∀ e ∈ hierarchySources.inMemory,
      ∀ text ∈ (preprocessedText hierarchySources [] ⟨e.1, none, e.2, .ofString e.2⟩).toOption,
      ∀ cls ∈ (Reader.source text (e.1 ++ ".mxsl")).1, ∀ b ∈ cls.bases, ¬ IsReserved b.name := by
    decide +kernel
  intro name file text cls hfile htext hcls
  obtain ⟨source, hsource, rfl⟩ : ∃ source, (name, source) ∈ hierarchySources.inMemory ∧
      file = ⟨name, none, source, .ofString source⟩ := by
    unfold SourceStore.fetch at hfile
    split at hfile
    · next source hsource =>
      cases hfile
      exact ⟨source, mem_of_lookup hsource, rfl⟩
    · cases hfile
  exact hplain _ hsource text (by rw [htext]; rfl) cls hcls

def hierarchyRequest : Request := .array [.single ⟨"Over", []⟩, .single ⟨"Derived", []⟩]

def hierarchyLoad : Loading :=
  ({ store := hierarchySources } : Library).loadBy (.quiet [] false) hierarchyRequest

theorem loaded_iff_founded_hierarchy :
    hierarchyLoad.parsed.length = 5 ∧
    (hierarchyLoad.loaded.lookup ⟨"Derived", [], []⟩).isSome = true ∧
    hierarchySources.Founded false ⟨"Derived", [], []⟩ ∧
    (hierarchyLoad.loaded.lookup ⟨"Over", [], []⟩).isSome = false ∧
    ¬ hierarchySources.Founded false ⟨"Over", [], []⟩ := by
  have hload := loaded_iff_founded (.new 0 rfl) (.quiet [] false) rfl
    hierarchySources_unreserved hierarchyRequest
  rw [← hierarchyLoad] at hload
  obtain ⟨hsettled, -, -, hiff, -, -⟩ := hload
  obtain ⟨hparsed, hderived, hover⟩ : hierarchyLoad.parsed.length = 5 ∧
      (hierarchyLoad.loaded.lookup ⟨"Derived", [], []⟩).isSome = true ∧
      (hierarchyLoad.loaded.lookup ⟨"Over", [], []⟩).isSome = false := by
    decide +kernel
  generalize hierarchyLoad = t at *
  have hfirst := hsettled (.single ⟨"Over", []⟩) List.mem_cons_self ⟨"Over", []⟩ rfl
  have hsecond := hsettled (.single ⟨"Derived", []⟩) (List.mem_cons_of_mem _ List.mem_cons_self)
    ⟨"Derived", []⟩ rfl
  refine ⟨hparsed, hderived, (hiff _ hsecond (by decide)).mp hderived, hover, fun h => ?_⟩
  have hloaded := (hiff _ hfirst (by decide)).mpr h
  exact absurd (hover.symm.trans hloaded) Bool.false_ne_true

def borrowingSources : SourceStore where
  inMemory := [("A", "shader A { };"), ("B", "shader B { };"), ("D", "shader D : Mixin_15260047 { };")]

def borrowingLoad : Loading := ({ store := borrowingSources } : Library).loadBy (.quiet [] false)
  (.mixin [⟨"D", []⟩] [("s", .mixin [⟨"A", []⟩, ⟨"B", []⟩] [] [])] [])

/-- The mixin of the request serves as the base of a class, which is loaded and not founded. -/
theorem mixin_serves_as_base : (∀ entry ∈ borrowingSources.inMemory, ¬ IsReserved entry.1) ∧
    borrowingLoad.log.hasErrors = false ∧ (borrowingLoad.loaded.lookup ⟨"D", [], []⟩).isSome = true ∧
    ¬ borrowingSources.Founded false ⟨"D", [], []⟩ := by
  obtain ⟨hnames, hlog, hloaded, hdeclared, hmixin⟩ :
      (∀ entry ∈ borrowingSources.inMemory, ¬ IsReserved entry.1) ∧ borrowingLoad.log.hasErrors = false ∧
      (borrowingLoad.loaded.lookup ⟨"D", [], []⟩).isSome = true ∧
      ((borrowingSources.declared? false ⟨"D", [], []⟩).any fun c =>
        c.baseKeys.contains ⟨"Mixin_15260047", [], []⟩) = true ∧
      (borrowingSources.declared? false ⟨"Mixin_15260047", [], []⟩).isSome = false := by decide +kernel
  refine ⟨hnames, hlog, hloaded, fun hfounded => ?_⟩
  obtain ⟨c, hc, hbase⟩ := (Option.any_eq_true _ _).mp hdeclared
  obtain ⟨hmade, hkeys⟩ := SourceStore.declares_of_declared hc
  obtain ⟨hdeclares, -⟩ := hfounded.base ⟨_, hmade, hkeys ▸ List.contains_iff_mem.mp hbase⟩
  exact Bool.false_ne_true (hmixin.symm.trans hdeclares.isSome)

end Library

end ShaderCompose
