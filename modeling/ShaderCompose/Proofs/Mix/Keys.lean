import ShaderCompose.Proofs.Mix.Spelling
import ShaderCompose.Proofs.Mix.Variables

/-!
The keys of parameters.
-/

namespace ShaderCompose

open List

namespace Mix

/-- A slot, and the place in it if it is an array. -/
structure PathStep where
  slot : String
  position : Option Nat

namespace PathStep

def text (s : PathStep) : String := "[".intercalate (s.slot :: s.position.toList.map fun n => toString n ++ "]")

def Plain (s : PathStep) : Prop := Reader.IsIdent s.slot

theorem not_mem_digits {n : Nat} {c : Char} (hc : c.isDigit = false) : c ∉ (toString n).toList := by
  rw [Nat.toString_eq_ofList_toDigits, String.toList_ofList]
  intro hmem
  rw [Nat.isDigit_of_mem_toDigits (by decide) (by decide) hmem] at hc
  cases hc

theorem text_injective {a b : PathStep} (ha : a.Plain) (hb : b.Plain) (h : a.text = b.text) : a = b := by
  have apart : ∀ {s : PathStep}, s.Plain →
      ∀ w ∈ s.slot :: s.position.toList.map (fun n => toString n ++ "]"), '[' ∉ w.toList := by
    intro s hs
    refine forall_mem_cons.mpr ⟨hs.not_mem rfl, ?_⟩
    intro w hw
    obtain ⟨n, -, rfl⟩ := mem_map.mp hw
    rw [String.toList_append, mem_append]
    rintro (hmem | hmem)
    · exact not_mem_digits rfl hmem
    · simp at hmem
  obtain ⟨slot, position⟩ := a
  obtain ⟨slot', position'⟩ := b
  obtain ⟨rfl, hpositions⟩ := List.cons.inj
    (intercalate_injective (by decide) (apart ha) (apart hb) (by simp) (by simp) h)
  cases position with
  | none => cases position' with
    | none => rfl
    | some n => simp at hpositions
  | some n => cases position' with
    | none => simp at hpositions
    | some n' =>
      have htext : toString n ++ "]" = toString n' ++ "]" := by simpa using hpositions
      have hlists := congrArg String.toList htext
      rw [String.toList_append, String.toList_append, append_cancel_right_eq, String.toList_inj] at hlists
      rw [numberWord_injective (congrArg ("id" ++ ·) hlists)]

theorem map_text_injective {p q : List PathStep} (hp : ∀ s ∈ p, s.Plain) (hq : ∀ s ∈ q, s.Plain)
    (h : p.map text = q.map text) : p = q := by
  induction p generalizing q with
  | nil => exact (map_eq_nil_iff.mp h.symm).symm
  | cons a p ih =>
    obtain ⟨b, q, rfl, hab, hrest⟩ := map_eq_cons_iff.mp h.symm
    rw [forall_mem_cons] at hp hq
    rw [text_injective hp.1 hq.1 hab.symm, ih hp.2 hq.2 hrest.symm]

theorem dot_not_mem_text {s : PathStep} (h : s.Plain) : '.' ∉ s.text.toList := by
  have hslot : '.' ∉ s.slot.toList := h.not_mem rfl
  unfold text
  cases s.position with
  | none => simpa using hslot
  | some n =>
    have hdigits : '.' ∉ (toString n).toList := not_mem_digits rfl
    simp only [Option.toList_some, map_cons, map_nil, String.intercalate_cons_cons,
      String.intercalate_singleton, String.toList_append, mem_append, not_or]
    exact ⟨⟨hslot, by decide⟩, hdigits, by decide⟩

end PathStep

def suffixOf : List PathStep → String
  | [] => ""
  | s :: path => "." ++ s.text ++ suffixOf path

theorem key_injective {cls cls' name name' : String} {path path' : List PathStep}
    (hcls : '.' ∉ cls.toList) (hcls' : '.' ∉ cls'.toList) (hname : '.' ∉ name.toList)
    (hname' : '.' ∉ name'.toList) (hpath : ∀ s ∈ path, s.Plain) (hpath' : ∀ s ∈ path', s.Plain)
    (h : cls ++ "." ++ name ++ suffixOf path = cls' ++ "." ++ name' ++ suffixOf path') :
    cls = cls' ∧ name = name' ∧ path = path' := by
  have words : ∀ (path : List PathStep) (name : String),
      name ++ suffixOf path = ".".intercalate (name :: path.map PathStep.text) := by
    intro path
    induction path with
    | nil => simp [suffixOf]
    | cons s path ih =>
      intro name
      rw [map_cons, String.intercalate_cons_cons, ← ih s.text, suffixOf]
      simp only [String.append_assoc]
  have apart : ∀ {cls name : String} {path : List PathStep}, '.' ∉ cls.toList → '.' ∉ name.toList →
      (∀ s ∈ path, s.Plain) → ∀ w ∈ cls :: name :: path.map PathStep.text, '.' ∉ w.toList := by
    intro cls name path hcls hname hpath
    refine forall_mem_cons.mpr ⟨hcls, forall_mem_cons.mpr ⟨hname, fun w hw => ?_⟩⟩
    obtain ⟨s, hs, rfl⟩ := mem_map.mp hw
    exact PathStep.dot_not_mem_text (hpath s hs)
  have key : ∀ (cls name : String) (path : List PathStep), cls ++ "." ++ name ++ suffixOf path =
      ".".intercalate (cls :: name :: path.map PathStep.text) := by
    intro cls name path
    rw [String.intercalate_cons_cons, ← words, String.append_assoc]
  rw [key, key] at h
  have hwords := intercalate_injective (by decide) (apart hcls hname hpath) (apart hcls' hname' hpath')
    (by simp) (by simp) h
  obtain ⟨hcls, hwords⟩ := List.cons.inj hwords
  obtain ⟨hname, hwords⟩ := List.cons.inj hwords
  exact ⟨hcls, hname, PathStep.map_text_injective hpath hpath' hwords⟩

/-! ## The paths of instances -/

def FilledSlot.step (slot : FilledSlot) (position : Nat) : PathStep :=
  ⟨slot.name, if slot.type.isArray then some position else none⟩

theorem FilledSlot.step_injective {slot : FilledSlot} (h : slot.type.isArray = true) {n n' : Nat}
    (hsame : slot.step n = slot.step n') : n = n' := by
  simpa [step, h] using hsame

theorem FilledSlot.takes_cases {slot : FilledSlot} {count : Nat} (h : slot.takes count = true) :
    slot.type.isArray = true ∨ count ≤ 1 := by
  unfold takes at h
  split at h
  · next length hlength =>
    left
    cases harray : slot.type.array with
    | none => simp [TypeRef.arrayLength?, harray] at hlength
    | some size => simp [TypeRef.isArray, harray]
  · simpa using h

theorem FilledSlot.keySuffix_eq (slot : FilledSlot) (outer : String) (position : Nat) :
    slot.keySuffix outer position = outer ++ suffixOf [slot.step position] := by
  unfold keySuffix step
  cases slot.type.isArray <;> simp [suffixOf, PathStep.text, String.append_assoc, toString]

structure Spread (outer : String) (s t : Collecting) (paths : List (List PathStep)) : Prop where
  suffixes : t.instances.map MixInstance.keySuffix =
    s.instances.map MixInstance.keySuffix ++ paths.map fun p => outer ++ suffixOf p
  plain : ∀ p ∈ paths, ∀ step ∈ p, step.Plain

namespace Spread

variable {outer : String} {s t u : Collecting} {ps qs : List (List PathStep)}

theorem nil (h : t.instances = s.instances) : Spread outer s t [] :=
  ⟨by rw [h, map_nil, append_nil], forall_mem_nil _⟩

theorem append (h : Spread outer s t ps) (h' : Spread outer t u qs) : Spread outer s u (ps ++ qs) where
  suffixes := by rw [h'.suffixes, h.suffixes, map_append, append_assoc]
  plain := forall_mem_append.mpr ⟨h.plain, h'.plain⟩

theorem through {slot : FilledSlot} (hslot : Reader.IsIdent slot.name) {position : Nat}
    (h : Spread (slot.keySuffix outer position) s t ps) :
    Spread outer s t (ps.map (slot.step position :: ·)) where
  suffixes := by
    rw [h.suffixes, map_map]
    congr 1
    refine map_congr_left fun p _ => ?_
    rw [slot.keySuffix_eq]
    simp [suffixOf, String.append_assoc]
  plain := by
    intro p hp
    obtain ⟨q, hq, rfl⟩ := mem_map.mp hp
    exact forall_mem_cons.mpr ⟨hslot, h.plain q hq⟩

end Spread

def Spreads (filled : Composition) (root : Module)
    (add : Module → (label keySuffix : String) → Collecting → Option Nat × Collecting) : Prop :=
  ∀ m label keySuffix s number t, InTree filled root m → add m label keySuffix s = (some number, t) →
    s.log <+: t.log ∧ (t.log.hasErrors = false → ∃ paths, paths.Nodup ∧ Spread keySuffix s t paths)

section

variable {c : Context} {filled : Composition} {root : Module}
  {add : Module → (label keySuffix : String) → Collecting → Option Nat × Collecting}

theorem collectValues_spreads (hadd : Spreads filled root add) {slot : FilledSlot}
    (hslot : Reader.IsIdent slot.name) (outer : String) :
    ∀ (ms : List Module) (position : Nat) (s t : Collecting) (numbers : List Nat), (∀ m ∈ ms, InTree filled root m) →
      collectValues add slot outer position ms s = (some numbers, t) →
      s.log <+: t.log ∧ (t.log.hasErrors = false → ∃ paths, Spread outer s t paths ∧
        (∀ p ∈ paths, ∃ n, position ≤ n ∧ p.head? = some (slot.step n)) ∧
        (numbers = [] → paths = []) ∧
        (slot.type.isArray = true ∨ numbers.length ≤ 1 → paths.Nodup)) := by
  intro ms
  induction ms with
  | nil =>
    intro position s t numbers _ h
    cases h
    exact ⟨prefix_refl _, fun _ => ⟨[], .nil rfl, forall_mem_nil _, fun _ => rfl, fun _ => nodup_nil⟩⟩
  | cons m ms ih =>
    intro position s t numbers hms h
    rw [forall_mem_cons] at hms
    rcases collectValues_cons h with ⟨-, number, u, more, hone, hrest, rfl⟩ | ⟨message, hrest⟩
    · obtain ⟨hlog, hpaths⟩ := hadd m _ _ s number u hms.1 hone
      obtain ⟨hlog', hmore⟩ := ih _ _ _ _ hms.2 hrest
      refine ⟨hlog.trans hlog', fun hquiet => ?_⟩
      obtain ⟨ps, hnodup, hps⟩ := hpaths (Log.quiet_of_prefix hlog' hquiet)
      obtain ⟨qs, hqs, hheads, hnone, hnodup'⟩ := hmore hquiet
      refine ⟨_, (hps.through hslot).append hqs, ?_, fun hnil => absurd hnil (cons_ne_nil _ _), fun hmany => ?_⟩
      · refine forall_mem_append.mpr ⟨fun p hp => ?_, fun p hp => ?_⟩
        · obtain ⟨q, -, rfl⟩ := mem_map.mp hp
          exact ⟨position, Nat.le_refl _, rfl⟩
        · obtain ⟨n, hn, hhead⟩ := hheads p hp
          exact ⟨n, Nat.le_of_succ_le hn, hhead⟩
      · rcases hmany with harray | hfew
        · refine nodup_append.mpr ⟨hnodup.map cons_injective, hnodup' (.inl harray), ?_⟩
          rintro p hp q hq rfl
          obtain ⟨r, -, rfl⟩ := mem_map.mp hp
          obtain ⟨n, hn, hhead⟩ := hheads _ hq
          have hsame := FilledSlot.step_injective harray (Option.some.inj hhead)
          omega
        · obtain rfl : more = [] := by simpa using hfew
          rw [hnone rfl, append_nil]
          exact hnodup.map cons_injective
    · obtain ⟨hlog, hpaths⟩ := ih _ _ _ _ hms.2 hrest
      refine ⟨(prefix_append _ _).trans hlog, fun hquiet => ?_⟩
      cases (hasErrors_report s _ _).symm.trans (Log.quiet_of_prefix hlog hquiet)

theorem collectSlots_spreads (hadd : Spreads filled root add) (outer : String) :
    ∀ (slots : List FilledSlot) (s t : Collecting) (made : List (String × Filling)),
      (∀ slot ∈ slots, ∀ m ∈ slot.values, InTree filled root m) →
      (∀ slot ∈ slots, Reader.IsIdent slot.name) → (slots.map FilledSlot.name).Nodup →
      collectSlots add outer slots s = (some made, t) →
      s.log <+: t.log ∧ (t.log.hasErrors = false → ∃ paths, paths.Nodup ∧ Spread outer s t paths ∧
        ∀ p ∈ paths, ∃ slot ∈ slots, ∃ n, p.head? = some (slot.step n)) := by
  intro slots
  induction slots with
  | nil =>
    intro s t made _ _ _ h
    cases h
    exact ⟨prefix_refl _, fun _ => ⟨[], nodup_nil, .nil rfl, forall_mem_nil _⟩⟩
  | cons slot slots ih =>
    intro s t made htree hwords hnames h
    rw [forall_mem_cons] at htree hwords
    rw [map_cons, nodup_cons] at hnames
    obtain ⟨numbers, u, w, more, hone, hsame, hrest, rfl⟩ := collectSlots_cons h
    obtain ⟨hlog, hpaths⟩ := collectValues_spreads hadd hwords.1 outer slot.values 0 s u numbers htree.1 hone
    obtain ⟨hlog', hmore⟩ := ih _ _ _ htree.2 hwords.2 hnames.2 hrest
    refine ⟨hlog.trans (hsame.2.1.trans hlog'), fun hquiet => ?_⟩
    have hquietw := Log.quiet_of_prefix hlog' hquiet
    obtain ⟨ps, hps, hheads, -, hnodup⟩ := hpaths (Log.quiet_of_prefix hsame.2.1 hquietw)
    obtain ⟨qs, hnodup', hqs, hheads'⟩ := hmore hquiet
    have hnodup := hnodup (FilledSlot.takes_cases (hsame.2.2 hquietw))
    refine ⟨ps ++ qs, nodup_append.mpr ⟨hnodup, hnodup', ?_⟩, hps.append ((Spread.nil hsame.1).append hqs), ?_⟩
    · rintro p hp q hq rfl
      obtain ⟨n, -, hhead⟩ := hheads p hp
      obtain ⟨other, hother, n', hhead'⟩ := hheads' p hq
      refine hnames.1 (mem_map.mpr ⟨other, hother, ?_⟩)
      exact congrArg PathStep.slot (Option.some.inj (hhead'.symm.trans hhead))
    · refine forall_mem_append.mpr ⟨fun p hp => ?_, fun p hp => ?_⟩
      · obtain ⟨n, -, hhead⟩ := hheads p hp
        exact ⟨slot, mem_cons_self, n, hhead⟩
      · obtain ⟨other, hother, hhead⟩ := hheads' p hp
        exact ⟨other, mem_cons_of_mem _ hother, hhead⟩

theorem map_keySuffix_modify (instances : List MixInstance) (number : Nat) (slots : List (String × Filling)) :
    (instances.modify number fun i => { i with slots }).map MixInstance.keySuffix =
      instances.map MixInstance.keySuffix := by
  refine ext_getElem? fun n => ?_
  rw [getElem?_map, getElem?_map, getElem?_modify]
  split
  · cases instances[n]? <;> rfl
  · cases instances[n]? <;> rfl

theorem collect_spreads (hslots : ∀ m, InTree filled root m →
      (∀ slot ∈ filledSlots filled m, Reader.IsIdent slot.name) ∧
        ((filledSlots filled m).map FilledSlot.name).Nodup) (depth : Nat) :
    Spreads filled root (collect c filled depth) := by
  induction depth with
  | zero =>
    intro m label keySuffix s number t _ h
    cases h
  | succ depth ih =>
    intro m label keySuffix s number t hm h
    obtain ⟨made, start, slots, u, -, hmade, hstart, hone, -, rfl⟩ := collect_succ h
    obtain ⟨hlog, hpaths⟩ := collectSlots_spreads ih keySuffix _ start u slots
      (fun slot hslot => inTree_of_mem_filledSlots hslot) (hslots m hm).1 (hslots m hm).2 hone
    have hself : Spread keySuffix s start [[]] := by
      rw [hstart, hmade]
      exact ⟨by simp [suffixOf], by simp⟩
    refine ⟨?_, fun hquiet => ?_⟩
    · rw [hstart] at hlog
      exact hlog
    · obtain ⟨paths, hnodup, hspread, hheads⟩ := hpaths hquiet
      refine ⟨[] :: paths, nodup_cons.mpr ⟨fun hnil => ?_, hnodup⟩, ?_⟩
      · obtain ⟨slot, -, n, hhead⟩ := hheads [] hnil
        cases hhead
      · have hall := hself.append hspread
        exact ⟨(map_keySuffix_modify ..).trans hall.suffixes, hall.plain⟩

theorem instancesOf_paths (hslots : ∀ m, InTree filled root m →
      (∀ slot ∈ filledSlots filled m, Reader.IsIdent slot.name) ∧ ((filledSlots filled m).map FilledSlot.name).Nodup)
    {instances : List MixInstance} (h : (instancesOf c filled root).1 = some instances)
    (hquiet : (instancesOf c filled root).2.hasErrors = false) :
    ∃ paths : List (List PathStep), paths.Nodup ∧ (∀ p ∈ paths, ∀ step ∈ p, step.Plain) ∧
      instances.map MixInstance.keySuffix = paths.map suffixOf := by
  obtain ⟨number, s, hone, rfl, hlog⟩ := instancesOf_eq_some h
  rw [hlog] at hquiet
  obtain ⟨-, hpaths⟩ := collect_spreads hslots (filled.length + 1) root "" "" {} number s (.inl rfl) hone
  obtain ⟨paths, hnodup, hspread⟩ := hpaths hquiet
  refine ⟨paths, hnodup, hspread.plain, ?_⟩
  simpa using hspread.suffixes

end

end Mix

/-! ## Keys in the shader -/

def Decl.linkText? (d : Decl) : Option String := (d.attr? "Link").bind Attribute.text?

namespace Mix

def keyAt (s : Shader) (i : DeclId) : Option String := (s.table[i]?).bind Decl.linkText?

def linkedVariables (s : Shader) (count : Nat) : Set DeclId :=
  {i | i ∈ ownVariables s count ∧ ∃ v, s.table[i]? = some v ∧ v.quals.isUnlinked = false}

theorem mem_linkedVariables {s : Shader} {count : Nat} {i : DeclId} :
    i ∈ linkedVariables s count ↔ i ∈ s.listed ∧ i < count ∧
      (s.table[i]?.any fun v => v.isVar && !v.isStream && !v.quals.isUnlinked) = true := by
  constructor
  · rintro ⟨⟨hlisted, hcount, v, hv, hvar, hstream⟩, w, hw, hlinked⟩
    cases hv.symm.trans hw
    exact ⟨hlisted, hcount, by simp [hv, hvar, hstream, hlinked]⟩
  · rintro ⟨hlisted, hcount, hany⟩
    obtain ⟨v, hv, hmarks⟩ := (Option.any_eq_true _ _).mp hany
    simp only [Bool.and_eq_true, Bool.not_eq_true'] at hmarks
    exact ⟨⟨hlisted, hcount, v, hv, hmarks.1⟩, v, hv, hmarks.2⟩

instance (s : Shader) (count : Nat) (i : DeclId) : Decidable (i ∈ linkedVariables s count) :=
  decidable_of_iff _ mem_linkedVariables.symm

def linkAttribute (key : String) : Attribute := { name := "Link", args := [.string .generated key] }

theorem find?_attrs (env : RenameEnv) {as : List Attribute} (h : ∀ a ∈ as, a.name ≠ "Link") (key : String)
    (s : RenameState) :
    ((env.attrs (as ++ [linkAttribute key])).run s).1.find? (fun a => a.name == "Link") =
      some (linkAttribute key) := by
  induction as generalizing s with
  | nil => rfl
  | cons a as ih =>
    rw [forall_mem_cons] at h
    rw [cons_append, RenameEnv.attrs, mapM_cons]
    refine (find?_cons_of_neg ?_).trans (ih h.2 _)
    simpa using h.1

theorem keyAttributes_of_none {as : List Attribute} (h : ∀ a ∈ as, a.name ≠ "Link") (cls name suffix : String) :
    keyAttributes as cls name suffix = as ++ [linkAttribute (cls ++ "." ++ name ++ suffix)] := by
  have hnone : (as.findIdx? fun a => a.name == "Link") = none := by
    rw [findIdx?_eq_none_iff]
    intro a ha
    simpa using h a ha
  rw [keyAttributes, hnone]
  rfl

def keyOf (inst : MixInstance) (cls : ShaderClass) (d : Decl) : String :=
  cls.name ++ "." ++ d.name ++ if isShared cls d then "" else inst.keySuffix

theorem keyOf_eq {inst : MixInstance} {p : List PathStep} (h : inst.keySuffix = suffixOf p)
    {cls : ShaderClass} {d : Decl} :
    keyOf inst cls d = cls.name ++ "." ++ d.name ++ suffixOf (if isShared cls d then [] else p) := by
  rw [keyOf, h]
  split <;> rfl

theorem linkText?_variable {m : Member} (home : Option String) (es : List Offer)
    (hstream : m.decl.isStream = false) (hlinked : m.decl.quals.isUnlinked = false)
    (hnone : ∀ a ∈ m.decl.attrs, a.name ≠ "Link") :
    ((Offer.variable m home).placed es).linkText? = some (keyOf m.inst m.cls m.decl) := by
  have hattrs : (Offer.variable m home).source.attrs =
      m.decl.attrs ++ [linkAttribute (keyOf m.inst m.cls m.decl)] := by
    rw [keyOf, ← keyAttributes_of_none hnone]
    simp [Offer.source, Member.variableAttrs, hstream, hlinked]
  have hfind : ((Offer.variable m home).placed es).attr? "Link" =
      some (linkAttribute (keyOf m.inst m.cls m.decl)) := by
    refine Eq.trans ?_ (find?_attrs m.env hnone _ {})
    rw [← hattrs]
    rfl
  rw [Decl.linkText?, hfind]
  rfl

/-- What makes the keys of instances different. -/
structure Keyed (instances : List MixInstance) : Prop where
  unlinked : ∀ i ∈ instances, ∀ cls ∈ i.table.classes, ∀ v ∈ cls.vars, ∀ a ∈ v.2.attrs, a.name ≠ "Link"
  words : ∀ i ∈ instances, ∀ cls ∈ i.table.classes, '.' ∉ cls.name.toList ∧ ∀ v ∈ cls.vars, '.' ∉ v.2.name.toList
  classes : ClassesByName instances
  hierarchy : ∀ i ∈ instances, (i.table.classes.map ShaderClass.name).Nodup
  members : ∀ i ∈ instances, ∀ cls ∈ i.table.classes, ∀ v ∈ cls.vars, ∀ w ∈ cls.vars, v.2.name = w.2.name → v.1 = w.1
  paths : ∃ paths : List (List PathStep), paths.Nodup ∧ (∀ p ∈ paths, ∀ step ∈ p, step.Plain) ∧
    instances.map MixInstance.keySuffix = paths.map suffixOf

section

variable {builtins : List Module} {instances : List MixInstance}

theorem exists_path {paths : List (List PathStep)}
    (h : instances.map MixInstance.keySuffix = paths.map suffixOf) {number : Nat} {inst : MixInstance}
    (hinst : instances[number]? = some inst) :
    ∃ p, paths[number]? = some p ∧ inst.keySuffix = suffixOf p := by
  have hfound : (paths.map suffixOf)[number]? = some inst.keySuffix := by
    rw [← h, getElem?_map, hinst, Option.map_some]
  rw [getElem?_map] at hfound
  obtain ⟨p, hp, hsuffix⟩ := Option.map_eq_some_iff.mp hfound
  exact ⟨p, hp, hsuffix.symm⟩

theorem Keyed.siteOf_eq (h : Keyed instances) {number number' : Nat} {inst inst' : MixInstance}
    {cls cls' : ShaderClass} {ref ref' : MemberRef} {d d' : Decl}
    (hd : HasVariable instances number inst cls ref d)
    (hd' : HasVariable instances number' inst' cls' ref' d') (hkey : keyOf inst cls d = keyOf inst' cls' d') :
    siteOf number cls ref d = siteOf number' cls' ref' d' := by
  obtain ⟨paths, hnodup, hplain, hsuffixes⟩ := h.paths
  obtain ⟨p, hp, hsuffix⟩ := exists_path hsuffixes hd.inst_eq
  obtain ⟨p', hp', hsuffix'⟩ := exists_path hsuffixes hd'.inst_eq
  have hinst := hd.inst_mem
  have hcls := hd.cls_mem
  have hwords := h.words inst hinst cls hcls
  have hinst' := hd'.inst_mem
  have hcls' := hd'.cls_mem
  have hwords' := h.words inst' hinst' cls' hcls'
  have plain : ∀ {p : List PathStep} {n : Nat} (shared : Bool), paths[n]? = some p →
      ∀ step ∈ if shared then [] else p, step.Plain := by
    intro p n shared hp
    cases shared with
    | true => exact forall_mem_nil _
    | false => exact hplain p (mem_of_getElem? hp)
  rw [keyOf_eq hsuffix, keyOf_eq hsuffix'] at hkey
  obtain ⟨hclass, hname, hpath⟩ := key_injective hwords.1 hwords'.1 (hwords.2 _ hd.mem)
    (hwords'.2 _ hd'.mem) (plain _ hp) (plain _ hp') hkey
  obtain rfl := h.classes inst hinst cls hcls inst' hinst' cls' hcls' hclass
  have hdecl : ref.decl = ref'.decl := h.members inst hinst cls hcls _ hd.mem _ hd'.mem hname
  obtain rfl := hd.decl_unique hd' hdecl
  unfold siteOf
  by_cases hshared : isShared cls d = true
  · rw [if_pos hshared, if_pos hshared, hdecl]
  · rw [if_neg hshared, if_neg hshared] at hpath
    have hnumber : number = number' := by
      refine (getElem?_inj (List.getElem?_eq_some_iff.mp hp).1 hnodup).mp ?_
      rw [hp, hp', hpath]
    subst hnumber
    cases hd.inst_eq.symm.trans hd'.inst_eq
    have hplace : ref.cls = ref'.cls := by
      have hnodup := (h.hierarchy inst hinst).of_map
      refine (getElem?_inj (List.getElem?_eq_some_iff.mp hd.cls_eq).1 hnodup).mp ?_
      exact hd.cls_eq.trans hd'.cls_eq.symm
    have href : ref = ref' := by
      cases ref
      cases ref'
      exact MemberRef.mk.injEq .. ▸ ⟨hplace, hdecl⟩
    rw [href]

variable (hlog : (emit builtins instances).2.hasErrors = false) (horderly : ∀ i ∈ instances, i.Orderly)

include hlog horderly

theorem keyAt_eq (hkeyed : Keyed instances) {i : DeclId}
    (hi : i ∈ linkedVariables (emit builtins instances).1 (ownCount builtins instances)) :
    ∃ number inst cls ref d, HasVariable instances number inst cls ref d ∧
      siteAt builtins instances i = siteOf number cls ref d ∧
      keyAt (emit builtins instances).1 i = some (keyOf inst cls d) := by
  obtain ⟨hown, v, hv, hlinked⟩ := hi
  obtain ⟨number, inst, cls, ref, d, home, hd, -, hstream, -, he⟩ := (mem_ownVariables hlog horderly).mp hown
  refine ⟨number, inst, cls, ref, d, hd, siteAt_eq he, ?_⟩
  have hplaced := getElem?_emit hlog he
  cases hv.symm.trans hplaced
  rw [keyAt, hplaced]
  refine linkText?_variable home _ hstream ?_ ?_
  · rw [← hlinked]
    exact (congrArg Qualifiers.isUnlinked (Offer.made_quals (.variable _ home))).symm
  · exact hkeyed.unlinked inst hd.inst_mem cls hd.cls_mem _ hd.mem

theorem keyAt_injOn (hkeyed : Keyed instances) : Set.InjOn (keyAt (emit builtins instances).1)
    (linkedVariables (emit builtins instances).1 (ownCount builtins instances)) := by
  intro i hi j hj hsame
  obtain ⟨number, inst, cls, ref, d, hd, hsite, hkey⟩ := keyAt_eq hlog horderly hkeyed hi
  obtain ⟨number', inst', cls', ref', d', hd', hsite', hkey'⟩ := keyAt_eq hlog horderly hkeyed hj
  refine siteAt_injOn hlog horderly hi.1 hj.1 ?_
  rw [hsite, hsite']
  rw [hkey, hkey'] at hsame
  exact hkeyed.siteOf_eq hd hd' (Option.some.inj hsame)

end

end Mix

end ShaderCompose
