import Mathlib.Data.List.Induction
import Mathlib.Data.List.Nodup
import ShaderCompose.Mix.Emit
import ShaderCompose.Proofs.Shader.Listed

/-!
What the members of the instances offer to the shader.
-/

namespace ShaderCompose

open List

def DeclKind.SameShape : DeclKind → DeclKind → Prop
  | .var .., .var .. => True
  | .method _ _ _ body, .method _ _ _ body' => body.isSome = body'.isSome
  | .struct _, .struct _ => True
  | .buffer kind members, .buffer kind' members' => kind = kind' ∧ members = members'
  | _, _ => False

namespace DeclKind.SameShape

theorem refl (k : DeclKind) : k.SameShape k := by
  cases k <;> trivial

variable {d d' : Decl}

theorem isVar (h : d.kind.SameShape d'.kind) : d'.isVar = d.isVar := by
  unfold Decl.isVar
  cases hd : d.kind <;> cases hd' : d'.kind <;> rw [hd, hd'] at h <;> first | rfl | exact h.elim

theorem isMethod (h : d.kind.SameShape d'.kind) : d'.isMethod = d.isMethod := by
  unfold Decl.isMethod
  cases hd : d.kind <;> cases hd' : d'.kind <;> rw [hd, hd'] at h <;> first | rfl | exact h.elim

theorem isStruct (h : d.kind.SameShape d'.kind) : d'.isStruct = d.isStruct := by
  unfold Decl.isStruct
  cases hd : d.kind <;> cases hd' : d'.kind <;> rw [hd, hd'] at h <;> first | rfl | exact h.elim

theorem body? (h : d.kind.SameShape d'.kind) : d'.body?.isSome = d.body?.isSome := by
  unfold Decl.body?
  cases hd : d.kind <;> cases hd' : d'.kind <;> rw [hd, hd'] at h <;>
    first | rfl | exact h.symm | exact h.elim

end DeclKind.SameShape

namespace Mix

/-- A declaration that a member offers to the shader. -/
inductive Offer where
  | variable (m : Member) (home : Option String)
  | method (m : Member)
  | struct (m : Member)
  | buffer (m : Member) (kind : BufferKind)

/-- What a second offer is dropped for. -/
inductive Key where
  | stream (name : String)
  | shared (name : String)
  | struct (name : String)
  | buffer (name : String)
  deriving DecidableEq

def membersOf (builtins : List Module) (instances : List MixInstance) : List Member :=
  instances.zipIdx.flatMap fun (inst, number) =>
    inst.table.classes.zipIdx.flatMap fun (cls, place) =>
      cls.memberDecls.map fun (id, decl) =>
        { env := ⟨builtins, instances, some ⟨number, place⟩⟩, inst, cls, ref := ⟨place, id⟩, decl }

namespace Member

def withDecl (m : Member) (id : DeclId) (d : Decl) : Member :=
  { m with ref := ⟨m.ref.cls, id⟩, decl := d }

def inner (m : Member) (ids : List DeclId) : List Offer :=
  ids.filterMap fun id =>
    (m.cls.table[id]?).map fun d => .variable (m.withDecl id d) (some m.decl.name)

def offers (m : Member) : List Offer :=
  match m.decl.kind with
  | .var .. => [.variable m none]
  | .method .. => [.method m]
  | .struct _ => [.struct m]
  | .buffer kind ids => .buffer m kind :: m.inner ids

def methodName? (m : Member) : Option String :=
  match m.inst.names.implementations.lookup m.ref, m.inst.table.method? m.decl.name with
  | some name, some _ => some name
  | _, _ => none

def isFinal (m : Member) : Bool :=
  (m.inst.table.method? m.decl.name).any fun slot => slot.final? == some m.ref

def entry? (m : Member) : Option Stage :=
  (m.inst.table.method? m.decl.name).bind fun slot =>
    if slot.final? == some m.ref then entryMark m.inst.table slot else none

def variableAttrs (m : Member) : List Attribute :=
  if m.decl.isStream then m.decl.attrs.filter fun a => a.name != "Link"
  else if m.decl.quals.isUnlinked then m.decl.attrs
  else
    keyAttributes m.decl.attrs m.cls.name m.decl.name (if isShared m.cls m.decl then "" else m.inst.keySuffix)

end Member

def Key.name : Key → String
  | .stream name | .shared name | .struct name | .buffer name => name

namespace Offer

def member : Offer → Member
  | .variable m _ | .method m | .struct m | .buffer m _ => m

def home : Offer → Option String
  | .variable _ home => home
  | _ => none

def name? : Offer → Option String
  | .variable m _ =>
    if m.decl.isComposition then none else some (variableName m.inst.label m.cls m.decl)
  | .method m => m.methodName?
  | .struct m | .buffer m _ => some m.decl.name

def keyOf (name : String) : Offer → Option Key
  | .variable m _ =>
    if m.decl.isStream then some (.stream name)
    else if isShared m.cls m.decl then some (.shared name)
    else none
  | .method m => if isShared m.cls m.decl then some (.shared name) else none
  | .struct _ => some (.struct name)
  | .buffer .. => some (.buffer name)

def key? (o : Offer) : Option Key := o.name?.bind fun name => o.keyOf name

theorem key?_cases {o : Offer} {k : Key} (h : o.key? = some k) : o.name? = some k.name ∧
    match k with
    | .stream _ => ∃ m home, o = .variable m home
    | .shared _ => (∃ m home, o = .variable m home) ∨ ∃ m, o = .method m
    | .struct _ => ∃ m, o = .struct m
    | .buffer name => ∃ m kind, o = .buffer m kind ∧ m.decl.name = name := by
  obtain ⟨name, hname, hkey⟩ := Option.bind_eq_some_iff.mp h
  cases o with
  | «variable» m home =>
    simp only [keyOf] at hkey
    split at hkey
    · cases hkey
      exact ⟨hname, m, home, rfl⟩
    · split at hkey <;> cases hkey
      exact ⟨hname, .inl ⟨m, home, rfl⟩⟩
  | method m =>
    simp only [keyOf] at hkey
    split at hkey <;> cases hkey
    exact ⟨hname, .inr ⟨m, rfl⟩⟩
  | struct m =>
    cases hkey
    exact ⟨hname, m, rfl⟩
  | buffer m kind =>
    cases hkey
    exact ⟨hname, m, kind, rfl, Option.some.inj hname⟩

def owner (o : Offer) : String × DeclId := (o.member.cls.name, o.member.ref.decl)

def isComplete : Offer → Bool
  | .method m => m.methodName?.isNone || !m.isFinal || m.decl.body?.isSome
  | _ => true

def source (o : Offer) : Decl :=
  let d := o.member.decl
  let name := o.name?.getD ""
  match o with
  | .variable m _ => { d with name, attrs := m.variableAttrs }
  | .method m => { d with name, entry := m.entry? }
  | .struct _ => d
  | .buffer _ kind => { name, loc := d.loc, attrs := d.attrs, kind := .buffer kind [] }

def renamed (o : Offer) : Decl × RenameState :=
  match o with
  | .variable m _ => (m.env.decl o.source).run {}
  | .method m => (m.env.decl o.source).run (startState m.decl)
  | .struct _ | .buffer .. => (o.source, {})

def made (o : Offer) : Decl := o.renamed.1

end Offer

def offersOf (builtins : List Module) (instances : List MixInstance) : List Offer :=
  (membersOf builtins instances).flatMap Member.offers

theorem index_unique {α β : Type} {f : α → Option β} {l : List α} (hnodup : (l.filterMap f).Nodup)
    {i j : Nat} {a b : α} {k : β} (hi : l[i]? = some a) (hj : l[j]? = some b) (ha : f a = some k)
    (hb : f b = some k) : i = j := by
  have hpairs := pairwise_iff_getElem.mp (pairwise_filterMap.mp hnodup)
  obtain ⟨hilt, rfl⟩ := List.getElem?_eq_some_iff.mp hi
  obtain ⟨hjlt, rfl⟩ := List.getElem?_eq_some_iff.mp hj
  rcases Nat.lt_trichotomy i j with hlt | heq | hgt
  · exact absurd rfl (hpairs i j hilt hjlt hlt k ha k hb)
  · exact heq
  · exact absurd rfl (hpairs j i hjlt hilt hgt k hb k ha)

/-! ## Entries -/

def keys (es : List Offer) : List Key := es.filterMap Offer.key?

def grow (es : List Offer) (o : Offer) : List Offer :=
  if o.name?.isSome && !(o.key?.any fun k => (keys es).contains k) then es ++ [o] else es

def entries (os : List Offer) : List Offer := os.foldl grow []

section

variable {es os : List Offer} {o : Offer}

theorem keys_append (es fs : List Offer) : keys (es ++ fs) = keys es ++ keys fs := filterMap_append

theorem grow_cases (es : List Offer) (o : Offer) :
    (grow es o = es ++ [o] ∧ o.name?.isSome = true ∧ ∀ k, o.key? = some k → k ∉ keys es) ∨
      (grow es o = es ∧ (o.name? = none ∨ ∃ k, o.key? = some k ∧ k ∈ keys es)) := by
  unfold grow
  cases hname : o.name? with
  | none => exact .inr ⟨by simp, .inl rfl⟩
  | some name =>
    cases hkey : o.key? with
    | none => exact .inl ⟨by simp, rfl, nofun⟩
    | some k =>
      by_cases hk : k ∈ keys es
      · exact .inr ⟨by simp [hk], .inr ⟨k, rfl, hk⟩⟩
      · refine .inl ⟨by simp [hk], rfl, ?_⟩
        rintro _ ⟨⟩
        exact hk

theorem prefix_grow (es : List Offer) (o : Offer) : es <+: grow es o := by
  rcases grow_cases es o with ⟨h, -⟩ | ⟨h, -⟩
  · exact h ▸ prefix_append es [o]
  · exact h.symm ▸ prefix_refl es

@[simp] theorem entries_nil : entries [] = [] := rfl

theorem entries_append_singleton (os : List Offer) (o : Offer) : entries (os ++ [o]) = grow (entries os) o := by
  simp [entries]

theorem entries_sublist (os : List Offer) : (entries os).Sublist os := by
  induction os using List.reverseRecOn with
  | nil => exact List.Sublist.refl _
  | append_singleton os o ih =>
    rw [entries_append_singleton]
    rcases grow_cases (entries os) o with ⟨h, -⟩ | ⟨h, -⟩
    · rw [h]
      exact ih.append (List.Sublist.refl _)
    · rw [h]
      exact ih.trans (sublist_append_left _ _)

theorem name?_of_mem_entries (h : o ∈ entries os) : o.name?.isSome = true := by
  induction os using List.reverseRecOn with
  | nil => cases h
  | append_singleton os new ih =>
    rw [entries_append_singleton] at h
    rcases grow_cases (entries os) new with ⟨hgrow, hname, -⟩ | ⟨hgrow, -⟩
    · rw [hgrow] at h
      rcases mem_append.mp h with h | h
      · exact ih h
      · rw [mem_singleton.mp h]
        exact hname
    · rw [hgrow] at h
      exact ih h

theorem nodup_keys_entries (os : List Offer) : (keys (entries os)).Nodup := by
  induction os using List.reverseRecOn with
  | nil => exact nodup_nil
  | append_singleton os o ih =>
    rw [entries_append_singleton]
    rcases grow_cases (entries os) o with ⟨h, -, hkey⟩ | ⟨h, -⟩
    · rw [h, keys_append]
      cases hk : o.key? with
      | none => simpa [keys, hk] using ih
      | some k =>
        have hone : keys [o] = [k] := by simp [keys, hk]
        rw [hone]
        refine nodup_append.mpr ⟨ih, nodup_singleton k, ?_⟩
        intro a ha b hb hab
        exact hkey k hk (mem_singleton.mp hb ▸ hab ▸ ha)
    · rw [h]
      exact ih

theorem mem_entries_of_offered (h : o ∈ os) (hname : o.name?.isSome = true) :
    o ∈ entries os ∨ ∃ k, o.key? = some k ∧ k ∈ keys (entries os) := by
  induction os using List.reverseRecOn with
  | nil => cases h
  | append_singleton os new ih =>
    rw [entries_append_singleton]
    have hgrown := prefix_grow (entries os) new
    rcases mem_append.mp h with h | h
    · rcases ih h with h | ⟨k, hk, h⟩
      · exact .inl (hgrown.subset h)
      · exact .inr ⟨k, hk, (hgrown.sublist.filterMap _).subset h⟩
    · rw [mem_singleton.mp h] at hname ⊢
      rcases grow_cases (entries os) new with ⟨hgrow, -⟩ | ⟨hgrow, hnone | ⟨k, hk, hmem⟩⟩
      · rw [hgrow]
        exact .inl (mem_append_right _ (mem_singleton_self _))
      · simp [hnone] at hname
      · rw [hgrow]
        exact .inr ⟨k, hk, hmem⟩

theorem mem_keys {k : Key} : k ∈ keys es ↔ ∃ e ∈ es, e.key? = some k := mem_filterMap

theorem mem_entries_of_keyless (h : o ∈ os) (hname : o.name?.isSome = true) (hkey : o.key? = none) :
    o ∈ entries os := by
  rcases mem_entries_of_offered h hname with h | ⟨k, hk, -⟩
  · exact h
  · cases hkey.symm.trans hk

theorem eq_of_key {i j : Nat} {a b : Offer} {k : Key} (hi : (entries os)[i]? = some a)
    (hj : (entries os)[j]? = some b) (ha : a.key? = some k) (hb : b.key? = some k) : i = j :=
  index_unique (nodup_keys_entries os) hi hj ha hb

theorem find?_entries (os : List Offer) (k : Key) :
    (entries os).find? (fun o => o.key? == some k) = os.find? (fun o => o.key? == some k) := by
  induction os using List.reverseRecOn with
  | nil => rfl
  | append_singleton os o ih =>
    rw [entries_append_singleton, find?_append, ← ih]
    rcases grow_cases (entries os) o with ⟨h, -⟩ | ⟨h, hout⟩
    · rw [h, find?_append]
    · rw [h]
      -- an offer that is not taken has no key, or a key that an entry has
      by_cases hk : o.key? = some k
      · have hsome : ((entries os).find? fun o => o.key? == some k).isSome = true := by
          rcases hout with hnone | ⟨k', hk', hmem⟩
          · simp [Offer.key?, hnone] at hk
          · cases hk.symm.trans hk'
            obtain ⟨e, he, hek⟩ := mem_keys.mp hmem
            exact find?_isSome.mpr ⟨e, he, beq_iff_eq.mpr hek⟩
        obtain ⟨e, he⟩ := Option.isSome_iff_exists.mp hsome
        rw [he, Option.some_or]
      · simp [hk]

end

/-! ## What renaming leaves as it is -/

theorem kind_sameShape (env : RenameEnv) (k : DeclKind) (s : RenameState) : k.SameShape ((env.kind k).run s).1 := by
  cases k with
  | var type semantic init => cases init <;> trivial
  | method returns params semantic body => cases body <;> rfl
  | struct fields => trivial
  | buffer kind members => exact ⟨rfl, rfl⟩

theorem decl_fst (env : RenameEnv) (d : Decl) (s : RenameState) :
    ∃ attrs kind, ((env.decl d).run s).1 = { d with attrs, kind } ∧ d.kind.SameShape kind :=
  ⟨_, _, rfl, kind_sameShape env d.kind _⟩

namespace Offer

variable {o : Offer}

theorem made_eq (o : Offer) :
    ∃ attrs kind, o.made = { o.source with attrs, kind } ∧ o.source.kind.SameShape kind := by
  cases o with
  | «variable» m home => exact decl_fst _ _ _
  | method m => exact decl_fst _ _ _
  | struct m => exact ⟨_, _, rfl, .refl _⟩
  | buffer m kind => exact ⟨_, _, rfl, rfl, rfl⟩

theorem source_name {name : String} (h : o.name? = some name) : o.source.name = name := by
  cases o with
  | struct m => exact Option.some.inj h
  | _ => simp [source, h]

theorem made_name {name : String} (h : o.name? = some name) : o.made.name = name := by
  obtain ⟨attrs, kind, hmade, -⟩ := o.made_eq
  rw [hmade]
  exact source_name h

end Offer

end Mix

end ShaderCompose
