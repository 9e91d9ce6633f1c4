import Mathlib.Data.List.Pairwise
import ShaderCompose.Proofs.Generic.Instance
import ShaderCompose.Proofs.Reader.Source
import ShaderCompose.Proofs.Shader.Listed

/-!
The layout of a class.
-/

namespace ShaderCompose

open List

/-- Declarations are listed in order, and buffers hold variables. -/
structure ShaderClass.Layout (c : ShaderClass) : Prop where
  members : ∀ id ∈ c.members, id < c.table.size
  listed : c.toShader.listed = List.range c.table.size
  inner : ∀ id d, id ∈ c.members → c.table[id]? = some d → ∀ i ∈ d.inner, ∃ v, c.table[i]? = some v ∧ v.isVar = true

namespace ShaderClass

def HasHome (c : ShaderClass) (id : DeclId) (home : Option String) : Prop :=
  home = none ∧ id ∈ c.members ∨ ∃ b buffer, (b, buffer) ∈ c.memberDecls ∧ id ∈ buffer.inner ∧ home = some buffer.name

namespace Layout

variable {cls : ShaderClass}

theorem exists_home (h : cls.Layout) {id : DeclId} {d : Decl} (hd : cls.table[id]? = some d) :
    ∃ home, cls.HasHome id home := by
  have hlt := (Array.getElem?_eq_some_iff.mp hd).1
  have hmem : id ∈ cls.toShader.listed := by
    rw [h.listed]
    exact mem_range.mpr hlt
  obtain ⟨b, buffer, hb, hbuffer, hid | rfl⟩ := Shader.mem_listed.mp hmem
  · exact ⟨_, .inr ⟨b, buffer, mem_memberDecls.mpr ⟨hb, hbuffer⟩, hid, rfl⟩⟩
  · exact ⟨none, .inl ⟨rfl, hb⟩⟩

theorem nodup (h : cls.Layout) : (cls.memberDecls.flatMap fun (id, d) => d.inner ++ [id]).Nodup := by
  have hlisted : cls.toShader.listed.Nodup := h.listed ▸ nodup_range
  exact hlisted

theorem unique (h : cls.Layout) {a b i : DeclId} {da db : Decl} (ha : (a, da) ∈ cls.memberDecls)
    (hb : (b, db) ∈ cls.memberDecls) (hia : i ∈ da.inner ++ [a]) (hib : i ∈ db.inner ++ [b]) :
    (a, da) = (b, db) := by
  by_contra hne
  have hsymm : Std.Symm (Function.onFun List.Disjoint
      fun (e : DeclId × Decl) => e.2.inner ++ [e.1]) := ⟨fun _ _ hd _ ha hb => hd hb ha⟩
  have hdisjoint := (nodup_flatMap.mp h.nodup).2
  exact hdisjoint.forall ha hb hne hia hib

theorem home_unique (h : cls.Layout) {id : DeclId} {home other : Option String}
    (hhome : cls.HasHome id home) (hother : cls.HasHome id other) : home = other := by
  have member : id ∈ cls.members → ∃ d, (id, d) ∈ cls.memberDecls := fun hid =>
    ⟨_, mem_memberDecls.mpr ⟨hid, Array.getElem?_eq_getElem (h.members id hid)⟩⟩
  have apart : ∀ b buffer, (b, buffer) ∈ cls.memberDecls → id ∈ buffer.inner → id ∉ cls.members := by
    intro b buffer hb hid hmem
    obtain ⟨d, hd⟩ := member hmem
    cases h.unique hb hd (mem_append_left _ hid) (by simp)
    have hself := (nodup_flatMap.mp h.nodup).1 _ hb
    exact (nodup_append.mp hself).2.2 id hid id (by simp) rfl
  rcases hhome with ⟨rfl, hid⟩ | ⟨b, buffer, hb, hid, rfl⟩
  · rcases hother with ⟨rfl, -⟩ | ⟨b', buffer', hb', hid', -⟩
    · rfl
    · exact absurd hid (apart b' buffer' hb' hid')
  · rcases hother with ⟨rfl, hid'⟩ | ⟨b', buffer', hb', hid', rfl⟩
    · exact absurd hid' (apart b buffer hb hid)
    · cases h.unique hb hb' (mem_append_left _ hid) (mem_append_left _ hid')
      rfl

end Layout

end ShaderClass

namespace Reader

open ShaderCompose.Reader.Parser

/-! ## Members as they are read -/

theorem Parser.yields_orElse {α : Type} {p q : Parser α} {P : α → Prop} (hp : Yields p P)
    (hq : Yields q P) : Yields (orElse p q) P := by
  intro c a rest hok
  unfold orElse at hok
  split at hok
  · exact hq c a rest hok
  · exact hp c a rest hok

structure Member.Fits (m : Member) : Prop where
  inner : ∀ d ∈ m.inner, d.isVar = true
  holds : m.inner = [] ∨ ∃ kind ids, m.decl.kind = .buffer kind ids
  empty : m.decl.inner = []

theorem varRest_isVar (type : TypeRef) :
    Yields (varRest type) fun kind => ∃ t semantic init, kind = .var t semantic init := by
  refine yields_seq fun _ => yields_seq fun _ => yields_seq fun _ => yields_seq fun _ => ?_
  exact yields_pure ⟨_, _, _, rfl⟩

theorem methodRest_isMethod (type : TypeRef) :
    Yields (methodRest type) fun kind => ∃ t params semantic body, kind = .method t params semantic body := by
  refine yields_seq fun _ => yields_seq fun _ => yields_seq fun _ => yields_seq fun _ => ?_
  exact yields_seq fun _ => yields_pure ⟨_, _, _, _, rfl⟩

theorem bufferMember_isVar : Yields bufferMember fun d => d.isVar = true := by
  refine yields_seq fun _ => yields_seq fun _ => yields_seq fun _ => ?_
  refine yields_seq fun type => yields_seq fun _ => ?_
  refine yields_bind (varRest_isVar type) fun kind hkind => yields_pure ?_
  obtain ⟨_, _, _, rfl⟩ := hkind
  rfl

theorem bufferBody_isVar : Yields bufferBody fun b => ∀ d ∈ b.2.2, d.isVar = true := by
  refine yields_seq fun _ => yields_seq fun _ => yields_seq fun _ => ?_
  refine yields_bind (yields_many bufferMember_isVar) fun members hmembers => ?_
  exact yields_seq fun _ => yields_seq fun _ => yields_pure hmembers

theorem valueBody_kind : Yields valueBody fun v =>
    (∃ t semantic init, v.2 = .var t semantic init) ∨
      ∃ t params semantic body, v.2 = .method t params semantic body := by
  refine yields_seq fun type => yields_seq fun _ => ?_
  refine yields_bind (yields_orElse (P := fun kind =>
    (∃ t semantic init, kind = .var t semantic init) ∨
      ∃ t params semantic body, kind = .method t params semantic body) ?_ ?_)
    fun kind hkind => yields_pure hkind
  · exact fun c kind rest hok => .inr (methodRest_isMethod type c kind rest hok)
  · exact fun c kind rest hok => .inl (varRest_isVar type c kind rest hok)

theorem member_fits : Yields member Member.Fits := by
  refine yields_seq fun _ => yields_seq fun _ => yields_seq fun _ => ?_
  refine yields_orElse ?_ (yields_orElse ?_ ?_)
  · refine yields_bind bufferBody_isVar fun b hb => yields_pure ?_
    exact ⟨hb, .inr ⟨_, _, rfl⟩, rfl⟩
  · exact yields_seq fun b => yields_pure ⟨forall_mem_nil _, .inl rfl, rfl⟩
  · refine yields_bind valueBody_kind fun v hv => yields_pure ⟨forall_mem_nil _, .inl rfl, ?_⟩
    obtain ⟨name, kind⟩ := v
    rcases hv with ⟨_, _, _, rfl⟩ | ⟨_, _, _, _, rfl⟩ <;> rfl

theorem classTexts_members {P : Member → Prop} (h : Yields member P) :
    Yields classTexts fun ts => ∀ t ∈ ts, ∀ m ∈ t.members, P m := by
  have one : Yields classText fun t => ∀ m ∈ t.members, P m := by
    refine yields_seq fun _ => yields_seq fun _ => yields_seq fun _ => yields_seq fun _ => ?_
    refine yields_seq fun _ => yields_seq fun _ => ?_
    refine yields_bind (yields_many h) fun members hmembers => ?_
    exact yields_seq fun _ => yields_seq fun _ => yields_pure hmembers
  refine yields_bind (yields_many one) fun ts hts => ?_
  exact yields_seq fun _ => yields_seq fun _ => yields_pure hts

theorem takeEntryPoint_keeps (d : Decl) :
    (takeEntryPoint d).1.name = d.name ∧ (takeEntryPoint d).1.kind = d.kind := by
  unfold takeEntryPoint
  split
  · exact ⟨rfl, rfl⟩
  · dsimp only
    split <;> exact ⟨rfl, rfl⟩

theorem withMembers_inner {m : Member} (h : m.Fits) (start : Nat) :
    (withMembers (List.range' start m.inner.length) (takeEntryPoint m.decl).1).inner =
      List.range' start m.inner.length := by
  have hkind := (takeEntryPoint_keeps m.decl).2
  rcases h.holds with hnone | ⟨kind, ids, hbuffer⟩
  · unfold withMembers Decl.inner
    cases hk : m.decl.kind <;> simp_all
  · unfold withMembers
    rw [hkind, hbuffer]
    rfl

theorem addMember_layout {c : ShaderClass} (h : c.Layout) {m : Member} (hm : m.Fits) : (addMember c m).1.Layout := by
  have hinner := withMembers_inner hm c.table.size
  unfold addMember
  generalize takeEntryPoint m.decl = taken at hinner ⊢
  obtain ⟨d, log⟩ := taken
  dsimp only at hinner ⊢
  generalize withMembers (List.range' c.table.size m.inner.length) d = made at hinner ⊢
  -- what was there keeps its number, then come the variables and the member itself
  have hold : ∀ id < c.table.size, ((c.table ++ m.inner.toArray).push made)[id]? = c.table[id]? := by
    intro id hid
    rw [Array.getElem?_push_lt (by simp; omega), Array.getElem_append_left hid, Array.getElem?_eq_getElem hid]
  have hvar : ∀ i v, m.inner[i]? = some v → ((c.table ++ m.inner.toArray).push made)[c.table.size + i]? = some v := by
    intro i v hv
    have hi := (List.getElem?_eq_some_iff.mp hv).1
    rw [Array.getElem?_push, if_neg (by simp; omega), Array.getElem?_append_right (by omega)]
    simpa using hv
  have hlast : ((c.table ++ m.inner.toArray).push made)[(c.table ++ m.inner.toArray).size]? =
      some made := by
    rw [Array.getElem?_push, if_pos rfl]
  refine ⟨?_, ?_, ?_⟩
  · intro id hid
    rcases mem_append.mp hid with hid | hid
    · exact Nat.lt_of_lt_of_le (h.members id hid) (by simp)
    · rw [mem_singleton.mp hid]
      simp
  · have hentries : (⟨(c.table ++ m.inner.toArray).push made,
        c.members ++ [(c.table ++ m.inner.toArray).size]⟩ : Shader).entries =
        c.toShader.entries ++ [((c.table ++ m.inner.toArray).size, made)] := by
      simp only [Shader.entries, filterMap_append, ShaderClass.toShader]
      congr 1
      · refine filterMap_congr fun id hid => ?_
        rw [hold id (h.members id hid)]
      · rw [filterMap_cons, hlast]
        rfl
    simp only [Shader.listed, ShaderClass.toShader, hentries, flatMap_append, flatMap_singleton, hinner]
    have hlisted := h.listed
    simp only [Shader.listed, ShaderClass.toShader] at hlisted
    rw [hlisted, range_eq_range', range_eq_range']
    simp only [Array.size_push, Array.size_append, size_toArray]
    have hjoin := @range'_append_1 0 c.table.size m.inner.length
    rw [Nat.zero_add] at hjoin
    rw [← append_assoc, hjoin, range'_1_concat, Nat.zero_add]
  · intro id v hid hv i hi
    rcases mem_append.mp hid with hid | hid
    · have hlt := h.members id hid
      rw [hold id hlt] at hv
      obtain ⟨w, hw, hwvar⟩ := h.inner id v hid hv i hi
      have hi := (Array.getElem?_eq_some_iff.mp hw).1
      exact ⟨w, (hold i hi).trans hw, hwvar⟩
    · rw [mem_singleton.mp hid, hlast] at hv
      cases hv
      rw [hinner, mem_range'_1] at hi
      obtain ⟨n, rfl⟩ := Nat.exists_eq_add_of_le hi.1
      have hn : n < m.inner.length := by omega
      have hget := getElem?_eq_getElem hn
      exact ⟨_, hvar n _ hget, hm.inner _ (getElem_mem hn)⟩

theorem source_induction {P : ShaderClass → Prop} {R : Member → Prop} (hread : Yields member R)
    (hempty : ∀ c : ShaderClass, c.table = #[] → c.members = [] → P c)
    (hadd : ∀ c m, P c → R m → P (addMember c m).1) {text file : String} {cls : ShaderClass}
    (h : cls ∈ (source text file).1) : P cls := by
  unfold source at h
  split at h
  · next classes rest hok =>
    simp only [map_map, mem_map] at h
    obtain ⟨t, ht, rfl⟩ := h
    refine List.foldlRecOn (motive := fun s : ShaderClass × Log => P s.1) t.members numberMember
      (hempty _ rfl rfl) fun s hs m hm => ?_
    exact hadd s.1 m hs (classTexts_members hread _ _ _ hok t ht m hm)
  · cases h
  · cases h

theorem source_layout {text file : String} {cls : ShaderClass} (h : cls ∈ (source text file).1) : cls.Layout := by
  refine source_induction (P := ShaderClass.Layout) member_fits (fun c htable hmembers => ?_)
    (fun _ _ hc hm => addMember_layout hc hm) h
  refine ⟨?_, ?_, ?_⟩
  · rw [hmembers]
    exact forall_mem_nil _
  · rw [ShaderClass.toShader, hmembers, htable]
    rfl
  · rw [hmembers]
    exact fun id d hid => absurd hid not_mem_nil

end Reader

namespace Substitution

variable (σ : Substitution) (d : Decl)

@[simp] theorem inner_decl : (σ.decl d).inner = d.inner := by
  obtain ⟨name, loc, attrs, quals, entry, kind⟩ := d
  cases kind <;> rfl

@[simp] theorem isVar_decl : (σ.decl d).isVar = d.isVar := by
  obtain ⟨name, loc, attrs, quals, entry, kind⟩ := d
  cases kind <;> rfl

end Substitution

theorem ShaderClass.instantiate_layout {c made : ShaderClass} {args : List String} {fill : Bool}
    (h : c.instantiate args fill = .ok made) (hc : c.Layout) : made.Layout := by
  rcases instantiate_cases h with ⟨-, rfl⟩ | ⟨complete, σ, -, -, rfl⟩
  · exact hc
  · refine ⟨?_, ?_, ?_⟩
    · rw [Array.size_map]
      exact hc.members
    · rw [Array.size_map, ← hc.listed]
      exact Shader.listed_map c.table c.members fun d => σ.inner_decl d
    · intro id d hid hd i hi
      rw [Array.getElem?_map] at hd
      obtain ⟨d', hd', rfl⟩ := Option.map_eq_some_iff.mp hd
      rw [Substitution.inner_decl] at hi
      obtain ⟨v, hv, hvar⟩ := hc.inner id d' hid hd' i hi
      refine ⟨σ.decl v, ?_, ?_⟩
      · rw [Array.getElem?_map, hv]
        rfl
      · rw [Substitution.isVar_decl]
        exact hvar

def ShaderClass.Named (c : ShaderClass) : Prop := ∀ d ∈ c.table.toList, Reader.IsIdent d.name

theorem ShaderClass.Named.of_mem_vars {c : ShaderClass} (h : c.Named) {v : DeclId × Decl} (hv : v ∈ c.vars) :
    Reader.IsIdent v.2.name := by
  have hfound := (mem_vars.mp hv).1
  exact h v.2 (mem_of_getElem? (by simpa using hfound))

namespace Reader

open ShaderCompose.Reader.Parser

theorem IsIdent.not_mem {name : String} (h : IsIdent name) {ch : Char} (hch : isIdentChar ch = false) :
    ch ∉ name.toList := by
  intro hmem
  rw [h ch hmem] at hch
  cases hch

theorem IsIdent.append {a b : String} (ha : IsIdent a) (hb : IsIdent b) : IsIdent (a ++ b) := by
  intro ch hch
  rw [String.toList_append] at hch
  rcases mem_append.mp hch with hch | hch
  · exact ha ch hch
  · exact hb ch hch

structure Member.Named (m : Member) : Prop where
  decl : IsIdent m.decl.name
  inner : ∀ d ∈ m.inner, IsIdent d.name

theorem bufferMember_named : Yields bufferMember fun d => IsIdent d.name := by
  refine yields_seq fun _ => yields_seq fun _ => yields_seq fun _ => yields_seq fun _ => ?_
  refine yields_bind identifier_isIdent fun name hname => ?_
  exact yields_seq fun _ => yields_pure hname

theorem bufferBody_named : Yields bufferBody fun b => IsIdent b.2.1 ∧ ∀ d ∈ b.2.2, IsIdent d.name := by
  refine yields_seq fun _ => yields_bind identifier_isIdent fun name hname => yields_seq fun _ => ?_
  refine yields_bind (yields_many bufferMember_named) fun members hmembers => ?_
  exact yields_seq fun _ => yields_seq fun _ => yields_pure ⟨hname, hmembers⟩

theorem structBody_named : Yields structBody fun b => IsIdent b.1 := by
  refine yields_seq fun _ => yields_bind identifier_isIdent fun name hname => yields_seq fun _ => ?_
  exact yields_seq fun _ => yields_seq fun _ => yields_seq fun _ => yields_pure hname

theorem valueBody_named : Yields valueBody fun v => IsIdent v.1 := by
  refine yields_seq fun _ => yields_bind identifier_isIdent fun name hname => ?_
  exact yields_seq fun _ => yields_pure hname

theorem member_named : Yields member Member.Named := by
  refine yields_seq fun _ => yields_seq fun _ => yields_seq fun _ => ?_
  refine yields_orElse ?_ (yields_orElse ?_ ?_)
  · refine yields_bind bufferBody_named fun b hb => yields_pure ?_
    exact ⟨hb.1, hb.2⟩
  · refine yields_bind structBody_named fun b hb => yields_pure ?_
    exact ⟨hb, forall_mem_nil _⟩
  · refine yields_bind valueBody_named fun v hv => yields_pure ?_
    exact ⟨hv, forall_mem_nil _⟩

theorem withMembers_name (ids : List DeclId) (d : Decl) : (withMembers ids d).name = d.name := by
  unfold withMembers
  split <;> rfl

theorem addMember_named {c : ShaderClass} (h : c.Named) {m : Member} (hm : m.Named) : (addMember c m).1.Named := by
  intro d hd
  unfold addMember at hd
  simp only [Array.toList_push, Array.toList_append, mem_append, mem_singleton] at hd
  rcases hd with (hd | hd) | rfl
  · exact h d hd
  · exact hm.inner d hd
  · rw [withMembers_name, (takeEntryPoint_keeps m.decl).1]
    exact hm.decl

theorem source_named {text file : String} {cls : ShaderClass} (h : cls ∈ (source text file).1) : cls.Named := by
  refine source_induction (P := ShaderClass.Named) member_named (fun c htable _ => ?_)
    (fun _ _ hc hm => addMember_named hc hm) h
  unfold ShaderClass.Named
  rw [htable]
  exact forall_mem_nil _

end Reader

theorem ShaderClass.instantiate_named {c made : ShaderClass} {args : List String} {fill : Bool}
    (h : c.instantiate args fill = .ok made) (hc : c.Named) : made.Named := by
  rcases instantiate_cases h with ⟨-, rfl⟩ | ⟨complete, σ, -, -, rfl⟩
  · exact hc
  · intro d hd
    rw [Array.toList_map] at hd
    obtain ⟨d', hd', rfl⟩ := mem_map.mp hd
    exact hc d' hd'

end ShaderCompose
