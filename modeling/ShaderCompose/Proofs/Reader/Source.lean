import Mathlib.Data.List.TakeWhile
import ShaderCompose.Reader.Source

/-!
Reading a source gives classes with identifiers for names.
-/

namespace ShaderCompose.Reader

open List

namespace Parser

def Yields {α : Type} (p : Parser α) (P : α → Prop) : Prop :=
  ∀ c a rest, p c = .ok a rest → P a

variable {α β : Type} {p : Parser α} {P : α → Prop}

theorem yields_pure {a : α} (h : P a) : Yields (Pure.pure a : Parser α) P := by
  intro c b rest hok
  cases hok
  exact h

theorem yields_bind {f : α → Parser β} {R : β → Prop} (hp : Yields p P)
    (hf : ∀ a, P a → Yields (f a) R) : Yields (p >>= f) R := by
  intro c b rest hok
  change Parser.bind p f c = _ at hok
  unfold Parser.bind at hok
  split at hok
  · next a mid hfirst => exact hf a (hp c a mid hfirst) mid b rest hok
  · cases hok
  · cases hok

theorem yields_seq {f : α → Parser β} {R : β → Prop} (hf : ∀ a, Yields (f a) R) : Yields (p >>= f) R :=
  yields_bind (P := fun _ => True) (fun _ _ _ _ => trivial) fun a _ => hf a

theorem yields_must (hp : Yields p P) : Yields (must p) P := by
  intro c a rest hok
  unfold must at hok
  split at hok
  · cases hok
  · exact hp c a rest hok

theorem yields_filterMap {f : α → Option β} {R : β → Prop} (hp : Yields p P)
    (hf : ∀ a b, P a → f a = some b → R b) : Yields (filterMap p f) R := by
  intro c b rest hok
  unfold filterMap at hok
  split at hok
  · next a mid hfirst =>
    split at hok
    · next hb =>
      cases hok
      exact hf a _ (hp c a _ hfirst) hb
    · cases hok
  · cases hok
  · cases hok

theorem yields_satisfy (p : Char → Bool) : Yields (satisfy p) fun ch => p ch = true := by
  intro c ch rest hok
  unfold satisfy at hok
  split at hok
  · split at hok
    · next hp =>
      cases hok
      exact hp
    · cases hok
  · cases hok

theorem yields_takeWhile (p : Char → Bool) : Yields (takeWhile p) fun taken => ∀ ch ∈ taken, p ch = true := by
  intro c taken rest hok ch hch
  cases hok
  exact mem_takeWhile_imp hch

theorem yields_many (hp : Yields p P) : Yields (many p) fun as => ∀ a ∈ as, P a := by
  have from_fuel : ∀ fuel, Yields (manyFrom p fuel) fun as => ∀ a ∈ as, P a := by
    intro fuel
    induction fuel with
    | zero =>
      intro c as rest hok
      cases hok
      exact nofun
    | succ fuel ih =>
      intro c as rest hok
      rw [manyFrom] at hok
      split at hok
      · next a mid hfirst =>
        split at hok
        · next more _ hmore =>
          cases hok
          exact forall_mem_cons.mpr ⟨hp c a mid hfirst, ih mid more _ hmore⟩
        · cases hok
        · cases hok
      · cases hok
        exact nofun
      · cases hok
  exact fun c => from_fuel c.rest.length c

end Parser

open ShaderCompose.Reader.Parser

def IsIdent (name : String) : Prop := ∀ ch ∈ name.toList, isIdentChar ch = true

theorem IsIdent.no_slash {name : String} (h : IsIdent name) : '/' ∉ name.toList := by
  intro hslash
  exact absurd (h '/' hslash) (by decide)

theorem identifier_isIdent : Yields identifier IsIdent := by
  refine yields_seq fun _ => yields_filterMap (P := fun w => ∀ ch ∈ w, isIdentChar ch = true) ?_ ?_
  · refine yields_bind (yields_satisfy _) fun first hfirst => ?_
    refine yields_bind (yields_takeWhile _) fun others hothers => yields_pure ?_
    refine forall_mem_cons.mpr ⟨?_, hothers⟩
    simp only [isIdentStart, Bool.or_eq_true] at hfirst
    simp only [isIdentChar, Bool.or_eq_true]
    exact hfirst.imp_left .inl
  · intro w name hw hname
    dsimp only at hname
    split at hname
    · cases hname
    · cases hname
      intro ch hch
      exact hw ch (by simpa using hch)

theorem classText_isIdent : Yields classText fun t => IsIdent t.name := by
  refine yields_seq fun _ => yields_seq fun _ => ?_
  refine yields_bind (yields_must identifier_isIdent) fun name hname => ?_
  refine yields_seq fun _ => yields_seq fun _ => yields_seq fun _ => yields_seq fun _ => ?_
  exact yields_seq fun _ => yields_seq fun _ => yields_pure hname

theorem classTexts_isIdent : Yields classTexts fun ts => ∀ t ∈ ts, IsIdent t.name := by
  refine yields_bind (yields_many classText_isIdent) fun ts hts => ?_
  exact yields_seq fun _ => yields_seq fun _ => yields_pure hts

/-! ## Numbering the members -/

theorem takeEntryPoint_log (d : Decl) : ∀ e ∈ (takeEntryPoint d).2, e.severity = .error := by
  unfold takeEntryPoint
  split
  · exact forall_mem_nil _
  · dsimp only
    split
    · exact forall_mem_nil _
    · intro e he
      rw [mem_singleton.mp he]
      rfl

theorem number_spec (t : ClassText) : t.number.1.name = t.name ∧ ∀ d ∈ t.number.2, d.severity = .error := by
  have fold : ∀ (members : List Member) (s : ShaderClass × Log), (∀ d ∈ s.2, d.severity = .error) →
      (members.foldl numberMember s).1.name = s.1.name ∧
        ∀ d ∈ (members.foldl numberMember s).2, d.severity = .error := by
    intro members
    induction members with
    | nil => exact fun s hlog => ⟨rfl, hlog⟩
    | cons m members ih =>
      intro s hlog
      exact ih (numberMember s m) (forall_mem_append.mpr ⟨hlog, takeEntryPoint_log m.decl⟩)
  exact fold t.members _ (forall_mem_nil _)

theorem source_isIdent {text file : String} {cls : ShaderClass}
    (h : cls ∈ (source text file).1) : IsIdent cls.name := by
  unfold source at h
  split at h
  · next classes rest hok =>
    simp only [map_map, mem_map, Function.comp_apply] at h
    obtain ⟨t, ht, rfl⟩ := h
    rw [(number_spec t).1]
    exact classTexts_isIdent _ _ _ hok t ht
  · cases h
  · cases h

theorem source_log {text file : String} {d : Diagnostic} (h : d ∈ (source text file).2) : d.severity = .error := by
  unfold source at h
  split at h
  · simp only [flatMap_map, mem_flatMap] at h
    obtain ⟨t, -, hd⟩ := h
    exact (number_spec t).2 d hd
  · rw [mem_singleton.mp h]
    rfl
  · rw [mem_singleton.mp h]
    rfl

end ShaderCompose.Reader
