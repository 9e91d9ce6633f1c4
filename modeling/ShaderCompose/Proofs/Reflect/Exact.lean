import ShaderCompose.Proofs.Pairs
import ShaderCompose.Proofs.Reflect.Variables

/-!
Layout in words and in natural numbers.
-/

namespace ShaderCompose

open List Relation

namespace Layout

/-! ## Natural numbers -/

def roundUp (n : Nat) : Nat := (n + (registerSize - 1)) / registerSize * registerSize

namespace Placement

def first (p : Placement) (offset : Nat) : Nat :=
  if p.aligned || decide (registerSize < offset % registerSize + p.size) then roundUp offset else offset

def stop (p : Placement) (offset : Nat) : Nat := p.first offset + p.size

def spans : Nat → List Placement → List (Nat × Nat)
  | _, [] => []
  | offset, p :: ps => (p.first offset, p.stop offset) :: spans (p.stop offset) ps

def behind (offset : Nat) (ps : List Placement) : Nat := ps.foldl (fun offset p => p.stop offset) offset

end Placement

structure Exact where
  place : Placement
  numbers : List Nat
  deriving Inhabited

namespace Exact

def struct (fields : List Exact) : Exact :=
  let places := fields.map place
  let stop := Placement.behind 0 places
  { place := { size := stop, stride := roundUp stop, aligned := true }
    numbers := fields.flatMap numbers ++ (Placement.spans 0 places).map Prod.snd ++ [roundUp stop] }

def repeated (e : Exact) (t : TypeRef) : Exact :=
  match t.arrayLength? with
  | some (n + 1) =>
    let size := n * e.place.stride + e.place.size
    { place := { size, stride := e.place.stride, aligned := true }, numbers := e.numbers ++ [size] }
  | _ => e

end Exact

/-- The layout of a type in natural numbers. -/
inductive Lays (structs : Structs) : TypeRef → Exact → Prop
  | numeric {t : TypeRef} {n : NumericType} : structs.lookup t.name = none →
      NumericType.ofName? t.name = some n → Lays structs t ((⟨.ofNumeric n, []⟩ : Exact).repeated t)
  | struct {t : TypeRef} {fields : List Param} (layout : Param → Exact) : structs.lookup t.name = some fields →
      (∀ f ∈ fields, Lays structs f.type (layout f)) →
      Lays structs t ((Exact.struct (fields.map layout)).repeated t)

variable {t : TypeRef}

theorem Lays.unique {structs : Structs} {e e' : Exact} (h : Lays structs t e)
    (h' : Lays structs t e') : e = e' := by
  induction h generalizing e' with
  | numeric hlookup hn =>
    cases h' with
    | numeric _ hn' => cases hn.symm.trans hn'; rfl
    | struct _ hlookup' => cases hlookup.symm.trans hlookup'
  | struct layout hlookup _ ih =>
    cases h' with
    | numeric hlookup' => cases hlookup.symm.trans hlookup'
    | struct layout' hlookup' hfields' =>
      cases hlookup.symm.trans hlookup'
      rw [map_congr_left fun f hf => ih f hf (hfields' f hf)]

def Contains (structs : Structs) (a b : String) : Prop :=
  ∃ fields, structs.lookup a = some fields ∧ ∃ f ∈ fields, f.type.name = b

structure Admits (structs : Structs) (t : TypeRef) : Prop where
  known : (structs.lookup t.name).isSome ∨ (NumericType.ofName? t.name).isSome
  sized : t.isArray = true → t.arrayLength?.isSome

structure Sound (structs : Structs) : Prop where
  acyclic : ∀ a, ¬TransGen (Contains structs) a a
  fields : ∀ {name fields}, structs.lookup name = some fields → ∀ f ∈ fields, Admits structs f.type

theorem Sound.of_rank {structs : Structs} (rank : String → Nat)
    (h : ∀ s ∈ structs, ∀ f ∈ s.2, rank f.type.name < rank s.1 ∧ Admits structs f.type) : Sound structs := by
  refine ⟨fun a hloop => ?_, fun hlookup f hf => (h _ (mem_of_lookup hlookup) f hf).2⟩
  have hless : ∀ {a b}, TransGen (Contains structs) a b → rank b < rank a := by
    have hone : ∀ {a b}, Contains structs a b → rank b < rank a := by
      rintro a _ ⟨fields, hlookup, f, hf, rfl⟩
      exact (h _ (mem_of_lookup hlookup) f hf).1
    intro a b hab
    induction hab with
    | single hab => exact hone hab
    | tail _ hbc ih => exact (hone hbc).trans ih
  exact Nat.lt_irrefl _ (hless hloop)

abbrev Words (l : List Nat) : Prop := ∀ n ∈ l, n < UInt32.size

theorem words_singleton {n : Nat} : Words [n] ↔ n < UInt32.size := forall_mem_singleton

def checked {α : Type} (l : List Nat) (a : α) : Except LayoutError α :=
  if Words l then .ok a else .error .tooLarge

theorem word?_eq_none {n : Nat} (h : ¬n < UInt32.size) : word? n = none := if_neg h

theorem word?_of_lt {n : Nat} (h : n < UInt32.size) : word? n = some n := if_pos h

section

variable {α β : Type} {l m : List Nat} {a : α} {b : β}

theorem checked_bind {f : α → Except LayoutError β} (h : f a = checked m b) :
    (checked l a >>= f) = checked (l ++ m) b := by
  unfold checked at *
  by_cases hl : Words l
  · rw [if_pos hl]
    refine h.trans ?_
    simp only [forall_mem_append, iff_true_intro hl, true_and]
  · rw [if_neg hl, if_neg fun hall => hl (forall_mem_append.mp hall).1]
    rfl

theorem checked_congr (h : ∀ n, n ∈ l ↔ n ∈ m) : checked l a = checked m a := by
  have hwords : Words l ↔ Words m := by simp only [Words, h]
  simp only [checked, hwords]

theorem checked_word? (n : Nat) (f : Nat → α) : orError .tooLarge ((word? n).map f) = checked [n] (f n) := by
  by_cases hn : n < UInt32.size
  · rw [word?_of_lt hn, checked, if_pos (words_singleton.mpr hn)]
    rfl
  · rw [word?_eq_none hn, checked, if_neg fun h => hn (words_singleton.mp h)]
    rfl

end

theorem align?_eq (offset : Nat) : align? offset = word? (roundUp offset) := rfl

theorem Placement.range?_eq (p : Placement) (offset : Nat) :
    p.range? offset = (word? (p.stop offset)).map fun stop => (p.first offset, stop) := by
  have hword : UInt32.size = 4294967296 := rfl
  have hround : roundUp offset = (offset + 15) / 16 * 16 := rfl
  unfold range? start? stop first registerSize
  by_cases hmoved : (p.aligned || decide (16 < offset % 16 + p.size)) = true
  · rw [if_pos hmoved]
    by_cases hsum : offset % 16 + p.size < UInt32.size
    · rw [word?_of_lt hsum, Option.bind_some, if_pos hmoved, align?_eq]
      by_cases hfirst : roundUp offset < UInt32.size
      · rw [word?_of_lt hfirst, Option.bind_some]
      · rw [word?_eq_none hfirst, word?_eq_none (by omega)]
        rfl
    · rw [word?_eq_none hsum, word?_eq_none (by omega)]
      rfl
  · have hkept : offset % 16 + p.size ≤ 16 := by simp_all
    rw [if_neg hmoved, word?_of_lt (by omega), Option.bind_some, if_neg hmoved, Option.bind_some]

theorem fieldsEnd_eq {place : TypeRef → Except LayoutError Placement} {layout : Param → Exact}
    {fields : List Param} (h : ∀ f ∈ fields, place f.type = checked (layout f).numbers (layout f).place)
    (offset : Nat) : fieldsEnd place offset fields = checked ((fields.map layout).flatMap Exact.numbers ++
          (Placement.spans offset ((fields.map layout).map Exact.place)).map Prod.snd)
        (Placement.behind offset ((fields.map layout).map Exact.place)) := by
  induction fields generalizing offset with
  | nil => simp [fieldsEnd, checked, Placement.spans, Placement.behind]
  | cons f fs ih =>
    obtain ⟨hf, hfs⟩ := forall_mem_cons.mp h
    have hrange : (orError .tooLarge ((layout f).place.range? offset) >>= fun r => fieldsEnd place r.2 fs) =
        checked [(layout f).place.stop offset] ((layout f).place.first offset, (layout f).place.stop offset) >>=
          fun r => fieldsEnd place r.2 fs := by
      rw [Placement.range?_eq, checked_word?]
    rw [fieldsEnd, hf]
    refine (checked_bind (f := fun p : Placement => orError .tooLarge (p.range? offset) >>= fun r =>
      fieldsEnd place r.2 fs)
      (hrange.trans (checked_bind (ih hfs _)))).trans (checked_congr fun n => ?_)
    simp only [Placement.spans, map_cons, flatMap_cons, mem_append, mem_cons, not_mem_nil, or_false, or_assoc]
    exact or_congr_right or_left_comm

theorem Placement.repeat?_succ (p : Placement) (n : Nat) : p.repeat? (n + 1) =
    (word? (n * p.stride + p.size)).map fun size => { size, stride := p.stride, aligned := true } := by
  rw [repeat?, if_neg (Nat.succ_ne_zero n), Nat.add_sub_cancel]
  by_cases hbefore : n * p.stride < UInt32.size
  · rw [word?_of_lt hbefore, Option.bind_some]
  · rw [word?_eq_none hbefore, word?_eq_none (by omega)]
    rfl

theorem placedAs_eq (hsized : t.isArray = true → t.arrayLength?.isSome) (e : Exact) :
    (checked e.numbers e.place >>= placedAs t) = checked (e.repeated t).numbers (e.repeated t).place := by
  have hvalue : placedAs t e.place = .ok e.place → (e.repeated t) = e →
      (checked e.numbers e.place >>= placedAs t) = checked (e.repeated t).numbers (e.repeated t).place := by
    intro hplaced hrepeated
    rw [hrepeated, checked_bind (m := []) (b := e.place) (hplaced.trans (by simp [checked])), append_nil]
  by_cases harray : t.isArray = true
  · obtain ⟨count, hcount⟩ := Option.isSome_iff_exists.mp (hsized harray)
    have hplaced : placedAs t e.place = orError .tooLarge (e.place.repeat? count) := by
      simp [placedAs, arrayLength, harray, hcount, bind, Except.bind]
    cases count with
    | zero => exact hvalue hplaced (by simp [Exact.repeated, hcount])
    | succ n =>
      rw [Placement.repeat?_succ, checked_word?] at hplaced
      rw [checked_bind hplaced]
      simp [Exact.repeated, hcount]
  · have hnone : t.arrayLength? = none := by
      have hsize : t.array = none := by simpa [TypeRef.isArray] using harray
      simp [TypeRef.arrayLength?, hsize]
    exact hvalue (by simp [placedAs, arrayLength, harray, bind, Except.bind]) (by simp [Exact.repeated, hnone])

variable {structs : Structs}

theorem placementFrom_numeric {n : NumericType} (hlookup : structs.lookup t.name = none)
    (hn : NumericType.ofName? t.name = some n) (hsized : t.isArray = true → t.arrayLength?.isSome) (fuel : Nat)
    (path : List String) : placementFrom structs fuel path t =
      checked ((⟨.ofNumeric n, []⟩ : Exact).repeated t).numbers ((⟨.ofNumeric n, []⟩ : Exact).repeated t).place := by
  rw [← placedAs_eq hsized, placementFrom, hlookup, hn, checked]
  rfl

theorem placementFrom_struct {fuel : Nat} {path : List String} {fields : List Param}
    {layout : Param → Exact} (hlookup : structs.lookup t.name = some fields) (hnew : t.name ∉ path)
    (hsized : t.isArray = true → t.arrayLength?.isSome) (hfields : ∀ f ∈ fields,
      placementFrom structs fuel (t.name :: path) f.type = checked (layout f).numbers (layout f).place) :
    placementFrom structs (fuel + 1) path t = checked ((Exact.struct (fields.map layout)).repeated t).numbers
      ((Exact.struct (fields.map layout)).repeated t).place := by
  have halign : ∀ size, (orError .tooLarge (align? size) >>= fun stride =>
      .ok { size, stride, aligned := true : Placement }) =
        checked [roundUp size] { size, stride := roundUp size, aligned := true } := fun size => by
    rw [align?_eq, ← checked_word? (roundUp size) fun stride => { size, stride, aligned := true : Placement }]
    cases word? (roundUp size) <;> rfl
  rw [← placedAs_eq hsized, placementFrom, hlookup]
  dsimp only
  rw [if_neg (by simpa using hnew), fieldsEnd_eq hfields 0]
  refine Eq.trans ?_ (congrArg (· >>= placedAs t) (checked_bind (f := fun size =>
    orError .tooLarge (align? size) >>= fun stride => .ok { size, stride, aligned := true }) (halign _)))
  simp only [bind_assoc]
  rfl

theorem placementFrom_exact (hsound : Sound structs) {fuel : Nat} {path : List String}
    (ht : Admits structs t) (hpath : ∀ a ∈ path, TransGen (Contains structs) a t.name)
    (hfuel : ((structs.map (·.1)).filter (· ∉ path)).length ≤ fuel) :
    ∃ e, Lays structs t e ∧ placementFrom structs fuel path t = checked e.numbers e.place := by
  induction fuel using Nat.strong_induction_on generalizing path t with
  | _ fuel ih =>
    cases hlookup : structs.lookup t.name with
    | none =>
      obtain ⟨n, hn⟩ := Option.isSome_iff_exists.mp (ht.known.resolve_left (by simp [hlookup]))
      exact ⟨_, .numeric hlookup hn, placementFrom_numeric hlookup hn ht.sized _ path⟩
    | some fields =>
      have hnew : t.name ∉ path := fun hmem => hsound.acyclic _ (hpath _ hmem)
      have hless := length_filter_notMem_lt (mem_keys_of_lookup hlookup) hnew
      obtain ⟨fuel, rfl⟩ := Nat.exists_eq_succ_of_ne_zero (n := fuel) (by omega)
      have hfields : ∀ f ∈ fields, ∃ e, Lays structs f.type e ∧
          placementFrom structs fuel (t.name :: path) f.type = checked e.numbers e.place := fun f hf => by
        have hcontains : Contains structs t.name f.type.name := ⟨fields, hlookup, f, hf, rfl⟩
        refine ih fuel (Nat.lt_succ_self fuel) (hsound.fields hlookup f hf) ?_ (by omega)
        exact forall_mem_cons.mpr ⟨.single hcontains, fun a ha => (hpath a ha).tail hcontains⟩
      choose! layout hlays hplace using hfields
      exact ⟨_, .struct layout hlookup hlays, placementFrom_struct hlookup hnew ht.sized hplace⟩

theorem packFrom_of_words {offset : Nat} {values : List (ValueMember × Placement)}
    (h : Words ((Placement.spans offset (values.map Prod.snd)).map Prod.snd)) :
    packFrom offset values = .ok (List.zipWith (fun v r => { v.1 with offset := r.1 }) values
      (Placement.spans offset (values.map Prod.snd)), Placement.behind offset (values.map Prod.snd)) := by
  induction values generalizing offset with
  | nil => rfl
  | cons v rest ih =>
    obtain ⟨hstop, hrest⟩ := forall_mem_cons.mp h
    rw [packFrom, Placement.range?_eq, word?_of_lt hstop, Option.map_some]
    dsimp only
    rw [ih hrest]
    rfl

theorem packFrom_of_not_words {offset : Nat} {values : List (ValueMember × Placement)}
    (h : ¬Words ((Placement.spans offset (values.map Prod.snd)).map Prod.snd)) :
    ∃ name, packFrom offset values = .error name := by
  induction values generalizing offset with
  | nil => exact absurd (forall_mem_nil _) h
  | cons v rest ih =>
    rw [packFrom, Placement.range?_eq]
    by_cases hstop : v.2.stop offset < UInt32.size
    · obtain ⟨name, hrest⟩ := ih fun hrest => h (forall_mem_cons.mpr ⟨hstop, hrest⟩)
      rw [word?_of_lt hstop, Option.map_some]
      dsimp only
      rw [hrest]
      exact ⟨name, rfl⟩
    · rw [word?_eq_none hstop]
      exact ⟨v.1.rawName, rfl⟩

end Layout

namespace Link

open Layout

namespace Pending

variable (b : Pending)

def spans : List (Nat × Nat) := Placement.spans 0 (b.values.map Prod.snd)

def members : List ValueMember := List.zipWith (fun v r => { v.1 with offset := r.1 }) b.values b.spans

def size : Nat := roundUp (Placement.behind 0 (b.values.map Prod.snd))

def numbers : List Nat := b.spans.map Prod.snd ++ [b.size]

end Pending

theorem take?_eq {s : State} (h : s.free .constantBuffer + 1 < UInt32.size) : ∃ t, t.log = s.log ∧
    t.reflection = s.reflection ∧ s.take? .constantBuffer 1 = some (s.free .constantBuffer, t) :=
  ⟨{ s with free := fun r => if r = .constantBuffer then s.free .constantBuffer + 1 else s.free r }, rfl, rfl, by
    rw [State.take?, word?_of_lt h]
    rfl⟩

theorem bindBuffer_of_words {s : State} {b : Pending} (hslot : s.free .constantBuffer + 1 < UInt32.size)
    (h : Words b.numbers) : (bindBuffer s b).log = s.log ∧ (bindBuffer s b).reflection =
      { s.reflection with
        bindings := s.reflection.bindings ++ [{
          key := b.name, rawName := b.name, type := .constantBuffer, slot := s.free .constantBuffer, count := 1 }]
        buffers := s.reflection.buffers ++ [⟨b.name, b.size, b.members⟩] } := by
  obtain ⟨hspans, hsize⟩ := forall_mem_append.mp h
  obtain ⟨t, hlog, hreflection, htake⟩ := take?_eq hslot
  have halign : align? (Placement.behind 0 (b.values.map Prod.snd)) = some b.size :=
    word?_of_lt (hsize _ mem_cons_self)
  rw [bindBuffer, packFrom_of_words hspans]
  simp only [htake, halign, State.bind, hlog, hreflection, true_and]
  rfl

theorem bindBuffer_of_not_words {s : State} {b : Pending} (hslot : s.free .constantBuffer + 1 < UInt32.size)
    (h : ¬Words b.numbers) : ∃ name, (bindBuffer s b).log = s.log ++ [⟨.error, b.loc, .parameterTooLarge name⟩] ∧
      (bindBuffer s b).reflection = s.reflection := by
  obtain ⟨t, hlog, hreflection, htake⟩ := take?_eq hslot
  by_cases hspans : Words (b.spans.map Prod.snd)
  · have hsize : ¬b.size < UInt32.size := fun hsize =>
      h (forall_mem_append.mpr ⟨hspans, words_singleton.mpr hsize⟩)
    have halign : align? (Placement.behind 0 (b.values.map Prod.snd)) = none := word?_eq_none hsize
    rw [bindBuffer, packFrom_of_words hspans]
    refine ⟨b.name, ?_⟩
    simp only [htake, halign, State.report, hlog, hreflection, and_self]
  · obtain ⟨name, hpack⟩ := packFrom_of_not_words hspans
    rw [bindBuffer, hpack]
    exact ⟨name, rfl, rfl⟩

theorem addVariable_value {structs : Structs} {d : Decl} {t : TypeRef} {semantic : Option String}
    {init : Option Initializer} {key : String} (hkind : d.kind = .var t semantic init) (hvalue : d.isValue = true)
    (hkey : key? d = .ok key) (s : State) :
    (∀ v, describe structs d key t = .ok v → addVariable structs d s = (some v, s)) ∧
    ∀ e, describe structs d key t = .error e →
      addVariable structs d s = (none, s.report (.errorAt d.loc (e.report d.name))) := by
  have hparameter : d.isParameter = true ∧ d.isResource = false := by simpa [Decl.isValue] using hvalue
  have hlinked : d.quals.isUnlinked = false := by
    simp_all [Decl.isParameter]
  have hresource : ResourceType.ofName? t.name = none := by
    simpa [Decl.isResource, hparameter.1, Decl.varType?, hkind] using hparameter.2
  constructor <;> intro _ h <;> simp [addVariable, hkind, hlinked, hresource, hkey, h]

theorem exists_shape {structs : Structs} {t : TypeRef} (ht : Admits structs t) :
    ∃ shape, shapeOf? structs t.name = some shape := by
  unfold shapeOf?
  split
  · exact ⟨_, rfl⟩
  · next hstruct =>
    obtain ⟨n, hn⟩ := Option.isSome_iff_exists.mp (ht.known.resolve_left hstruct)
    exact ⟨_, by rw [hn, Option.map_some]⟩

/-- Layout is that in natural numbers if all numbers on the way are words, and is reported as too
large otherwise. -/
theorem layout_exact {structs : Structs} (hsound : Sound structs) :
    (∀ t, Admits structs t → ∃ e, (∀ e', Lays structs t e' ↔ e' = e) ∧
      placement structs t = (if Words e.numbers then .ok e.place else .error .tooLarge) ∧
      ∀ d s, d.isValue = true → d.varType? = some t → (∃ key, key? d = .ok key) →
        (Words e.numbers →
          ∃ v, Describes structs d v ∧ v.2 = e.place ∧ addVariable structs d s = (some v, s)) ∧
        (¬Words e.numbers →
          addVariable structs d s = (none, s.report (.errorAt d.loc (.parameterTooLarge d.name))))) ∧
    ∀ (s : State) (b : Pending), s.free .constantBuffer + 1 < UInt32.size →
      (Words b.numbers → (bindBuffer s b).log = s.log ∧ (bindBuffer s b).reflection =
        { s.reflection with
          bindings := s.reflection.bindings ++ [{
            key := b.name, rawName := b.name, type := .constantBuffer, slot := s.free .constantBuffer, count := 1 }]
          buffers := s.reflection.buffers ++ [⟨b.name, b.size, b.members⟩] }) ∧
      (¬Words b.numbers → ∃ name, (bindBuffer s b).log = s.log ++ [⟨.error, b.loc, .parameterTooLarge name⟩] ∧
        (bindBuffer s b).reflection = s.reflection) := by
  refine ⟨fun t ht => ?_, fun s b hslot => ⟨bindBuffer_of_words hslot, bindBuffer_of_not_words hslot⟩⟩
  obtain ⟨e, hlays, hplace⟩ := placementFrom_exact hsound ht (List.forall_mem_nil _) (List.length_filter_le ..)
  rw [List.length_map] at hplace
  refine ⟨e, fun e' => ⟨fun h => h.unique hlays, fun h => h ▸ hlays⟩, hplace, ?_⟩
  rintro d s hvalue htype ⟨key, hkey⟩
  obtain ⟨semantic, init, hkind⟩ : ∃ semantic init, d.kind = .var t semantic init := by
    unfold Decl.varType? at htype
    split at htype <;> simp_all
  obtain ⟨shape, hshape⟩ := exists_shape ht
  obtain ⟨hok, herror⟩ := addVariable_value hkind hvalue hkey s
  refine ⟨fun hwords => ?_, fun hwords => herror .tooLarge ?_⟩
  · have hplaced : placement structs t = .ok e.place := hplace.trans (if_pos hwords)
    obtain ⟨v, hv, hsize⟩ : ∃ v, describe structs d key t = .ok v ∧ v.2 = e.place := by
      simp [describe, hshape, hplaced, orError, bind, Except.bind]
    exact ⟨v, describe_describes hkind hkey hv, hsize, hok v hv⟩
  · have hplaced : placement structs t = .error .tooLarge := hplace.trans (if_neg hwords)
    simp [describe, hshape, hplaced, orError, bind, Except.bind]

def lightRank (name : String) : Nat := if name = "Light" then 1 else if name = "Pair" then 2 else 0

theorem lights_layout_exact : Sound lightStructs ∧
    ∃ e, Lays lightStructs { name := "Pair" } e ∧ Words e.numbers ∧ e.place = ⟨128, 128, true⟩ := by
  have hsound : Sound lightStructs := by
    have hfields : ∀ s ∈ lightStructs, ∀ f ∈ s.2, lightRank f.type.name < lightRank s.1 ∧
        ((lightStructs.lookup f.type.name).isSome ∨ (NumericType.ofName? f.type.name).isSome) ∧
        (f.type.isArray = true → f.type.arrayLength?.isSome) := by
      decide +kernel
    refine .of_rank lightRank fun s hs f hf => ?_
    obtain ⟨hless, hknown, hsized⟩ := hfields s hs f hf
    exact ⟨hless, hknown, hsized⟩
  refine ⟨hsound, ?_⟩
  obtain ⟨e, hlays, hplace, -⟩ := (layout_exact hsound).1 { name := "Pair" } ⟨.inl (by decide), by decide⟩
  have hpair : placement lightStructs { name := "Pair" } = .ok ⟨128, 128, true⟩ := by decide +kernel
  rw [hpair] at hplace
  split at hplace
  · next hwords =>
    exact ⟨e, (hlays e).mpr rfl, hwords, (Except.ok.inj hplace).symm⟩
  · cases hplace

end Link

end ShaderCompose
