import ShaderCompose.Proofs.Reflect.Exact

/-!
Structures that contain themselves.
-/

namespace ShaderCompose.Layout

open List Relation

def Enters (structs : Structs) (inner outer : List String × String) : Prop :=
  inner.1 = outer.2 :: outer.1 ∧ outer.2 ∉ outer.1 ∧ Contains structs outer.2 inner.2

def unvisited (structs : Structs) (path : List String) : List String := (structs.map (·.1)).filter (· ∉ path)

variable {structs : Structs} {fuel fuel' : Nat} {path : List String} {t : TypeRef} {n : String}

variable {fields : List Param}

theorem length_unvisited_lt (hlookup : structs.lookup n = some fields) (hnew : n ∉ path) :
    (unvisited structs (n :: path)).length < (unvisited structs path).length :=
  length_filter_notMem_lt (mem_keys_of_lookup hlookup) hnew

theorem length_unvisited_le : (unvisited structs path).length ≤ structs.length :=
  (length_filter_le ..).trans (length_map _).le

theorem enters_wellFounded (structs : Structs) : WellFounded (Enters structs) := by
  refine Subrelation.wf ?_ (measure fun c : List String × String => (unvisited structs c.1).length).wf
  rintro ⟨_, b⟩ ⟨path, a⟩ ⟨rfl, hnew, fields, hlookup, -⟩
  exact length_unvisited_lt hlookup hnew

def unfolding (structs : Structs) (inner : TypeRef → Except LayoutError Placement) (path : List String)
    (t : TypeRef) : Except LayoutError Placement :=
  (match structs.lookup t.name with
    | some fields =>
      if t.name ∈ path then .error (.recursive t.name)
      else fieldsEnd inner 0 fields >>= fun size => orError .tooLarge (align? size) >>= fun stride =>
        .ok { size, stride, aligned := true : Placement }
    | none => (orError .unknownType (NumericType.ofName? t.name)).map Placement.ofNumeric) >>= placedAs t

theorem unfolding_congr {inner inner' : TypeRef → Except LayoutError Placement}
    (h : ∀ fields, structs.lookup t.name = some fields → t.name ∉ path → inner = inner') :
    unfolding structs inner path t = unfolding structs inner' path t := by
  unfold unfolding
  cases hlookup : structs.lookup t.name with
  | none => rfl
  | some fields =>
    by_cases hpath : t.name ∈ path
    · simp only [if_pos hpath]
    · rw [h fields hlookup hpath]

theorem placementFrom_eq_unfolding (hfuel : (unvisited structs path).length ≤ fuel) :
    placementFrom structs fuel path t =
      unfolding structs (placementFrom structs (fuel - 1) (t.name :: path)) path t := by
  rw [placementFrom, unfolding]
  cases hlookup : structs.lookup t.name with
  | none => rfl
  | some fields =>
    by_cases hpath : t.name ∈ path
    · simp [hpath]
      rfl
    · have hless := length_unvisited_lt hlookup hpath
      obtain ⟨fuel, rfl⟩ := Nat.exists_eq_succ_of_ne_zero (n := fuel) (by omega)
      simp [hpath]
      rfl

theorem placementFrom_eq_of_le (hfuel : (unvisited structs path).length ≤ fuel)
    (hfuel' : (unvisited structs path).length ≤ fuel') :
    placementFrom structs fuel path t = placementFrom structs fuel' path t := by
  induction fuel using Nat.strong_induction_on generalizing fuel' path t with
  | _ fuel ih =>
    rw [placementFrom_eq_unfolding hfuel, placementFrom_eq_unfolding hfuel']
    refine unfolding_congr fun fields hlookup hpath => ?_
    have hless := length_unvisited_lt hlookup hpath
    funext f
    exact ih (fuel - 1) (by omega) (by omega) (by omega)

theorem exists_unfolding (structs : Structs) (t : TypeRef) :
    ∃ layout : List String → TypeRef → Except LayoutError Placement,
      (∀ path t, layout path t = unfolding structs (layout (t.name :: path)) path t) ∧
      layout [] t = placement structs t := by
  refine ⟨fun path => placementFrom structs (unvisited structs path).length path, fun path t => ?_,
    placementFrom_eq_of_le (Nat.le_refl _) length_unvisited_le⟩
  refine (placementFrom_eq_unfolding (Nat.le_refl _)).trans (unfolding_congr fun fields hlookup hpath => ?_)
  have hless := length_unvisited_lt hlookup hpath
  funext f
  exact placementFrom_eq_of_le (by omega) (Nat.le_refl _)

/-! ## Placed and refused -/

def PlacedBelow (structs : Structs) (path : List String) (name : String) : Prop :=
  ∃ fuel t p, t.name = name ∧ placementFrom structs fuel path t = .ok p

theorem ok_of_fieldsEnd {place : TypeRef → Except LayoutError Placement} {offset stop : Nat}
    (h : fieldsEnd place offset fields = .ok stop) : ∀ f ∈ fields, ∃ p, place f.type = .ok p := by
  induction fields generalizing offset with
  | nil => exact forall_mem_nil _
  | cons f fs ih =>
    rw [fieldsEnd] at h
    cases hplace : place f.type with
    | error e => rw [hplace] at h; cases h
    | ok p =>
      cases hrange : p.range? offset with
      | none => simp only [hplace, hrange, bind, Except.bind] at h; cases h
      | some range =>
        simp only [hplace, hrange, bind, Except.bind] at h
        exact forall_mem_cons.mpr ⟨⟨p, hplace⟩, ih h⟩

theorem PlacedBelow.contains {a b : String} (h : PlacedBelow structs path a) (hab : Contains structs a b) :
    a ∉ path ∧ PlacedBelow structs (a :: path) b := by
  obtain ⟨fuel, t, p, rfl, hplaced⟩ := h
  obtain ⟨fields, hlookup, f, hf, rfl⟩ := hab
  obtain ⟨element, helement, -⟩ := placementFrom_eq_ok hplaced
  cases helement with
  | numeric hnone => cases hnone.symm.trans hlookup
  | struct hlookup' hnew _ hfields =>
    cases hlookup.symm.trans hlookup'
    obtain ⟨q, hq⟩ := ok_of_fieldsEnd hfields f hf
    exact ⟨by simpa using hnew, _, f.type, q, rfl, hq⟩

theorem placedAs_ne_recursive {element : Placement} : placedAs t element ≠ .error (.recursive n) := by
  intro h
  unfold placedAs arrayLength at h
  split at h
  · cases hcount : t.arrayLength? with
    | none => rw [hcount] at h; cases h
    | some count => cases hp : element.repeat? count <;> simp [hcount, hp, bind, Except.bind, orError] at h
  · cases h

theorem recursive_of_fieldsEnd {place : TypeRef → Except LayoutError Placement}
    {offset : Nat} (h : fieldsEnd place offset fields = .error (.recursive n)) :
    ∃ f ∈ fields, place f.type = .error (.recursive n) := by
  induction fields generalizing offset with
  | nil => cases h
  | cons f fs ih =>
    rw [fieldsEnd] at h
    cases hplace : place f.type with
    | error e =>
      rw [hplace] at h
      cases h
      exact ⟨f, mem_cons_self, hplace⟩
    | ok p =>
      cases hrange : p.range? offset with
      | none => simp [hplace, hrange, bind, Except.bind, orError] at h
      | some range =>
        simp only [hplace, hrange, bind, Except.bind] at h
        obtain ⟨g, hg, hfail⟩ := ih h
        exact ⟨g, mem_cons_of_mem _ hg, hfail⟩

theorem recursive_of_unfolding {inner : TypeRef → Except LayoutError Placement}
    (h : unfolding structs inner path t = .error (.recursive n)) :
    n = t.name ∧ n ∈ path ∨ ∃ fields, structs.lookup t.name = some fields ∧ t.name ∉ path ∧
      ∃ f ∈ fields, inner f.type = .error (.recursive n) := by
  unfold unfolding at h
  cases hlookup : structs.lookup t.name with
  | none =>
    rw [hlookup] at h
    cases hn : NumericType.ofName? t.name with
    | none => rw [hn] at h; cases h
    | some m => rw [hn] at h; exact absurd h placedAs_ne_recursive
  | some fields =>
    rw [hlookup] at h
    dsimp only at h
    by_cases hpath : t.name ∈ path
    · rw [if_pos hpath] at h
      cases h
      exact .inl ⟨rfl, hpath⟩
    · rw [if_neg hpath] at h
      cases hsize : fieldsEnd inner 0 fields with
      | error e =>
        rw [hsize] at h
        cases h
        exact .inr ⟨fields, rfl, hpath, recursive_of_fieldsEnd hsize⟩
      | ok size =>
        cases hstride : align? size with
        | none => simp [hsize, hstride, bind, Except.bind, orError] at h
        | some stride =>
          simp only [hsize, hstride, bind, Except.bind] at h
          exact absurd h placedAs_ne_recursive

theorem loop_of_recursive (hfuel : (unvisited structs path).length ≤ fuel)
    (hpath : ∀ a ∈ path, TransGen (Contains structs) a t.name)
    (h : placementFrom structs fuel path t = .error (.recursive n)) :
    ReflTransGen (Contains structs) t.name n ∧ TransGen (Contains structs) n n := by
  induction fuel using Nat.strong_induction_on generalizing path t with
  | _ fuel ih =>
    rw [placementFrom_eq_unfolding hfuel] at h
    obtain ⟨rfl, hmem⟩ | ⟨fields, hlookup, hnew, f, hf, hfail⟩ := recursive_of_unfolding h
    · exact ⟨.refl, hpath _ hmem⟩
    · have hless := length_unvisited_lt hlookup hnew
      have hcontains : Contains structs t.name f.type.name := ⟨fields, hlookup, f, hf, rfl⟩
      obtain ⟨hreach, hloop⟩ := ih (fuel - 1) (by omega) (by omega)
        (forall_mem_cons.mpr ⟨.single hcontains, fun a ha => (hpath a ha).tail hcontains⟩) hfail
      exact ⟨.head hcontains hreach, hloop⟩

/-- A type that reaches a structure that contains itself has no layout, and only such structures are
reported. -/
theorem recursion_found (structs : Structs) (t : TypeRef) :
    WellFounded (Enters structs) ∧
    (∃ layout : List String → TypeRef → Except LayoutError Placement,
      (∀ path t, layout path t = unfolding structs (layout (t.name :: path)) path t) ∧
      layout [] t = placement structs t) ∧
    (∀ p, placement structs t = .ok p → ∀ n, ReflTransGen (Contains structs) t.name n →
      ¬TransGen (Contains structs) n n) ∧
    (∀ n, placement structs t = .error (.recursive n) →
      ReflTransGen (Contains structs) t.name n ∧ TransGen (Contains structs) n n) ∧
    ∀ n, ReflTransGen (Contains structs) t.name n → TransGen (Contains structs) n n →
      ∃ e, placement structs t = .error e := by
  have hplaced : ∀ p, placement structs t = .ok p → ∀ n, ReflTransGen (Contains structs) t.name n →
      ¬TransGen (Contains structs) n n := by
    intro p hp n hreach
    have hroot : PlacedBelow structs [] t.name := ⟨_, t, p, rfl, hp⟩
    obtain ⟨path, -, hn⟩ := descend hroot hreach fun _ _ _ h hab => (h.contains hab).2
    exact not_loop_of_descent hn fun _ _ _ h hab => h.contains hab
  refine ⟨enters_wellFounded structs, exists_unfolding structs t, hplaced, fun n h => ?_, fun n hreach hloop => ?_⟩
  · exact loop_of_recursive length_unvisited_le (forall_mem_nil _) h
  · cases hp : placement structs t with
    | ok p => exact absurd hloop (hplaced p hp n hreach)
    | error e => exact ⟨e, rfl⟩

end ShaderCompose.Layout
