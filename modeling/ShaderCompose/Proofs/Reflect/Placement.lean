import Mathlib.Data.Set.Pairwise.Basic
import Mathlib.Order.Bounds.Basic
import Mathlib.Order.CompletePartialOrder
import Mathlib.Order.Interval.Set.Disjoint
import ShaderCompose.Reflect.Layout

/-!
Where values are placed.
-/

namespace ShaderCompose

namespace NumericType

def lanes (t : NumericType) : Nat := if t.isMatrix then t.rows else t.columns

def registers (t : NumericType) : Nat := if t.isMatrix then t.columns else 1

structure Proper (t : NumericType) : Prop where
  rows : 1 ≤ t.rows ∧ t.rows ≤ 4
  columns : 1 ≤ t.columns ∧ t.columns ≤ 4

theorem dimension?_bounds {c : Char} {n : Nat} (h : dimension? c = some n) : 1 ≤ n ∧ n ≤ 4 := by
  unfold dimension? at h
  split at h
  · next hc =>
    cases h
    have hlow : 49 ≤ c.toNat := hc.1
    have hhigh : c.toNat ≤ 52 := hc.2
    have hdigit : Text.isDigit c = true := by
      simp only [Text.isDigit, Bool.and_eq_true, decide_eq_true_eq]
      exact ⟨Nat.le_trans (by decide) hlow, Nat.le_trans hhigh (by decide)⟩
    rw [Text.digitValue, if_pos hdigit, show '0'.toNat = 48 from rfl]
    omega
  · cases h

theorem shape?_proper {scalar : Scalar} {cs : List Char} {t : NumericType}
    (h : shape? scalar cs = some t) : t.Proper := by
  unfold shape? at h
  split at h
  · cases h
    exact ⟨by simp, by simp⟩
  · obtain ⟨columns, hcolumns, rfl⟩ := Option.map_eq_some_iff.mp h
    exact ⟨by simp, dimension?_bounds hcolumns⟩
  · obtain ⟨rows, hrows, h⟩ := Option.bind_eq_some_iff.mp h
    obtain ⟨columns, hcolumns, rfl⟩ := Option.map_eq_some_iff.mp h
    exact ⟨dimension?_bounds hrows, dimension?_bounds hcolumns⟩
  · cases h

theorem ofName?_proper {name : String} {t : NumericType} (h : ofName? name = some t) : t.Proper := by
  obtain ⟨scalar, -, h⟩ := List.exists_of_findSome?_eq_some h
  obtain ⟨cs, -, h⟩ := Option.bind_eq_some_iff.mp h
  exact shape?_proper h

end NumericType

namespace Layout

/-! ## Words and registers -/

theorem word?_eq_some {n k : Nat} : word? n = some k ↔ n < UInt32.size ∧ n = k := by
  unfold word?
  split <;> simp_all

theorem align?_isLeast {offset k : Nat} (h : align? offset = some k) :
    IsLeast {n | offset ≤ n ∧ registerSize ∣ n} k := by
  obtain ⟨-, rfl⟩ := word?_eq_some.mp h
  unfold registerSize
  refine ⟨⟨by omega, Nat.dvd_mul_left ..⟩, ?_⟩
  rintro n ⟨hle, m, rfl⟩
  omega

namespace Placement

/-- Where a value starts, and when it crosses a register. -/
structure Placed (p : Placement) (offset start : Nat) : Prop where
  after : offset ≤ start
  aligned : p.aligned = true → registerSize ∣ start
  small : p.size ≤ registerSize → start % registerSize + p.size ≤ registerSize
  large : registerSize < p.size → registerSize ∣ start

variable {p : Placement}

theorem start?_placed {offset start : Nat} (h : p.start? offset = some start) :
    p.Placed offset start := by
  obtain ⟨last, hlast, h⟩ := Option.bind_eq_some_iff.mp h
  obtain ⟨-, rfl⟩ := word?_eq_some.mp hlast
  split at h
  · obtain ⟨hle, hdvd⟩ := (align?_isLeast h).1
    refine ⟨hle, fun _ => hdvd, fun hsmall => ?_, fun _ => hdvd⟩
    rw [Nat.mod_eq_zero_of_dvd hdvd, Nat.zero_add]
    exact hsmall
  · next hkept =>
    cases h
    simp only [Bool.or_eq_true, decide_eq_true_eq, not_or, Nat.not_lt] at hkept
    refine ⟨Nat.le_refl _, fun haligned => absurd haligned hkept.1, fun _ => hkept.2, fun hlarge => ?_⟩
    omega

theorem range?_spec {offset start stop : Nat}
    (h : p.range? offset = some (start, stop)) : p.Placed offset start ∧ stop = start + p.size := by
  obtain ⟨first, hstart, h⟩ := Option.bind_eq_some_iff.mp h
  obtain ⟨last, hstop, heq⟩ := Option.map_eq_some_iff.mp h
  obtain ⟨rfl, rfl⟩ := Prod.mk.inj heq
  exact ⟨start?_placed hstart, (word?_eq_some.mp hstop).2.symm⟩

def bytesOf (p : Placement) (i : Nat) : Set Nat := Set.Ico (i * p.stride) (i * p.stride + p.size)

theorem pairwise_disjoint_bytesOf :
    Pairwise (Function.onFun Disjoint p.bytesOf) ↔ p.size ≤ p.stride := by
  constructor
  · intro h
    have hfirst := h Nat.zero_ne_one
    by_contra hlarge
    have hzero : p.stride ∈ p.bytesOf 0 := Set.mem_Ico.mpr ⟨by omega, by omega⟩
    have hone : p.stride ∈ p.bytesOf 1 := Set.mem_Ico.mpr ⟨by omega, by omega⟩
    exact Set.disjoint_left.mp hfirst hzero hone
  · intro hsize
    have apart : ∀ i j, i < j → Disjoint (p.bytesOf i) (p.bytesOf j) := by
      intro i j hij
      have hnext : (i + 1) * p.stride ≤ j * p.stride := Nat.mul_le_mul_right _ hij
      rw [Nat.succ_mul] at hnext
      exact Set.Ico_disjoint_Ico.mpr (by omega)
    intro i j hne
    rcases Nat.lt_or_gt_of_ne hne with hij | hji
    · exact apart i j hij
    · exact (apart j i hji).symm

variable (t : NumericType)

theorem stride_ofNumeric : (ofNumeric t).stride = t.registers * registerSize := by
  unfold ofNumeric NumericType.registers
  split <;> rfl

theorem aligned_ofNumeric : (ofNumeric t).aligned = decide (1 < t.registers) := by
  unfold ofNumeric NumericType.registers
  split <;> rfl

theorem size_ofNumeric : (ofNumeric t).size =
      (t.registers - 1) * registerSize + t.lanes * (ValueType.ofScalar t.scalar).size := by
  unfold ofNumeric NumericType.registers NumericType.lanes
  split <;> rfl

theorem size_le_stride_ofNumeric {t : NumericType} (h : t.Proper) :
    (ofNumeric t).size ≤ (ofNumeric t).stride ↔ ¬ (t.scalar = .double ∧ 2 < t.lanes) := by
  have hregisters : 1 ≤ t.registers := by
    unfold NumericType.registers
    split
    · exact h.columns.1
    · exact Nat.le_refl 1
  have hlanes : t.lanes ≤ 4 := by
    unfold NumericType.lanes
    split
    · exact h.rows.2
    · exact h.columns.2
  rw [size_ofNumeric, stride_ofNumeric]
  -- only the last register is not filled by what lies in front of it
  have hlast : (t.registers - 1) * registerSize + registerSize = t.registers * registerSize := by
    rw [← Nat.succ_mul, Nat.succ_eq_add_one, Nat.sub_add_cancel hregisters]
  unfold registerSize
  cases t.scalar <;> simp only [ValueType.ofScalar, ValueType.size] <;> grind

end Placement

def Overfull (structs : Structs) (t : TypeRef) : Prop :=
  structs.lookup t.name = none ∧ ∃ n, NumericType.ofName? t.name = some n ∧ n.scalar = .double ∧ 2 < n.lanes

inductive Element (structs : Structs) (fuel : Nat) (path : List String) (t : TypeRef) :
    Placement → Prop
  | struct {fields : List Param} {size stride less : Nat} : structs.lookup t.name = some fields →
      path.contains t.name = false → fuel = less + 1 →
      fieldsEnd (placementFrom structs less (t.name :: path)) 0 fields = .ok size →
      align? size = some stride → Element structs fuel path t ⟨size, stride, true⟩
  | numeric {n : NumericType} : structs.lookup t.name = none → NumericType.ofName? t.name = some n →
      Element structs fuel path t (.ofNumeric n)

theorem orError_eq_ok {α : Type} {e : LayoutError} {o : Option α} {a : α} : orError e o = .ok a ↔ o = some a := by
  cases o with
  | none => simp [orError]
  | some b => simp [orError]

def placedAs (t : TypeRef) (element : Placement) : Except LayoutError Placement :=
  arrayLength t >>= fun
    | some count => orError .tooLarge (element.repeat? count)
    | none => .ok element

theorem placedAs_eq_ok {t : TypeRef} {element p : Placement} (h : placedAs t element = .ok p) :
    t.isArray = false ∧ p = element ∨
      ∃ count, t.isArray = true ∧ t.arrayLength? = some count ∧ element.repeat? count = some p := by
  unfold placedAs arrayLength at h
  split at h
  · next harray =>
    cases hcount : t.arrayLength? with
    | none =>
      rw [hcount] at h
      cases h
    | some count =>
      rw [hcount] at h
      exact .inr ⟨count, harray, rfl, orError_eq_ok.mp h⟩
  · next harray =>
    cases h
    exact .inl ⟨eq_false_of_ne_true harray, rfl⟩

theorem placementFrom_eq_ok {structs : Structs} {fuel : Nat} {path : List String} {t : TypeRef}
    {p : Placement} (h : placementFrom structs fuel path t = .ok p) :
    ∃ element, Element structs fuel path t element ∧ (t.isArray = false ∧ p = element ∨
        ∃ count, t.isArray = true ∧ t.arrayLength? = some count ∧ element.repeat? count = some p) := by
  rw [placementFrom] at h
  cases hlookup : structs.lookup t.name with
  | none =>
    rw [hlookup] at h
    cases hn : NumericType.ofName? t.name with
    | none =>
      rw [hn] at h
      cases h
    | some n =>
      rw [hn] at h
      exact ⟨_, .numeric hlookup hn, placedAs_eq_ok h⟩
  | some fields =>
    rw [hlookup] at h
    dsimp only at h
    by_cases hpath : path.contains t.name = true
    · rw [if_pos hpath] at h
      cases h
    · rw [if_neg hpath] at h
      cases fuel with
      | zero => cases h
      | succ less =>
        dsimp only at h
        cases hsize : fieldsEnd (placementFrom structs less (t.name :: path)) 0 fields with
        | error e =>
          rw [hsize] at h
          cases h
        | ok size =>
          cases hstride : align? size with
          | none =>
            simp only [hsize, hstride, bind, Except.bind] at h
            cases h
          | some stride =>
            simp only [hsize, hstride, bind, Except.bind] at h
            exact ⟨_, .struct hlookup (eq_false_of_ne_true hpath) rfl hsize hstride, placedAs_eq_ok h⟩

namespace Element

variable {structs : Structs} {fuel : Nat} {path : List String} {t : TypeRef} {p : Placement}

theorem registerSize_dvd_stride (h : Element structs fuel path t p) : registerSize ∣ p.stride := by
  cases h with
  | struct _ _ _ _ hstride => exact (align?_isLeast hstride).1.2
  | numeric _ _ =>
    exact Nat.dvd_mul_left ..

theorem aligned (h : Element structs fuel path t p) (hkind : (structs.lookup t.name).isSome = true ∨
    ∃ n, NumericType.ofName? t.name = some n ∧ 1 < n.registers) : p.aligned = true := by
  cases h with
  | struct => rfl
  | numeric hlookup hn =>
    rcases hkind with hsome | ⟨n, hn', hregisters⟩
    · rw [hlookup] at hsome
      cases hsome
    · cases hn.symm.trans hn'
      rw [Placement.aligned_ofNumeric]
      exact decide_eq_true hregisters

theorem size_le_stride_iff (h : Element structs fuel path t p) : p.size ≤ p.stride ↔ ¬ Overfull structs t := by
  cases h with
  | struct hlookup _ _ _ hstride => simp [Overfull, hlookup, (align?_isLeast hstride).1.1]
  | numeric hlookup hn =>
    rw [Placement.size_le_stride_ofNumeric (NumericType.ofName?_proper hn)]
    simp [Overfull, hlookup, hn]

end Element

theorem aligned_of_placement {structs : Structs} {t : TypeRef} {p : Placement}
    (h : placement structs t = .ok p) (hkind : (∃ count, t.arrayLength? = some count ∧ 0 < count) ∨
      (structs.lookup t.name).isSome = true ∨
      ∃ n, NumericType.ofName? t.name = some n ∧ 1 < n.registers) : p.aligned = true := by
  obtain ⟨element, helement, ⟨harray, rfl⟩ | ⟨count, -, hcount, hp⟩⟩ := placementFrom_eq_ok h
  · refine helement.aligned (hkind.resolve_left ?_)
    rintro ⟨count, hcount, -⟩
    have hnone : t.array = none := by simpa [TypeRef.isArray] using harray
    simp [TypeRef.arrayLength?, hnone] at hcount
  · unfold Placement.repeat? at hp
    split at hp
    · next hzero =>
      cases hp
      refine helement.aligned (hkind.resolve_left ?_)
      rintro ⟨count', hcount', hpos⟩
      cases hcount.symm.trans hcount'
      omega
    · obtain ⟨before, -, hp⟩ := Option.bind_eq_some_iff.mp hp
      obtain ⟨size, -, rfl⟩ := Option.map_eq_some_iff.mp hp
      rfl

/-- The elements of an array are disjoint exactly if their type is not overfull. -/
theorem elements_disjoint_iff {structs : Structs} {t : TypeRef} {p : Placement} (ht : t.isArray = false)
    (h : placement structs t = .ok p) :
    registerSize ∣ p.stride ∧ (p.size ≤ p.stride ↔ ¬ Overfull structs t) ∧
      (Pairwise (Function.onFun Disjoint p.bytesOf) ↔ ¬ Overfull structs t) := by
  obtain ⟨element, helement, ⟨-, rfl⟩ | ⟨_, harray, -⟩⟩ := placementFrom_eq_ok h
  · exact ⟨helement.registerSize_dvd_stride, helement.size_le_stride_iff,
      Placement.pairwise_disjoint_bytesOf.trans helement.size_le_stride_iff⟩
  · cases ht.symm.trans harray

def lightStructs : Structs :=
  [("Pair", [{ name := "near", type := { name := "Light" }, loc := .generated },
      { name := "far", type := { name := "Light" }, loc := .generated }]),
    ("Light", [{ name := "color", type := { name := "float3" }, loc := .generated },
      { name := "falloff", loc := .generated
        type := { name := "double2", array := some (.fixed (.literal .generated (.int 3))) } }])]

theorem pair_elements_disjoint :
    placement lightStructs { name := "Pair" } = .ok ⟨128, 128, true⟩ ∧
      Pairwise (Function.onFun Disjoint (⟨128, 128, true⟩ : Placement).bytesOf) := by
  have h : placement lightStructs { name := "Pair" } = .ok ⟨128, 128, true⟩ := by decide +kernel
  refine ⟨h, (elements_disjoint_iff rfl h).2.2.mpr ?_⟩
  rintro ⟨hlookup, -⟩
  exact absurd hlookup (by decide)

theorem double_vectors_overlap :
    placement [] { name := "double4" } = .ok ⟨32, 16, false⟩ ∧
      ¬ (⟨32, 16, false⟩ : Placement).size ≤ (⟨32, 16, false⟩ : Placement).stride ∧
      ¬ Pairwise (Function.onFun Disjoint (⟨32, 16, false⟩ : Placement).bytesOf) := by
  refine ⟨by decide +kernel, by decide, ?_⟩
  rw [Placement.pairwise_disjoint_bytesOf]
  decide

end Layout

end ShaderCompose
