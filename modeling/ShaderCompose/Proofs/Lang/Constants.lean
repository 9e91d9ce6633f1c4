import Mathlib.Data.Int.Bitwise
import ShaderCompose.Lang.Expr

/-!
Folded constants and their values in integers of any size.
-/

namespace ShaderCompose

open List Text

/-! ## Integers of any size -/

def UnaryOp.value? : UnaryOp → Int → Option Int
  | neg, a => some (-a)
  | plus, a => some a
  | bitNot, a => some a.lnot
  | _, _ => none

def BinaryOp.value? : BinaryOp → Int → Int → Option Int
  | add, a, b => some (a + b)
  | sub, a, b => some (a - b)
  | mul, a, b => some (a * b)
  | div, a, b => if b = 0 then none else some (a.tdiv b)
  | rem, a, b => if b = 0 then none else some (a.tmod b)
  | shl, a, b => if 0 ≤ b then some (a * 2 ^ b.toNat) else none
  | shr, a, b => if 0 ≤ b then some (a.fdiv (2 ^ b.toNat)) else none
  | bitAnd, a, b => some (a.land b)
  | bitOr, a, b => some (a.lor b)
  | bitXor, a, b => some (a.xor b)
  | _, _, _ => none

def BinaryOp.InRange : BinaryOp → Int → Int → Prop
  | rem, a, b => fitsInt64 (a.tdiv b) = true
  | shl, _, b | shr, _, b => b < 64
  | _, _, _ => True

namespace Expr

def value? : Expr → Option Int
  | literal _ (.int n) => some n
  | unary _ op operand => operand.value?.bind op.value?
  | binary _ op lhs rhs => lhs.value?.bind fun a => rhs.value?.bind fun b => op.value? a b
  | _ => none

def terms : Expr → List Expr
  | unary loc op operand => unary loc op operand :: operand.terms
  | binary loc op lhs rhs => binary loc op lhs rhs :: (lhs.terms ++ rhs.terms)
  | e => [e]

def isShiftLeft : Expr → Bool
  | binary _ .shl _ _ => true
  | _ => false

def InRange : Expr → Prop
  | unary _ _ operand => operand.InRange
  | binary _ op lhs rhs => (∀ a b, lhs.value? = some a → rhs.value? = some b → op.InRange a b) ∧
      lhs.InRange ∧ rhs.InRange
  | _ => True

end Expr

theorem fitsInt64_iff {n : Int} : fitsInt64 n = true ↔ -9223372036854775808 ≤ n ∧ n < 9223372036854775808 := by
  simp only [fitsInt64, Bool.and_eq_true, decide_eq_true_eq]
  exact Iff.rfl

theorem fitsInt64_ofNat {n : Nat} : fitsInt64 (Int.ofNat n) = true ↔ n < 2 ^ 63 := by
  rw [fitsInt64_iff, Int.ofNat_eq_natCast]
  omega

theorem fitsInt64_negSucc {n : Nat} : fitsInt64 (Int.negSucc n) = true ↔ n < 2 ^ 63 := by
  rw [fitsInt64_iff]
  omega

theorem toInt_ofInt {n : Int} (h : fitsInt64 n = true) : (BitVec.ofInt 64 n).toInt = n := by
  obtain ⟨hlow, hhigh⟩ := fitsInt64_iff.mp h
  exact BitVec.toInt_ofInt_eq_self (by decide) hlow hhigh

theorem getLsbD_ofInt (n : Int) {i : Nat} (hi : i < 64) : (BitVec.ofInt 64 n).getLsbD i = n.testBit i := by
  cases n with
  | ofNat n =>
    rw [Int.ofNat_eq_natCast, BitVec.ofInt_natCast, BitVec.getLsbD_ofNat]
    simp [hi, Int.testBit]
  | negSucc n =>
    rw [BitVec.ofInt_negSucc_eq_not_ofNat, BitVec.getLsbD_not, BitVec.getLsbD_ofNat]
    simp [hi, Int.testBit]

theorem fitsInt64_natBitwise (f : Bool → Bool → Bool) {m n : Nat} (hm : m < 2 ^ 63) (hn : n < 2 ^ 63) :
    fitsInt64 (Int.natBitwise f m n) = true := by
  unfold Int.natBitwise
  cases f false false with
  | false => exact fitsInt64_ofNat.mpr (Nat.bitwise_lt_two_pow hm hn)
  | true => exact fitsInt64_negSucc.mpr (Nat.bitwise_lt_two_pow hm hn)

section

variable {a b v : Int}

theorem fitsInt64_bitwise (f : Bool → Bool → Bool) (ha : fitsInt64 a = true) (hb : fitsInt64 b = true) :
    fitsInt64 (Int.bitwise f a b) = true := by
  cases a <;> cases b <;> simp only [fitsInt64_ofNat, fitsInt64_negSucc] at ha hb <;> unfold Int.bitwise <;>
    exact fitsInt64_natBitwise _ ha hb

theorem onWords_eq {g : BitVec 64 → BitVec 64 → BitVec 64} {f : Bool → Bool → Bool} {k : Int → Int → Int}
    (hf : Int.bitwise f = k) (h : ∀ x y i, (g x y).getLsbD i = f (x.getLsbD i) (y.getLsbD i))
    (ha : fitsInt64 a = true) (hb : fitsInt64 b = true) : onWords g a b = k a b ∧ fitsInt64 (k a b) = true := by
  subst hf
  have hfits := fitsInt64_bitwise f ha hb
  have hbits : g (.ofInt 64 a) (.ofInt 64 b) = .ofInt 64 (Int.bitwise f a b) := by
    refine BitVec.eq_of_getLsbD_eq fun i hi => ?_
    rw [h, getLsbD_ofInt a hi, getLsbD_ofInt b hi, getLsbD_ofInt _ hi, Int.testBit_bitwise]
  rw [onWords, hbits, toInt_ofInt hfits]
  exact ⟨rfl, hfits⟩

theorem fitsInt64_tmod (hb : fitsInt64 b = true) (hne : b ≠ 0) : fitsInt64 (a.tmod b) = true := by
  have hless : (a.tmod b).natAbs < b.natAbs := by
    rw [Int.natAbs_tmod]
    exact Nat.mod_lt _ (Int.natAbs_pos.mpr hne)
  rw [fitsInt64_iff] at hb ⊢
  omega

theorem fitsInt64_fdiv (n : Nat) (ha : fitsInt64 a = true) : fitsInt64 (a.fdiv (2 ^ n)) = true := by
  have hpos : (0 : Int) < 2 ^ n := Int.pow_pos (by decide)
  rw [Int.fdiv_eq_ediv_of_nonneg _ (Int.le_of_lt hpos)]
  rw [fitsInt64_iff] at ha ⊢
  by_cases hnonneg : 0 ≤ a
  · have hle := Int.ediv_le_self (2 ^ n) hnonneg
    have hge := Int.ediv_nonneg hnonneg (Int.le_of_lt hpos)
    omega
  · have hone : (1 : Int) ≤ 2 ^ n := hpos
    have hge : a ≤ a / 2 ^ n :=
      Int.le_ediv_of_mul_le hpos (by simpa using Int.mul_le_mul_of_nonpos_left (a := a) (by omega) hone)
    have hless := Int.ediv_neg_of_neg_of_pos (Int.not_le.mp hnonneg) hpos
    omega

theorem shiftLeft_ofInt (a : Int) (n : Nat) : BitVec.ofInt 64 a <<< n = BitVec.ofInt 64 (a * 2 ^ n) := by
  have hpow : BitVec.twoPow 64 n = BitVec.ofInt 64 (2 ^ n) := by
    refine BitVec.eq_of_toNat_eq ?_
    rw [BitVec.toNat_twoPow]
    norm_cast
  rw [BitVec.shiftLeft_eq_mul_twoPow, BitVec.ofInt_mul, hpow]

theorem BinaryOp.fold_eq_some_iff {op : BinaryOp} (ha : fitsInt64 a = true) (hb : fitsInt64 b = true)
    (hshift : op = .shl → ∀ w, op.value? a b = some w → fitsInt64 w = true) :
    op.fold a b = some v ↔ op.value? a b = some v ∧ fitsInt64 v = true ∧ op.InRange a b := by
  have hkept : ∀ {w : Int}, fitsInt64 w = true → (some w = some v ↔ some w = some v ∧ fitsInt64 v = true ∧ True) :=
    fun hw => ⟨fun h => ⟨h, Option.some.inj h ▸ hw, trivial⟩, And.left⟩
  cases op with
  | add | sub | mul => simp only [fold, value?, InRange, asInt64_eq_some_iff]; grind
  | div =>
    by_cases hzero : b = 0
    · simp [fold, value?, hzero]
    · simp only [fold, value?, InRange, hzero, if_false, asInt64_eq_some_iff]; grind
  | rem =>
    by_cases hzero : b = 0
    · simp [fold, value?, hzero]
    · have hmod := fitsInt64_tmod (a := a) hb hzero
      simp only [fold, value?, InRange, asInt64]
      grind
  | shl =>
    by_cases hneg : 0 ≤ b
    · have hfits := hshift rfl _ (if_pos hneg)
      by_cases hfar : b < 64
      · simp only [fold, value?, InRange, shiftDistance, hneg, hfar, and_self, if_true, Option.map_some,
          shiftLeft_ofInt, toInt_ofInt hfits]
        exact hkept hfits
      · simp [fold, InRange, shiftDistance, hfar]
    · simp [fold, value?, shiftDistance, hneg]
  | shr =>
    by_cases hneg : 0 ≤ b
    · have hshifted : a.shiftRight b.toNat = a.fdiv (2 ^ b.toNat) := by
        rw [Int.fdiv_eq_ediv_of_nonneg _ (Int.le_of_lt (Int.pow_pos (by decide)))]
        exact (Int.shiftRight_eq_div_pow a b.toNat).trans (by norm_cast)
      by_cases hfar : b < 64
      · simp only [fold, value?, InRange, shiftDistance, hneg, hfar, and_self, if_true, Option.map_some, hshifted]
        exact hkept (fitsInt64_fdiv _ ha)
      · simp [fold, InRange, shiftDistance, hfar]
    · simp [fold, value?, shiftDistance, hneg]
  | bitAnd =>
    obtain ⟨heq, hfits⟩ := onWords_eq (g := (· &&& ·)) Int.bitwise_and (by simp) ha hb
    simp only [fold, heq]
    exact hkept hfits
  | bitOr =>
    obtain ⟨heq, hfits⟩ := onWords_eq (g := (· ||| ·)) Int.bitwise_or (by simp) ha hb
    simp only [fold, heq]
    exact hkept hfits
  | bitXor =>
    obtain ⟨heq, hfits⟩ := onWords_eq (g := (· ^^^ ·)) Int.bitwise_xor (by simp) ha hb
    simp only [fold, heq]
    exact hkept hfits
  | _ => simp [fold, value?]

theorem UnaryOp.fold_eq_some_iff {op : UnaryOp} (ha : fitsInt64 a = true) :
    op.fold a = some v ↔ op.value? a = some v ∧ fitsInt64 v = true := by
  cases op with
  | neg => simp only [fold, value?, asInt64_eq_some_iff]; grind
  | plus => simp only [fold, value?]; grind
  | bitNot =>
    have hnot : -a - 1 = a.lnot := by
      cases a <;> simp only [Int.lnot, Int.ofNat_eq_natCast] <;> omega
    have hfits : fitsInt64 a.lnot = true := by
      rw [fitsInt64_iff] at ha ⊢
      omega
    simp only [fold, value?]
    grind
  | _ => simp [fold, value?]

end

namespace Expr

variable {e : Expr} {v : Int}

def Bounded (e : Expr) : Prop := (∀ t ∈ e.terms, ∀ w, t.value? = some w → fitsInt64 w = true) ∧ e.InRange

theorem Bounded.fits (h : e.Bounded) (hv : e.value? = some v) : fitsInt64 v = true :=
  h.1 e (by cases e <;> simp [terms]) v hv

theorem bounded_unary {loc : Span} {op : UnaryOp} {operand : Expr} : (unary loc op operand).Bounded ↔
    (∀ w, (unary loc op operand).value? = some w → fitsInt64 w = true) ∧ operand.Bounded := by
  simp [Bounded, InRange, terms, and_assoc]

theorem bounded_binary {loc : Span} {op : BinaryOp} {lhs rhs : Expr} : (binary loc op lhs rhs).Bounded ↔
    (∀ w, (binary loc op lhs rhs).value? = some w → fitsInt64 w = true) ∧
      (∀ a b, lhs.value? = some a → rhs.value? = some b → op.InRange a b) ∧ lhs.Bounded ∧ rhs.Bounded := by
  simp only [Bounded, InRange, terms]
  grind

theorem constInt_eq_some_iff
    (hshift : ∀ t ∈ e.terms, t.isShiftLeft = true → ∀ w, t.value? = some w → fitsInt64 w = true) :
    e.constInt = some v ↔ e.value? = some v ∧ e.Bounded := by
  fun_induction constInt e generalizing v with
  | case1 loc n =>
    rw [asInt64_eq_some_iff]
    simp [value?, Bounded, InRange, terms]
  | case2 loc op operand ih =>
    have ih := fun a => ih (v := a) fun t ht => hshift t (mem_cons_of_mem _ ht)
    simp only [bounded_unary, value?, Option.bind_eq_some_iff, ih]
    constructor
    · rintro ⟨a, ⟨ha, hbounded⟩, hv⟩
      obtain ⟨hresult, hfits⟩ := (UnaryOp.fold_eq_some_iff (hbounded.fits ha)).mp hv
      grind
    · rintro ⟨⟨a, ha, hv⟩, hfits, hbounded⟩
      exact ⟨a, ⟨ha, hbounded⟩, (UnaryOp.fold_eq_some_iff (hbounded.fits ha)).mpr ⟨hv, hfits v ⟨a, ha, hv⟩⟩⟩
  | case3 loc op lhs rhs ihl ihr =>
    have ihl := fun a => ihl (v := a) fun t ht => hshift t (mem_cons_of_mem _ (mem_append_left _ ht))
    have ihr := fun b => ihr (v := b) fun t ht => hshift t (mem_cons_of_mem _ (mem_append_right _ ht))
    have hfold : ∀ {a b v}, lhs.value? = some a → lhs.Bounded → rhs.value? = some b → rhs.Bounded →
        (op.fold a b = some v ↔ op.value? a b = some v ∧ fitsInt64 v = true ∧ op.InRange a b) := by
      intro a b v ha hl hb hr
      refine BinaryOp.fold_eq_some_iff (hl.fits ha) (hr.fits hb) fun hop w hw => ?_
      exact hshift _ mem_cons_self (by rw [hop]; rfl) w (by rw [value?, ha, hb]; exact hw)
    simp only [bounded_binary, value?, Option.bind_eq_some_iff, ihl, ihr]
    constructor
    · rintro ⟨a, ⟨ha, hl⟩, b, ⟨hb, hr⟩, hv⟩
      obtain ⟨hresult, hfits, hneeds⟩ := (hfold ha hl hb hr).mp hv
      grind
    · rintro ⟨⟨a, ha, b, hb, hv⟩, hfits, hneeds, hl, hr⟩
      exact ⟨a, ⟨ha, hl⟩, b, ⟨hb, hr⟩, (hfold ha hl hb hr).mpr ⟨hv, hfits v ⟨a, ha, b, hb, hv⟩, hneeds a b ha hb⟩⟩
  | case4 =>
    unfold value?
    split <;> grind

/-- Folding gives the value, or nothing beyond words, exactly if no shift to the left drops bits. -/
theorem constInt_exact_iff (e : Expr) :
    ((∀ v, e.constInt = some v → e.value? = some v) ∧
      (∀ t ∈ e.terms, ∀ w, t.value? = some w → fitsInt64 w = false → e.constInt = none) ↔
        (e.constInt.isSome = true → ∀ t ∈ e.terms, t.isShiftLeft = true → ∀ w, t.value? = some w →
          fitsInt64 w = true)) ∧
    ((∀ t ∈ e.terms, ∀ w, t.value? = some w → fitsInt64 w = true) → e.InRange → ∀ v, e.value? = some v →
      e.constInt = some v) := by
  refine ⟨⟨fun ⟨_, hnone⟩ hsome t ht _ w hw => ?_, fun hshift => ⟨fun v hv => ?_, fun t ht w hw hlarge => ?_⟩⟩,
    fun hwords hrange v hv => (constInt_eq_some_iff fun t ht _ => hwords t ht).mpr ⟨hv, hwords, hrange⟩⟩
  · by_contra hlarge
    rw [hnone t ht w hw (eq_false_of_ne_true hlarge)] at hsome
    cases hsome
  · exact ((constInt_eq_some_iff (hshift (by rw [hv]; rfl))).mp hv).1
  · cases hfold : e.constInt with
    | none => rfl
    | some v =>
      have hfits := ((constInt_eq_some_iff (hshift (by rw [hfold]; rfl))).mp hfold).2.1 t ht w hw
      cases hlarge.symm.trans hfits

def highBit : Expr := binary .generated .shl (literal .generated (.int 1)) (literal .generated (.int 63))

theorem highBit_folds_negative : highBit.constInt = some (-9223372036854775808) ∧
    highBit.value? = some 9223372036854775808 := by
  decide

end Expr

end ShaderCompose
