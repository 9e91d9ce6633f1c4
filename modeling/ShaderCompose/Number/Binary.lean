/-!
Binary floating point numbers as bit patterns, rounded to the nearest with ties to even.
-/

namespace ShaderCompose.Number

/-- The widths of the fields of a pattern. -/
structure Format where
  fractionBits : Nat
  exponentBits : Nat
  deriving DecidableEq, Repr

def double : Format := ⟨52, 11⟩

def single : Format := ⟨23, 8⟩

namespace Format

def minScale (f : Format) : Int :=
  2 - Int.pow 2 (f.exponentBits - 1) - f.fractionBits

def infinity (f : Format) : Nat := (Nat.pow 2 f.exponentBits - 1) * Nat.pow 2 f.fractionBits

def signBit (f : Format) : Nat := Nat.pow 2 (f.fractionBits + f.exponentBits)

def largest (f : Format) : Nat := f.infinity - 1

/-- A finite pattern as `(m, q)`, for `m * 2 ^ q`. -/
def decode (f : Format) (bits : Nat) : Nat × Int :=
  let field := bits / Nat.pow 2 f.fractionBits
  let fraction := bits % Nat.pow 2 f.fractionBits
  if field = 0 then (fraction, f.minScale)
  else (fraction + Nat.pow 2 f.fractionBits, f.minScale + (field - 1 : Nat))

/-- The nearest whole number, a tie to the even one. -/
def roundDiv (num den : Nat) : Nat :=
  let q := num / den
  let twice := 2 * (num % den)
  if twice < den then q
  else if den < twice then q + 1
  else if q % 2 = 0 then q else q + 1

/-- A ratio divided by `2 ^ q`. -/
def scaleRatio (num den : Nat) (q : Int) : Nat × Nat :=
  if q < 0 then (num * Nat.pow 2 q.natAbs, den) else (num, den * Nat.pow 2 q.natAbs)

/-- The largest power of two below a ratio. -/
def ratioLog2 (num den : Nat) : Int :=
  let e : Int := (num.log2 : Int) - den.log2
  let (n, d) := scaleRatio num den e
  if n < d then e - 1 else e

def ofRatio (f : Format) (num den : Nat) : Nat :=
  if num = 0 then 0
  else
    let q := max f.minScale (ratioLog2 num den - f.fractionBits)
    let (n, d) := scaleRatio num den q
    min f.infinity ((q - f.minScale).toNat * Nat.pow 2 f.fractionBits + roundDiv n d)

def decimalLength (n : Nat) : Nat := (Nat.toDigits 10 n).length

/-- The pattern nearest to `digits * 10 ^ exponent`. -/
def ofDecimal (f : Format) (digits : Nat) (exponent : Int) : Nat :=
  if digits = 0 then 0
  else
    let magnitude := (decimalLength digits : Int) + exponent
    if 400 < magnitude then f.infinity
    else if magnitude < -400 then 0
    else if exponent < 0 then f.ofRatio digits (Nat.pow 10 exponent.natAbs)
    else f.ofRatio (digits * Nat.pow 10 exponent.natAbs) 1

end Format

/-- A signed number; not a number does not arise. -/
structure Binary (f : Format) where
  negative : Bool
  bits : Nat
  deriving DecidableEq, Repr

namespace Binary

def pattern {f : Format} (x : Binary f) : Nat :=
  (if x.negative then f.signBit else 0) + x.bits

def neg {f : Format} (x : Binary f) : Binary f := { x with negative := !x.negative }

def isInfinite {f : Format} (x : Binary f) : Bool := x.bits == f.infinity

def zero (f : Format) : Binary f := ⟨false, 0⟩

def ofInt (f : Format) (n : Int) : Binary f := ⟨decide (n < 0), f.ofRatio n.natAbs 1⟩

/-- The nearest number of another format. -/
def convert {f : Format} (g : Format) (x : Binary f) : Binary g :=
  if x.isInfinite then ⟨x.negative, g.infinity⟩
  else
    let (m, q) := f.decode x.bits
    ⟨x.negative,
      if q < 0 then g.ofRatio m (Nat.pow 2 q.natAbs) else g.ofRatio (m * Nat.pow 2 q.natAbs) 1⟩

def isNonNegative {f : Format} (x : Binary f) : Bool := !x.negative || x.bits == 0

/-- The whole part, at most the largest word. -/
def toUInt32 {f : Format} (x : Binary f) : Nat :=
  if x.isInfinite then UInt32.size - 1
  else
    let (m, q) := f.decode x.bits
    min (UInt32.size - 1) (if q < 0 then m / Nat.pow 2 q.natAbs else m * Nat.pow 2 q.natAbs)

end Binary

end ShaderCompose.Number
