import ShaderCompose.Number.Binary

/-!
The shortest decimal text of a binary floating point number. Decimals that read back form an
interval, which is searched on grids from coarse to fine.
-/

namespace ShaderCompose.Number

/-- What rounds to a pattern, in quarters of its spacing. -/
structure Interval where
  low : Nat
  mid : Nat
  high : Nat
  closed : Bool
  scale : Int

def Format.interval (f : Format) (bits : Nat) : Interval :=
  let (m, q) := f.decode bits
  let below := if m = Nat.pow 2 f.fractionBits ∧ f.minScale < q then 1 else 2
  { low := 4 * m - below, mid := 4 * m, high := 4 * m + 2, closed := m % 2 = 0, scale := q - 2 }

/-- The number `digits * 10 ^ exponent`. -/
structure Decimal where
  digits : Nat
  exponent : Int
  deriving DecidableEq, Repr

/-- The sides of comparing `a * 2 ^ q` with `b * 10 ^ k`. -/
def crossScale (a : Nat) (q : Int) (b : Nat) (k : Int) : Nat × Nat :=
  (a * (if q < 0 then 1 else Nat.pow 2 q.natAbs) * (if k < 0 then Nat.pow 10 k.natAbs else 1),
   b * (if k < 0 then 1 else Nat.pow 10 k.natAbs) * (if q < 0 then Nat.pow 2 q.natAbs else 1))

/-- The decimal reads back. -/
def Interval.holds (i : Interval) (d : Decimal) : Bool :=
  let (lo, x) := crossScale i.low i.scale d.digits d.exponent
  let (hi, y) := crossScale i.high i.scale d.digits d.exponent
  if i.closed then lo ≤ x && y ≤ hi else lo < x && y < hi

def Interval.floorAt (i : Interval) (k : Int) : Nat :=
  let (x, unit) := crossScale i.mid i.scale 1 k
  x / unit

/-- Which of two equally near decimals is taken. -/
inductive Tie where
  | up
  | even
  deriving DecidableEq, Repr, Inhabited

def Tie.takesLower : Tie → Nat → Bool
  | up, _ => false
  | even, lower => lower % 2 == 0

/-- The nearer neighbour on a grid that reads back. -/
def Interval.pick (tie : Tie) (i : Interval) (k : Int) : Option Decimal :=
  let n := i.floorAt k
  let down : Decimal := ⟨n, k⟩
  let up : Decimal := ⟨n + 1, k⟩
  match i.holds down && decide (0 < n), i.holds up with
  | true, true =>
    let (x, half) := crossScale (2 * i.mid) i.scale (2 * n + 1) k
    some (if x < half || (x == half && tie.takesLower n) then down else up)
  | true, false => some down
  | false, true => some up
  | false, false => none

/-- Without trailing zeros. -/
def Decimal.strip : (fuel : Nat) → Decimal → Decimal
  | 0, d => d
  | fuel + 1, d =>
    if d.digits % 10 = 0 ∧ d.digits ≠ 0 then strip fuel ⟨d.digits / 10, d.exponent + 1⟩ else d

/-- The first hit from grid `k` on. -/
def Interval.search (tie : Tie) (i : Interval) : (grids : Nat) → (k : Int) → Option Decimal
  | 0, _ => none
  | grids + 1, k =>
    match i.pick tie k with
    | some d => some d
    | none => search tie i grids (k - 1)

/-- The exponent of the leading digit. -/
def Interval.leading (i : Interval) : Int :=
  let guess : Int := ((i.mid.log2 : Int) + i.scale) * 30103 / 100000 + 1
  let down (k : Int) : Int := if i.floorAt k = 0 then k - 1 else k
  down (down (down guess))

/-- The fewest digits that read back. -/
def Format.shortest (f : Format) (tie : Tie) (bits : Nat) : Decimal :=
  if bits = 0 then ⟨0, 0⟩
  else
    let i := f.interval bits
    match i.search tie 18 (i.leading + 1) with
    | some d => d.strip 20
    | none => ⟨0, 0⟩

/-- How decimals are laid out. -/
structure Style where
  plainFrom : Int
  plainBelow : Int
  exponentSign : List Char
  tie : Tie

/-- Digits with `whole` of them before the point. -/
def placePoint (digits : List Char) (whole : Int) : List Char :=
  let count := digits.length
  if whole ≤ 0 then '0' :: '.' :: (List.replicate whole.natAbs '0' ++ digits)
  else if (count : Int) ≤ whole then
    digits ++ List.replicate (whole.natAbs - count) '0' ++ ['.', '0']
  else digits.take whole.natAbs ++ '.' :: digits.drop whole.natAbs

def scientific (style : Style) (digits : List Char) (leading : Int) : List Char :=
  let mantissa :=
    match digits with
    | first :: second :: rest => first :: '.' :: second :: rest
    | short => short
  let sign := if leading < 0 then ['-'] else style.exponentSign
  mantissa ++ 'e' :: (sign ++ Nat.toDigits 10 leading.natAbs)

def Style.layout (style : Style) (d : Decimal) : List Char :=
  let digits := Nat.toDigits 10 d.digits
  let leading := d.exponent + digits.length - 1
  if d.digits = 0 ∨ (style.plainFrom ≤ leading ∧ leading < style.plainBelow) then
    placePoint digits (leading + 1)
  else scientific style digits leading

def Binary.text {f : Format} (style : Style) (x : Binary f) : List Char :=
  (if x.negative then ['-'] else []) ++ style.layout (f.shortest style.tie x.bits)

end ShaderCompose.Number
