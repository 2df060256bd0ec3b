/-!
The fewest decimal digits that read back as a given double.

A positive double is `m · 2 ^ q`. The reals that round to it form an interval; of the decimal
grids `10 ^ e` the coarsest that has a point in the interval is taken, and on it the point nearest
to the double. All arithmetic is exact.
-/

namespace FormCompiler.Decimal

def pow2 (n : Nat) : Nat := Nat.pow 2 n

def pow10 (n : Nat) : Nat := Nat.pow 10 n

/-- A positive double with the reals that round to it, as fractions over `unit`. The two ends
belong to the interval iff `closed`. -/
structure Rounding where
  low : Nat
  exact : Nat
  high : Nat
  unit : Nat
  closed : Bool

namespace Rounding

/-- The interval around `m · 2 ^ q`. Below a power of two the doubles lie twice as close, so there
the interval is `narrow` on its lower side. -/
def around (m : Nat) (q : Int) (narrow : Bool) : Rounding :=
  let scale := pow2 (q - 2).toNat
  { low := (4 * m - if narrow then 1 else 2) * scale
    exact := 4 * m * scale
    high := (4 * m + 2) * scale
    unit := pow2 (2 - q).toNat
    closed := m % 2 == 0 }

def ofBits (bits : UInt64) : Rounding :=
  let fraction : Nat := bits.toNat % pow2 52
  let exponent : Nat := bits.toNat / pow2 52 % pow2 11
  if exponent = 0 then around fraction (-1074) false
  else around (pow2 52 + fraction) ((exponent : Int) - 1075) (fraction == 0 && exponent != 1)

def admits (r : Rounding) (d : Nat) (e : Int) : Bool :=
  let point := d * pow10 e.toNat * r.unit
  let scale := pow10 (-e).toNat
  if r.closed then r.low * scale ≤ point && point ≤ r.high * scale
  else r.low * scale < point && point < r.high * scale

def magnitude (r : Rounding) : Int :=
  if r.unit ≤ r.exact then (Nat.toDigits 10 (r.exact / r.unit)).length - 1
  else -(Nat.toDigits 10 ((r.unit + r.exact - 1) / r.exact - 1)).length

/-- The admitted point of the grid `10 ^ e` that is nearest to the double, the upper one of two
equally near. -/
def nearest? (r : Rounding) (e : Int) : Option Nat :=
  let numerator := r.exact * pow10 (-e).toNat
  let denominator := r.unit * pow10 e.toNat
  let below := numerator / denominator
  match r.admits below e, r.admits (below + 1) e with
  | true, true => some (if 2 * (numerator % denominator) < denominator then below else below + 1)
  | true, false => some below
  | false, true => some (below + 1)
  | false, false => none

/-- Digits `d` and exponent `e` of the shortest decimal `d · 10 ^ e`. Seventeen digits tell any
two doubles apart, so the search is never empty. -/
def shortest (r : Rounding) : Nat × Int :=
  let candidate (n : Nat) : Option (Nat × Int) :=
    (r.nearest? (r.magnitude - n)).map fun d => (d, r.magnitude - n)
  ((List.range 17).findSome? candidate).getD (r.exact / r.unit, 0)

end Rounding

end FormCompiler.Decimal
