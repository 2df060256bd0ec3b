import FormCompiler.Decimal.Shortest

namespace FormCompiler.Decimal

def zeros (n : Nat) : List Char := List.replicate n '0'

def dropTrailingZeros (ds : List Char) : List Char :=
  (ds.reverse.dropWhile (· == '0')).reverse

/-- The number `0.d₁d₂… · 10 ^ point`. From `0.0001` up to sixteen digits before the point it is
written plainly, with at least one digit on either side of the point; beyond that the first digit
stands alone and an exponent follows. -/
def layout (ds : List Char) (point : Int) : List Char :=
  if -3 ≤ point ∧ point ≤ 16 then
    if point ≤ 0 then '0' :: '.' :: (zeros (-point).toNat ++ ds)
    else
      let whole := point.toNat
      let padded := ds ++ zeros (whole - ds.length)
      padded.take whole ++ '.' :: (if ds.length ≤ whole then ['0'] else ds.drop whole)
  else
    let tail := if ds.length ≤ 1 then [] else '.' :: ds.drop 1
    ds.take 1 ++ tail ++ 'e' :: (toString (point - 1)).toList

def text (x : Float) : String :=
  if x.isNaN then "NaN"
  else
    let sign := if x.toBits < 0x8000000000000000 then "" else "-"
    if x.isInf then sign ++ "inf"
    else if x == 0.0 then sign ++ "0.0"
    else
      let (d, e) := (Rounding.ofBits x.toBits).shortest
      let ds := Nat.toDigits 10 d
      sign ++ String.ofList (layout (dropTrailingZeros ds) (e + ds.length))

def digits? (cs : List Char) : Option Nat :=
  cs.foldl (fun n c => if c.isDigit then n.map (10 * · + (c.toNat - '0'.toNat)) else none) (some 0)

def finiteBound : Nat := Nat.pow 2 1024 - Nat.pow 2 970

/-- Whether no double is near enough to `n · 10 ^ e`, so that it counts as infinite. The number of
digits before the point settles all but the closest cases. -/
def exceeds (n : Nat) (e : Int) : Bool :=
  let size := (Nat.toDigits 10 n).length + e
  if n = 0 ∨ size < 309 then false
  else if 309 < size then true
  else finiteBound * Nat.pow 10 (-e).toNat ≤ n * Nat.pow 10 e.toNat

def ofParts? (whole fraction : List Char) (exponent : Int) : Option Float :=
  if whole.isEmpty && fraction.isEmpty then none
  else do
    let n ← digits? (whole ++ fraction)
    let e := exponent - fraction.length
    some (Float.ofScientific n (e < 0) e.natAbs)

def splitAt (c : Char) (cs : List Char) : List Char × List Char :=
  (cs.takeWhile (· != c), (cs.dropWhile (· != c)).drop 1)

def point? (cs : List Char) (exponent : Int) : Option Float :=
  let (whole, fraction) := splitAt '.' cs
  ofParts? whole fraction exponent

def splitSign : List Char → Bool × List Char
  | '-' :: cs => (true, cs)
  | '+' :: cs => (false, cs)
  | cs => (false, cs)

def integer? (cs : List Char) : Option Int :=
  let (negative, ds) := splitSign cs
  if ds.isEmpty then none else (digits? ds).map fun n => if negative then -n else n

def magnitude? (cs : List Char) : Option Float :=
  if cs = ['i', 'n', 'f'] ∨ cs = ['i', 'n', 'f', 'i', 'n', 'i', 't', 'y'] then some (1.0 / 0.0)
  else if cs = ['n', 'a', 'n'] then some (0.0 / 0.0)
  else if cs.contains 'e' then
    let (number, exponent) := splitAt 'e' cs
    (integer? exponent).bind (point? number)
  else point? cs 0

def read? (s : String) : Option Float :=
  let (negative, cs) := splitSign (s.toList.map Char.toLower)
  (magnitude? cs).map fun x => if negative then -x else x

end FormCompiler.Decimal
