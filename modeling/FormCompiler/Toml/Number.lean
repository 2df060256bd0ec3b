import FormCompiler.Toml.Quoted

namespace FormCompiler.Toml

def ungroup? (isDigit : Char → Bool) (cs : List Char) : Option (List Char) :=
  let groups := (String.ofList cs).splitOn "_"
  if groups.all fun g => !g.isEmpty && g.all isDigit then some (cs.filter (· != '_')) else none

def inWord (n : Int) : Option Int :=
  if -0x8000000000000000 ≤ n ∧ n < 0x8000000000000000 then some n else none

def plain? (cs : List Char) : Option Nat := do
  let digits ← ungroup? Char.isDigit cs
  if 1 < digits.length ∧ digits.head? = some '0' then none else Decimal.digits? digits

def radix? (base : Nat) (cs : List Char) : Option Value := do
  let isDigit (c : Char) : Bool := match hexDigit? c with
    | some d => d < base
    | none => false
  let digits ← ungroup? isDigit cs
  let n := digits.foldl (fun n c => base * n + (hexDigit? c).getD 0) 0
  (inWord n).map .integer

def isGrouped (c : Char) : Bool := c.isDigit || c == '_'

def fraction? : Reader (List Char)
  | '.' :: cs => do
    let digits := cs.takeWhile isGrouped
    return (← ungroup? Char.isDigit digits, cs.drop digits.length)
  | cs => some ([], cs)

def exponent? : List Char → Option Int
  | [] => some 0
  | mark :: cs =>
    let (negative, digits) := match cs with
      | '-' :: ds => (true, ds)
      | '+' :: ds => (false, ds)
      | ds => (false, ds)
    if mark == 'e' || mark == 'E' then do
      let n ← Decimal.digits? (← ungroup? Char.isDigit digits)
      return if negative then -n else n
    else none

def float? (cs : List Char) : Option (Nat × Int) := do
  let whole := cs.takeWhile isGrouped
  let rest := cs.drop whole.length
  if rest.isEmpty then none
  else
    let n ← plain? whole
    let (fraction, rest) ← fraction? rest
    let exponent ← exponent? rest
    let m ← Decimal.digits? fraction
    return (n * Nat.pow 10 fraction.length + m, exponent - fraction.length)

def scalar? (word : List Char) : Option Value :=
  match word with
  | ['t', 'r', 'u', 'e'] => some (.boolean true)
  | ['f', 'a', 'l', 's', 'e'] => some (.boolean false)
  | '0' :: 'x' :: ds => radix? 16 ds
  | '0' :: 'o' :: ds => radix? 8 ds
  | '0' :: 'b' :: ds => radix? 2 ds
  | _ =>
    let (negative, digits) := match word with
      | '-' :: ds => (true, ds)
      | '+' :: ds => (false, ds)
      | ds => (false, ds)
    match plain? digits, float? digits with
    | some n, _ => (inWord (if negative then -n else n)).map .integer
    | none, some (n, e) =>
      if !negative && Decimal.exceeds n e then none else some (.float (String.ofList word))
    | none, none =>
      if digits == ['i', 'n', 'f'] || digits == ['n', 'a', 'n'] then
        some (.float (String.ofList word))
      else none

def isScalarChar (c : Char) : Bool := c.isAlphanum || c == '_' || c == '-' || c == '+' || c == '.'

end FormCompiler.Toml
