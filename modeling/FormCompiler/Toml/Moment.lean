import FormCompiler.Toml.Layout

namespace FormCompiler.Toml

def fixed? (width low high : Nat) : Reader Nat := fun cs => do
  let n ← Decimal.digits? (cs.take width)
  if (cs.take width).length = width ∧ low ≤ n ∧ n ≤ high then some (n, cs.drop width) else none

def pass? (c : Char) : List Char → Option (List Char)
  | [] => none
  | d :: rest => if d = c then some rest else none

def daysIn (year month : Nat) : Nat :=
  if month = 2 then
    if year % 4 = 0 ∧ (year % 100 ≠ 0 ∨ year % 400 = 0) then 29 else 28
  else if month = 4 ∨ month = 6 ∨ month = 9 ∨ month = 11 then 30
  else 31

def passDate? (cs : List Char) : Option (List Char) := do
  let (year, cs) ← fixed? 4 0 9999 cs
  let (month, cs) ← fixed? 2 1 12 (← pass? '-' cs)
  let (_, cs) ← fixed? 2 1 (daysIn year month) (← pass? '-' cs)
  return cs

def passMinutes? (cs : List Char) : Option (List Char) := do
  let (_, cs) ← fixed? 2 0 23 cs
  let (_, cs) ← fixed? 2 0 59 (← pass? ':' cs)
  return cs

def passTime? (cs : List Char) : Option (List Char) := do
  let (_, cs) ← fixed? 2 0 60 (← pass? ':' (← passMinutes? cs))
  match cs with
  | '.' :: d :: rest => return if d.isDigit then rest.dropWhile Char.isDigit else cs
  | _ => return cs

def passOffset (cs : List Char) : List Char :=
  match cs with
  | 'Z' :: rest | 'z' :: rest => rest
  | '+' :: rest | '-' :: rest => (passMinutes? rest).getD cs
  | _ => cs

def passTimeOfDate (cs : List Char) : List Char :=
  match cs with
  | 'T' :: rest | 't' :: rest | ' ' :: rest => ((passTime? rest).map passOffset).getD cs
  | _ => cs

def moment? : Reader Value := fun cs => do
  let rest ← match passDate? cs with
    | some rest => some (passTimeOfDate rest)
    | none => passTime? cs
  return (.moment (String.ofList (cs.take (cs.length - rest.length))), rest)

end FormCompiler.Toml
