import FormCompiler.Toml.Layout

namespace FormCompiler.Toml

def hexDigit? (c : Char) : Option Nat :=
  if c.isDigit then some (c.toNat - '0'.toNat)
  else if 'a' ≤ c ∧ c ≤ 'f' then some (c.toNat - 'a'.toNat + 10)
  else if 'A' ≤ c ∧ c ≤ 'F' then some (c.toNat - 'A'.toNat + 10)
  else none

def codePoint? (n : Nat) : Reader Char := fun cs => do
  let digits := cs.take n
  if digits.length < n then none
  else
    let code ← digits.foldlM (fun code c => (hexDigit? c).map (16 * code + ·)) 0
    if code.isValidChar then some (Char.ofNat code, cs.drop n) else none

def escape? : Reader Char
  | 'b' :: cs => some ('\x08', cs)
  | 't' :: cs => some ('\t', cs)
  | 'n' :: cs => some ('\n', cs)
  | 'f' :: cs => some ('\x0c', cs)
  | 'r' :: cs => some ('\r', cs)
  | '"' :: cs => some ('"', cs)
  | '\\' :: cs => some ('\\', cs)
  | 'u' :: cs => codePoint? 4 cs
  | 'U' :: cs => codePoint? 8 cs
  | _ => none

def basic? (fuel : Nat) : Reader (List Char) := fun cs =>
  match fuel, cs with
  | fuel + 1, '\\' :: cs => do
    let (c, cs) ← escape? cs
    let (text, cs) ← basic? fuel cs
    return (c :: text, cs)
  | _ + 1, '"' :: cs => some ([], cs)
  | fuel + 1, c :: cs =>
    if isControl c then none
    else do
      let (text, cs) ← basic? fuel cs
      return (c :: text, cs)
  | _, _ => none

def literal? : Reader (List Char)
  | [] => none
  | '\'' :: cs => some ([], cs)
  | c :: cs =>
    if isControl c then none
    else do
      let (text, cs) ← literal? cs
      return (c :: text, cs)

def joined : Option (List Char × List Char) → Option (String × List Char) :=
  Option.map fun r => (String.ofList r.1, r.2)

def quoted? : Reader String
  | '"' :: cs => joined (basic? (cs.length + 1) cs)
  | '\'' :: cs => joined (literal? cs)
  | _ => none

def dropNewline (cs : List Char) : List Char := (newline? cs).getD cs

def skipBlankLines (fuel : Nat) (cs : List Char) : List Char :=
  match fuel with
  | 0 => cs
  | fuel + 1 =>
    let rest := skipSpace cs
    match newline? rest with
    | some rest => skipBlankLines fuel rest
    | none => rest

def multiline? (quote : Char) (escapes : Bool) (fuel : Nat) : Reader (List Char) := fun cs =>
  match fuel, cs with
  | 0, _ | _, [] => none
  | fuel + 1, c :: rest =>
    if c == quote then
      let quotes := cs.takeWhile (· == quote)
      let after := cs.drop quotes.length
      if quotes.length < 3 then
        (multiline? quote escapes fuel after).map fun r => (quotes ++ r.1, r.2)
      else if quotes.length < 6 then some (quotes.drop 3, after)
      else none
    else if escapes && c == '\\' then
      match newline? (skipSpace rest) with
      | some after => multiline? quote escapes fuel (skipBlankLines (after.length + 1) after)
      | none => do
        let (d, rest) ← escape? rest
        let (text, rest) ← multiline? quote escapes fuel rest
        return (d :: text, rest)
    else
      match newline? cs with
      | some after => (multiline? quote escapes fuel after).map fun r => ('\n' :: r.1, r.2)
      | none =>
        if isControl c then none
        else (multiline? quote escapes fuel rest).map fun r => (c :: r.1, r.2)

def text? : Reader String := fun cs =>
  match cs with
  | '"' :: '"' :: '"' :: rest =>
    joined (multiline? '"' true (rest.length + 1) (dropNewline rest))
  | '\'' :: '\'' :: '\'' :: rest =>
    joined (multiline? '\'' false (rest.length + 1) (dropNewline rest))
  | _ => quoted? cs

end FormCompiler.Toml
