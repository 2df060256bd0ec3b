import FormCompiler.Toml.Value

namespace FormCompiler.Toml

abbrev Reader (α : Type) := List Char → Option (α × List Char)

def isSpace (c : Char) : Bool := c == ' ' || c == '\t'

def isControl (c : Char) : Bool := (c.toNat < 0x20 && c != '\t') || c.toNat == 0x7f

def skipSpace (cs : List Char) : List Char := cs.dropWhile isSpace

def skipComment? (cs : List Char) : Option (List Char) :=
  match cs with
  | '#' :: rest =>
    let line := rest.takeWhile fun c => c != '\n' && c != '\r'
    if line.any isControl then none else some (rest.drop line.length)
  | _ => some cs

def newline? : List Char → Option (List Char)
  | '\n' :: rest | '\r' :: '\n' :: rest => some rest
  | _ => none

def endLine? (cs : List Char) : Option (List Char) := do
  match ← skipComment? (skipSpace cs) with
  | [] => some []
  | rest => newline? rest

def skipLines? (fuel : Nat) (cs : List Char) : Option (List Char) :=
  match fuel, cs with
  | 0, _ => none
  | fuel + 1, cs => do
    let rest ← skipComment? (skipSpace cs)
    match newline? rest with
    | some rest => skipLines? fuel rest
    | none => some rest

end FormCompiler.Toml
