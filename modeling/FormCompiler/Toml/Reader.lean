import FormCompiler.Toml.Moment
import FormCompiler.Toml.Number

/-!
Reading the text of a settings file, line by line, into a tree of tables.
-/

namespace FormCompiler.Toml

def isBareKeyChar (c : Char) : Bool := c.isAlphanum || c == '_' || c == '-'

def simpleKey? : Reader String := fun cs =>
  match cs with
  | '"' :: _ | '\'' :: _ => quoted? cs
  | _ =>
    let key := cs.takeWhile isBareKeyChar
    if key.isEmpty then none else some (String.ofList key, cs.drop key.length)

def depthLimit : Nat := 79

def path? (most : Nat) : Reader (List String) := fun cs =>
  match most with
  | 0 => none
  | most + 1 => do
    let (first, cs) ← simpleKey? cs
    match skipSpace cs with
    | '.' :: rest =>
      let (more, rest) ← path? most (skipSpace rest)
      return (first :: more, rest)
    | rest => return ([first], rest)

mutual

def value? (fuel depth : Nat) : Reader Value := fun cs =>
  match fuel with
  | 0 => none
  | fuel + 1 =>
    match depth, cs with
    | _, '"' :: _ | _, '\'' :: _ => (text? cs).map fun r => (.string r.1, r.2)
    | 0, '[' :: _ | 0, '{' :: _ => none
    | depth + 1, '[' :: rest => do
      let (items, rest) ← items? fuel depth rest
      return (.array items, rest)
    | depth + 1, '{' :: rest => do
      match skipSpace rest with
      | '}' :: rest => return (.table [], rest)
      | rest =>
        let (entries, rest) ← entries? fuel depth [] rest
        return (.table (Item.toValues entries), rest)
    | _, _ =>
      match moment? cs with
      | some read => some read
      | none =>
        let word := cs.takeWhile isScalarChar
        (scalar? word).map fun v => (v, cs.drop word.length)

def items? (fuel depth : Nat) : Reader (List Value) := fun cs =>
  match fuel with
  | 0 => none
  | fuel + 1 => do
    match ← skipLines? (cs.length + 1) cs with
    | ']' :: rest => return ([], rest)
    | rest =>
      let (v, rest) ← value? fuel depth rest
      match ← skipLines? (rest.length + 1) rest with
      | ',' :: rest =>
        let (vs, rest) ← items? fuel depth rest
        return (v :: vs, rest)
      | ']' :: rest => return ([v], rest)
      | _ => none

def entries? (fuel depth : Nat) (before : Entries) : Reader Entries := fun cs =>
  match fuel with
  | 0 => none
  | fuel + 1 => do
    let (path, rest) ← path? depthLimit (skipSpace cs)
    match rest with
    | '=' :: rest =>
      let (v, rest) ← value? fuel depth (skipSpace rest)
      let es ← before.assign? path v
      match skipSpace rest with
      | ',' :: rest => entries? fuel depth es rest
      | '}' :: rest => return (es, rest)
      | _ => none
    | _ => none

end

structure Document where
  header : List String := []
  entries : Entries := []

namespace Document

def assign? (d : Document) (path : List String) (v : Value) : Option Document := do
  let entries ← d.entries.at? (Entries.assign? path v) d.header
  return { d with entries }

def open? (d : Document) (path : List String) (repeated : Bool) : Option Document := do
  let key ← path.getLast?
  let start := if repeated then Entries.openNext? key else Entries.openTable? key
  let entries ← d.entries.at? start path.dropLast
  return ⟨path, entries⟩

def line? (d : Document) (cs : List Char) : Option (Document × List Char) := do
  let fuel := cs.length + 1
  match skipSpace cs with
  | '[' :: '[' :: rest =>
    let (path, rest) ← path? depthLimit (skipSpace rest)
    match rest with
    | ']' :: ']' :: rest => return (← d.open? path true, ← endLine? rest)
    | _ => none
  | '[' :: rest =>
    let (path, rest) ← path? depthLimit (skipSpace rest)
    match rest with
    | ']' :: rest => return (← d.open? path false, ← endLine? rest)
    | _ => none
  | start =>
    match endLine? start with
    | some rest => return (d, rest)
    | none =>
      let (path, rest) ← path? depthLimit start
      match rest with
      | '=' :: rest =>
        let (v, rest) ← value? fuel depthLimit (skipSpace rest)
        return (← d.assign? path v, ← endLine? rest)
      | _ => none

def lines? (fuel : Nat) (d : Document) (cs : List Char) : Option Document :=
  match fuel, cs with
  | _, [] => some d
  | 0, _ => none
  | fuel + 1, cs => do
    let (d, rest) ← d.line? cs
    lines? fuel d rest

end Document

def dropMark : List Char → List Char
  | '\ufeff' :: cs => cs
  | cs => cs

def read? (text : String) : Option Entries :=
  (Document.lines? (text.length + 1) {} (dropMark text.toList)).map Document.entries

end FormCompiler.Toml
