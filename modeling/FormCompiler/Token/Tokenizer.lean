import FormCompiler.Source
import FormCompiler.Token.Lexer

namespace FormCompiler

/-- `current` stands at `place`; there is none at the end. A tokenizer that is not `primed` has read
nothing yet, and the blank in its hand is not of the text. -/
structure Tokenizer where
  rest : List Char
  current : Option Char := some ' '
  primed : Bool := false
  place : Position := .first

namespace Tokenizer

def ofSource (source : Source) : Tokenizer := { rest := source.chars }

def nextChar (t : Tokenizer) : Tokenizer where
  rest := t.rest.tail
  current := t.rest.head?
  primed := true
  place :=
    match t.primed, t.current with
    | true, some c => t.place.after c
    | _, _ => t.place

def ahead (t : Tokenizer) : Nat := t.rest.length + t.current.toList.length

theorem ahead_nextChar_lt {t : Tokenizer} {c : Char} (h : t.current = some c) :
    t.nextChar.ahead < t.ahead := by
  cases hr : t.rest <;> simp [ahead, nextChar, h, hr]

def takeWhile (p : Char → Bool) (t : Tokenizer) : List Char × Tokenizer :=
  match _h : t.current with
  | none => ([], t)
  | some c =>
    if p c then
      let (cs, u) := t.nextChar.takeWhile p
      (c :: cs, u)
    else ([], t)
termination_by t.ahead
decreasing_by exact ahead_nextChar_lt ‹_›

def scanNumeral (dotted : Bool) (t : Tokenizer) : List Char × Bool × Tokenizer :=
  match _h : t.current with
  | none => ([], dotted, t)
  | some c =>
    if c = '.' then
      if dotted then ([], dotted, t)
      else
        let (cs, dotted, u) := t.nextChar.scanNumeral true
        (c :: cs, dotted, u)
    else if c.isDigit then
      let (cs, dotted, u) := t.nextChar.scanNumeral dotted
      (c :: cs, dotted, u)
    else ([], dotted, t)
termination_by t.ahead
decreasing_by all_goals exact ahead_nextChar_lt ‹_›

def scan (t : Tokenizer) (c : Char) : Kind × Tokenizer :=
  match Kind.ofPunctuation? c with
  | some kind => (kind, t.nextChar)
  | none =>
    if isLetter c then
      let (cs, u) := t.takeWhile isWordChar
      (.ofWord (String.ofList cs), u)
    else if c.isDigit || c == '.' then
      let (cs, dotted, u) := t.scanNumeral false
      (if dotted then .float (String.ofList cs) else .int (String.ofList cs), u)
    else (.op c, t.nextChar)

def nextToken (t : Tokenizer) : Token × Tokenizer :=
  let t := (t.takeWhile Text.isBlank).2
  match t.current with
  | none => (⟨.eof, .point t.place⟩, t)
  | some c =>
    let (kind, u) := t.scan c
    (⟨kind, ⟨t.place, u.place⟩⟩, u)

def nth (t : Tokenizer) : Nat → Token
  | 0 => t.nextToken.1
  | n + 1 => t.nextToken.2.nth n

end Tokenizer

end FormCompiler
