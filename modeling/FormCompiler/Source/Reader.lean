import FormCompiler.Source

namespace FormCompiler

structure Given where
  char : Option Char
  notes : List Note := []
  deriving DecidableEq

structure TextReader where
  chars : List Char
  taken : Nat := 0

namespace TextReader

def ofText (text : String) : TextReader := { chars := text.toList }

def next (r : TextReader) : Given × TextReader :=
  match r.chars[r.taken]? with
  | some c => (⟨some c, []⟩, { r with taken := r.taken + 1 })
  | none => (⟨none, []⟩, r)

def nth (r : TextReader) : Nat → Given
  | 0 => r.next.1
  | n + 1 => r.next.2.nth n

end TextReader

structure LineReader where
  bytes : List UInt8
  line : TextReader := ⟨[], 0⟩
  exhausted : Bool := false

namespace LineReader

def ofBytes (bytes : List UInt8) : LineReader := { bytes }

inductive Line
  | ended
  | text (chars : List Char)
  | unreadable

def Line.ofBytes (bytes : List UInt8) : Line :=
  match Source.decode? bytes with
  | some chars => .text chars
  | none => .unreadable

def readLine : List UInt8 → Line × List UInt8
  | [] => (.ended, [])
  | b :: bs => (.ofBytes (Source.takeLine (b :: bs)).1, (Source.takeLine (b :: bs)).2)

theorem length_readLine_lt {bytes rest : List UInt8} {chars : List Char}
    (h : readLine bytes = (.text chars, rest)) : rest.length < bytes.length := by
  cases bytes with
  | nil => cases h
  | cons b bs =>
    obtain ⟨-, rfl⟩ := Prod.mk.inj h
    exact Source.length_takeLine_lt b bs

/-- Reads the next line when the one in memory is used up. A line that is no text is as good as the
end of the bytes. -/
def next (r : LineReader) : Given × LineReader :=
  if r.exhausted then (⟨none, []⟩, r)
  else
    match r.line.next with
    | (⟨some c, notes⟩, line) => (⟨some c, notes⟩, { r with line })
    | (⟨none, _⟩, _) =>
      match _h : readLine r.bytes with
      | (.text chars, rest) => { r with bytes := rest, line := ⟨chars, 0⟩ }.next
      | (.ended, rest) => (⟨none, []⟩, { r with bytes := rest, exhausted := true })
      | (.unreadable, rest) =>
        (⟨none, [Source.unreadable]⟩, { r with bytes := rest, exhausted := true })
termination_by r.bytes.length
decreasing_by exact length_readLine_lt _h

def nth (r : LineReader) : Nat → Given
  | 0 => r.next.1
  | n + 1 => r.next.2.nth n

end LineReader

end FormCompiler
