import FormCompiler.ParseError
import FormCompiler.Token.Stream

namespace FormCompiler

structure Cursor where
  current : Token
  stream : TokenStream

namespace Cursor

def kind (c : Cursor) : Kind := c.current.kind

def span (c : Cursor) : Span := c.current.span

def advance (c : Cursor) : Cursor := ⟨c.stream.next.1, c.stream.next.2⟩

def size (c : Cursor) : Nat := c.stream.pending.length + if c.kind = .eof then 0 else 1

theorem size_advance_lt {c : Cursor} (h : c.kind ≠ .eof) : c.advance.size < c.size := by
  obtain ⟨current, pending, ending, closing, audible⟩ := c
  cases pending with
  | nil =>
    simp only [kind] at h
    simp [size, advance, TokenStream.next, kind, h]
  | cons t ts =>
    simp only [kind] at h
    by_cases ht : t.kind = .eof
    · simp only [size, advance, TokenStream.next, kind, h, ht, List.length_cons, if_true, if_false]
      omega
    · simp [size, advance, TokenStream.next, kind, h, ht]

def taken (c d : Cursor) : List Token :=
  c.stream.pending.take (c.stream.pending.length - d.stream.pending.length)

def heard (c d : Cursor) : List Note := (c.taken d).flatMap c.stream.heard

def skipForm (c : Cursor) : Cursor :=
  if c.kind.isBoundary then c else c.advance.skipForm
termination_by c.size
decreasing_by
  apply size_advance_lt
  intro h
  simp_all [Kind.isBoundary]

end Cursor

structure Refusal where
  error : ParseError
  cursor : Cursor

namespace Cursor

def refuse (c : Cursor) (cause : ParseError.Cause) : Refusal := ⟨⟨cause, c.span⟩, c⟩

def missing (c : Cursor) (what : Expected) : Refusal := c.refuse (.expected what c.kind)

abbrev Later (c : Cursor) := { d : Cursor // d.size < c.size }

abbrev Onward (c : Cursor) := { d : Cursor // d.size ≤ c.size }

theorem later_trans {c d e : Cursor} (hd : d.size < c.size) (he : e.size < d.size) :
    e.size < c.size := Nat.lt_trans he hd

theorem later_onward {c d e : Cursor} (hd : d.size < c.size) (he : e.size ≤ d.size) :
    e.size < c.size := Nat.lt_of_le_of_lt he hd

theorem onward_of_later {c d : Cursor} (hd : d.size < c.size) : d.size ≤ c.size := Nat.le_of_lt hd

theorem onward_refl (c : Cursor) : c.size ≤ c.size := Nat.le_refl _

def uncons? (c : Cursor) : Option (Kind × c.Later) :=
  if h : c.kind = .eof then none else some (c.kind, ⟨c.advance, size_advance_lt h⟩)

def pass (c : Cursor) (kind : Kind) (what : Expected) : Except Refusal c.Later :=
  match c.uncons? with
  | some (found, d) => if found = kind then .ok d else .error (c.missing what)
  | none => .error (c.missing what)

def insist (c : Cursor) (kind : Kind) (what : Expected) : Except Refusal Unit :=
  if c.kind = kind then .ok () else .error (c.missing what)

end Cursor

end FormCompiler
