namespace FormCompiler

/-- A place in the text. Lines and columns count from one, `offset` counts the characters before
the place; all three are zero where no text is meant. -/
structure Position where
  line : Nat
  column : Nat
  offset : Nat
  deriving DecidableEq

namespace Position

def first : Position := ⟨1, 1, 0⟩

def nowhere : Position := ⟨0, 0, 0⟩

def after (p : Position) (c : Char) : Position :=
  if c = '\n' then ⟨p.line + 1, 1, p.offset + 1⟩ else ⟨p.line, p.column + 1, p.offset + 1⟩

def afterAll (p : Position) (cs : List Char) : Position := cs.foldl after p

def trail (p : Position) : List Char → List (Option Char × Position)
  | [] => [(none, p)]
  | c :: cs => (some c, p) :: trail (p.after c) cs

def text (p : Position) : String := s!"{p.line}:{p.column}"

@[simp] theorem offset_after (p : Position) (c : Char) : (p.after c).offset = p.offset + 1 := by
  unfold after
  split <;> rfl

@[simp] theorem afterAll_nil (p : Position) : p.afterAll [] = p := rfl

@[simp] theorem afterAll_cons (p : Position) (c : Char) (cs : List Char) :
    p.afterAll (c :: cs) = (p.after c).afterAll cs := rfl

theorem afterAll_append (p : Position) (cs ds : List Char) :
    p.afterAll (cs ++ ds) = (p.afterAll cs).afterAll ds := by
  simp [afterAll]

@[simp] theorem offset_afterAll (p : Position) (cs : List Char) :
    (p.afterAll cs).offset = p.offset + cs.length := by
  induction cs generalizing p with
  | nil => rfl
  | cons c cs ih => simp [ih]; omega

end Position

structure Span where
  start : Position
  stop : Position
  deriving DecidableEq

namespace Span

def nowhere : Span := ⟨.nowhere, .nowhere⟩

def point (p : Position) : Span := ⟨p, p⟩

def isNowhere (s : Span) : Bool := s.start.line == 0

/-- The span from the start of `s` to the end of `t`; a span that is nowhere adds nothing. -/
def through (s t : Span) : Span :=
  if s.isNowhere then t else if t.isNowhere then s else ⟨s.start, t.stop⟩

def size (s : Span) : Nat := s.stop.offset - s.start.offset

def isEmpty (s : Span) : Bool := s.start.offset == s.stop.offset

def text (s : Span) : String := s!"[{s.start.text} - {s.stop.text}]"

end Span

end FormCompiler
