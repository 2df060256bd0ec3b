import FormCompiler.Note

namespace FormCompiler

structure Source where
  chars : List Char
  closing : List Note := []

namespace Source

def ofText (text : String) : Source := ⟨text.toList, []⟩

def takeLine : List UInt8 → List UInt8 × List UInt8
  | [] => ([], [])
  | b :: bs =>
    if b = 0x0a then ([b], bs)
    else
      let (line, rest) := takeLine bs
      (b :: line, rest)

theorem takeLine_append (bs : List UInt8) : (takeLine bs).1 ++ (takeLine bs).2 = bs := by
  induction bs with
  | nil => rfl
  | cons b bs ih =>
    unfold takeLine
    split
    · rfl
    · simp [ih]

theorem length_takeLine_lt (b : UInt8) (bs : List UInt8) :
    (takeLine (b :: bs)).2.length < (b :: bs).length := by
  have hwhole := congrArg List.length (takeLine_append (b :: bs))
  have : (takeLine (b :: bs)).1 ≠ [] := by
    unfold takeLine
    split <;> simp
  have := List.length_pos_iff.mpr this
  simp only [List.length_append] at hwhole
  omega

def decode? (bytes : List UInt8) : Option (List Char) :=
  (String.fromUTF8? ⟨bytes.toArray⟩).map String.toList

def unreadable : Note :=
  .error "read failed, treating as end of input: stream did not contain valid UTF-8"

/-- The characters of the leading lines that are text. The first line that is none ends the input
for good and gives none of its characters. -/
def ofBytes : List UInt8 → Source
  | [] => ⟨[], []⟩
  | b :: bs =>
    match decode? (takeLine (b :: bs)).1 with
    | none => ⟨[], [unreadable]⟩
    | some cs =>
      let later := ofBytes (takeLine (b :: bs)).2
      ⟨cs ++ later.chars, later.closing⟩
termination_by bytes => bytes.length
decreasing_by exact length_takeLine_lt b bs

end Source

end FormCompiler
