import FormCompiler.Text.Blank
import FormCompiler.Token

namespace FormCompiler

def isLetter (c : Char) : Bool := c.isAlpha

def isWordChar (c : Char) : Bool := c.isAlphanum

structure Scanned where
  kind : Kind
  lexeme : List Char
  rest : List Char

namespace Scanned

def word (cs : List Char) : Scanned :=
  let lexeme := cs.takeWhile isWordChar
  ⟨.ofWord (String.ofList lexeme), lexeme, cs.dropWhile isWordChar⟩

def numeral (cs : List Char) : Scanned :=
  let whole := cs.takeWhile Char.isDigit
  match cs.dropWhile Char.isDigit with
  | '.' :: rest =>
    let lexeme := whole ++ '.' :: rest.takeWhile Char.isDigit
    ⟨.float (String.ofList lexeme), lexeme, rest.dropWhile Char.isDigit⟩
  | rest => ⟨.int (String.ofList whole), whole, rest⟩

def token (c : Char) (cs : List Char) : Scanned :=
  match Kind.ofPunctuation? c with
  | some kind => ⟨kind, [c], cs⟩
  | none =>
    if isLetter c then word (c :: cs)
    else if c.isDigit || c == '.' then numeral (c :: cs)
    else ⟨.op c, [c], cs⟩

theorem lexeme_append_rest_word (cs : List Char) : (word cs).lexeme ++ (word cs).rest = cs :=
  List.takeWhile_append_dropWhile

theorem lexeme_append_rest_numeral (cs : List Char) :
    (numeral cs).lexeme ++ (numeral cs).rest = cs := by
  have hsplit : cs.takeWhile Char.isDigit ++ cs.dropWhile Char.isDigit = cs :=
    List.takeWhile_append_dropWhile
  unfold numeral
  split
  next rest h =>
    rw [h] at hsplit
    simp [hsplit, List.takeWhile_append_dropWhile]
  next => exact hsplit

theorem lexeme_append_rest (c : Char) (cs : List Char) :
    (token c cs).lexeme ++ (token c cs).rest = c :: cs := by
  unfold token
  split
  · rfl
  · split
    · exact lexeme_append_rest_word _
    · split
      · exact lexeme_append_rest_numeral _
      · rfl

theorem lexeme_ne_nil (c : Char) (cs : List Char) : (token c cs).lexeme ≠ [] := by
  unfold token
  split
  · simp
  · split
    next h =>
      have : isWordChar c = true := by simp_all [isLetter, isWordChar, Char.isAlphanum]
      simp [word, this]
    next =>
      split
      next h =>
        unfold numeral
        split
        next => simp
        next hrest =>
          rcases (Bool.or_eq_true _ _).mp h with hd | hdot
          · simp [hd]
          · have : c = '.' := by simpa using hdot
            subst this
            exact absurd rfl (hrest cs)
      next => simp

theorem length_rest_lt (c : Char) (cs : List Char) :
    (token c cs).rest.length < (c :: cs).length := by
  have hwhole := congrArg List.length (lexeme_append_rest c cs)
  have hne := List.length_pos_iff.mpr (lexeme_ne_nil c cs)
  simp only [List.length_append] at hwhole
  omega

end Scanned

def Token.read (p : Position) : List Char → List Token
  | [] => [⟨.eof, .point p⟩]
  | c :: cs =>
    if Text.isBlank c then read (p.after c) cs
    else
      let s := Scanned.token c cs
      let stop := p.afterAll s.lexeme
      ⟨s.kind, ⟨p, stop⟩⟩ :: read stop s.rest
termination_by cs => cs.length
decreasing_by
  · simp
  · exact Scanned.length_rest_lt c cs

def tokenize (cs : List Char) : List Token := Token.read .first cs

def tokenizeNotes (text : String) : List Note :=
  let tokens := tokenize text.toList
  .debug s!"tokenizing {text.utf8ByteSize} bytes" ::
    (tokens.flatMap Token.notes ++ [.debug s!"tokenized into {tokens.length} tokens"])

end FormCompiler
