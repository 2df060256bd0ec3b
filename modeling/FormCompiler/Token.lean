import FormCompiler.Note
import FormCompiler.Span
import FormCompiler.Text.Quoted

namespace FormCompiler

inductive TypeWord
  | int
  | float
  | double
  deriving DecidableEq

def TypeWord.text : TypeWord → String
  | .int => "int"
  | .float => "float"
  | .double => "double"

inductive Kind
  | typeWord (word : TypeWord)
  | includeWord
  | returnWord
  | ifWord
  | elseWord
  | forWord
  | name (text : String)
  | int (text : String)
  | float (text : String)
  | semicolon
  | equals
  | openParen
  | closeParen
  | openBrace
  | closeBrace
  | comma
  | op (char : Char)
  | eof
  deriving DecidableEq

namespace Kind

def ofWord (word : String) : Kind :=
  match word with
  | "int" => .typeWord .int
  | "float" => .typeWord .float
  | "double" => .typeWord .double
  | "include" => .includeWord
  | "return" => .returnWord
  | "if" => .ifWord
  | "else" => .elseWord
  | "for" => .forWord
  | word => .name word

def ofPunctuation? : Char → Option Kind
  | ';' => some .semicolon
  | '=' => some .equals
  | '(' => some .openParen
  | ')' => some .closeParen
  | '{' => some .openBrace
  | '}' => some .closeBrace
  | ',' => some .comma
  | _ => none

def spelling : Kind → String
  | .typeWord word => word.text
  | .includeWord => "include"
  | .returnWord => "return"
  | .ifWord => "if"
  | .elseWord => "else"
  | .forWord => "for"
  | .name text | .int text | .float text => text
  | .semicolon => ";"
  | .equals => "="
  | .openParen => "("
  | .closeParen => ")"
  | .openBrace => "\x7b"
  | .closeBrace => "\x7d"
  | .comma => ","
  | .op char => char.toString
  | .eof => ""

def text? : Kind → Option String
  | .typeWord word => some word.text
  | .name text | .int text | .float text => some text
  | _ => none

def describe (k : Kind) : String :=
  match k with
  | .typeWord _ => s!"type `{k.spelling}`"
  | .name _ => s!"identifier `{k.spelling}`"
  | .int _ | .float _ => s!"literal `{k.spelling}`"
  | .eof => "end of input"
  | _ => s!"`{k.spelling}`"

def isBoundary : Kind → Bool
  | .semicolon | .closeBrace | .eof => true
  | _ => false

end Kind

structure Token where
  kind : Kind
  span : Span
  deriving DecidableEq

namespace Token

def isEof (t : Token) : Bool := t.kind == .eof

def operatorChars : List Char :=
  ['+', '-', '*', '/', '<', '>', '!', '%', '&', '|', '^', '~', ':', '#']

def notes (t : Token) : List Note :=
  let read := Note.trace s!"token: {t.kind.describe} at {t.span.start.text}"
  match t.kind with
  | .eof => []
  | .op c =>
    if operatorChars.contains c then [read]
    else [.debug s!"unrecognized character {Text.quoted c} at {t.span.start.text}", read]
  | _ => [read]

end Token

end FormCompiler
