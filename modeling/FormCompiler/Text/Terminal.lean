import FormCompiler.Text.Quoted

namespace FormCompiler.Text

def isCommand (c : Char) : Bool :=
  c == '\x07' || c == '\x08' || c == '\x0c' || c == '\x1b' || c == '\x7f'

def isHighControl (c : Char) : Bool := 0x80 ≤ c.toNat && c.toNat ≤ 0x9f

def tameChar (c : Char) : String :=
  if isCommand c then "\\x" ++ (if c.toNat < 0x10 then "0" else "") ++ hex c.toNat
  else if isHighControl c then "\\u\x7b" ++ hex c.toNat ++ "\x7d"
  else c.toString

def tame (text : String) : String := String.join (text.toList.map tameChar)

end FormCompiler.Text
