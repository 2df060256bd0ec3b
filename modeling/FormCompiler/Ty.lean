import FormCompiler.Token

namespace FormCompiler

inductive Ty
  | int
  | double
  | char
  | void
  deriving DecidableEq

namespace Ty

def ofWord : TypeWord → Ty
  | .int => .int
  | .float | .double => .double

def isFloat (t : Ty) : Bool := t == .double

def text : Ty → String
  | .int => "int"
  | .double => "double"
  | .char => "char"
  | .void => "void"

end Ty

end FormCompiler
