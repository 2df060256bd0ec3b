import FormCompiler.Expr

namespace FormCompiler

structure Param where
  type : Ty
  name : String
  deriving DecidableEq

structure Prototype where
  returns : Ty
  name : String
  params : List Param
  span : Span
  deriving DecidableEq

def Prototype.arity (p : Prototype) : Nat := p.params.length

inductive Initializer
  | int (value : Int64)
  | float (value : Float)

mutual

inductive Stmt
  | declaration (decl : Declaration)
  | expression (expr : Expr)

/-- A function whose body has no `return` has no `result`. -/
inductive Declaration
  | prototype (proto : Prototype)
  | function (proto : Prototype) (body : List Stmt) (result : Option Expr)
  | variableOf (type : Ty) (name : String) (span : Span)
  | variableAs (type : Ty) (name : String) (init : Initializer) (span : Span)

end

def Declaration.name : Declaration → String
  | .prototype proto | .function proto _ _ => proto.name
  | .variableOf _ name _ | .variableAs _ name _ _ => name

structure Anonymous where
  proto : Prototype
  expr : Expr

namespace Anonymous

def nameOf (counter : Nat) : String := s!"__anon_expr{counter}"

def wrap (expr : Expr) (counter : Nat) : Anonymous :=
  ⟨⟨expr.ty, nameOf counter, [], expr.span⟩, expr⟩

end Anonymous

/-- A bare call stays an expression, any other expression comes wrapped. -/
inductive Form
  | expression (expr : Expr)
  | declaration (decl : Declaration)
  | anonymous (anon : Anonymous)

def Form.isEnd : Form → Bool
  | .expression .endOfInput => true
  | _ => false

end FormCompiler
