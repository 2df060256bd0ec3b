import FormCompiler.Ty

namespace FormCompiler

inductive BinaryOp
  | lt
  | add
  | sub
  | mul
  | div
  deriving DecidableEq

namespace BinaryOp

def ofChar? : Char → Option BinaryOp
  | '<' => some .lt
  | '+' => some .add
  | '-' => some .sub
  | '*' => some .mul
  | '/' => some .div
  | _ => none

def symbol : BinaryOp → Char
  | .lt => '<'
  | .add => '+'
  | .sub => '-'
  | .mul => '*'
  | .div => '/'

def isComparison (op : BinaryOp) : Bool := op == .lt

def precedence : BinaryOp → Nat
  | .lt => 10
  | .add | .sub => 20
  | .mul | .div => 40

@[simp] theorem ofChar?_symbol (op : BinaryOp) : ofChar? op.symbol = some op := by
  cases op <;> rfl

end BinaryOp

def Kind.operator? : Kind → Option BinaryOp
  | .op c => BinaryOp.ofChar? c
  | _ => none

def precedenceOf (c : Char) : Int :=
  match BinaryOp.ofChar? c with
  | some op => op.precedence
  | none => -1

def Kind.precedence : Kind → Int
  | .op c => precedenceOf c
  | _ => -1

/-- Variables and calls carry the type under which the name was declared. `endOfInput` stands for
an expression that is not there because the text has ended. -/
inductive Expr
  | int (value : Int64) (span : Span)
  | float (value : Float) (span : Span)
  | var (name : String) (type : Ty) (span : Span)
  | binary (op : BinaryOp) (lhs rhs : Expr) (span : Span)
  | call (callee : String) (args : List Expr) (type : Ty) (span : Span)
  | cond (condition whenTrue whenFalse : Expr) (span : Span)
  | endOfInput

namespace Expr

def ty : Expr → Ty
  | .int .. => .int
  | .float .. => .double
  | .var _ type _ | .call _ _ type _ => type
  | .binary _ lhs _ _ => lhs.ty
  | .cond _ whenTrue _ _ => whenTrue.ty
  | .endOfInput => .void

def span : Expr → Span
  | .int _ span | .float _ span | .var _ _ span | .binary _ _ _ span | .call _ _ _ span
  | .cond _ _ _ span => span
  | .endOfInput => .nowhere

def isCall : Expr → Bool
  | .call .. => true
  | _ => false

def promote (lhs rhs : Expr) : Expr :=
  match lhs with
  | .int value span => if rhs.ty.isFloat then .float (Float.ofInt value.toInt) span else lhs
  | _ => lhs

def join (op : BinaryOp) (lhs rhs : Expr) : Expr :=
  .binary op (lhs.promote rhs) rhs (lhs.span.through rhs.span)

end Expr

end FormCompiler
