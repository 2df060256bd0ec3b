import FormCompiler.Code.Type

namespace FormCompiler

/-- Where an instruction takes a value from: itself, a parameter by position, or the instruction
that defines it. -/
inductive Operand
  | const (value : Const)
  | param (index : Nat)
  | value (id : Nat)
  deriving DecidableEq

namespace Operand

def const? : Operand → Option Const
  | .const c => some c
  | .param _ | .value _ => none

/-- Whether two operands compare equal; constants compare as numbers. -/
def agrees : Operand → Operand → Bool
  | .const a, .const b => a.agrees b
  | .param i, .param j => i == j
  | .value i, .value j => i == j
  | _, _ => false

def describe : Operand → String
  | .const (.i1 b) => s!"ConstI1({(Const.i1 b).text})"
  | .const (.i32 n) => s!"ConstI32({n.toInt})"
  | .const (.f64 x) => s!"ConstF64({Decimal.text x})"
  | .param index => s!"Param({index})"
  | .value id => s!"Value({id})"

end Operand

inductive ArithOp
  | add
  | sub
  | mul
  | div
  deriving DecidableEq

namespace ArithOp

def intText : ArithOp → String
  | .add => "add"
  | .sub => "sub"
  | .mul => "mul"
  | .div => "sdiv"

def floatText : ArithOp → String
  | .add => "fadd"
  | .sub => "fsub"
  | .mul => "fmul"
  | .div => "fdiv"

end ArithOp

inductive IntTest
  | slt
  | ult
  deriving DecidableEq

def IntTest.text : IntTest → String
  | .slt => "slt"
  | .ult => "ult"

inductive FloatTest
  | olt
  | ult
  | one
  deriving DecidableEq

def FloatTest.text : FloatTest → String
  | .olt => "olt"
  | .ult => "ult"
  | .one => "one"

inductive CastOp
  | sitofp
  | fptosi
  | uitofp
  | zext
  deriving DecidableEq

def CastOp.text : CastOp → String
  | .sitofp => "sitofp"
  | .fptosi => "fptosi"
  | .uitofp => "uitofp"
  | .zext => "zext"

inductive Computation
  | int (op : ArithOp) (lhs rhs : Operand)
  | float (op : ArithOp) (lhs rhs : Operand)
  | icmp (test : IntTest) (lhs rhs : Operand)
  | fcmp (test : FloatTest) (lhs rhs : Operand)
  | cast (op : CastOp) (value : Operand) (target : NativeType)
  deriving DecidableEq

namespace Computation

def type : Computation → NativeType
  | .int .. => .i32
  | .float .. => .f64
  | .icmp .. | .fcmp .. => .i1
  | .cast _ _ target => target

def operands : Computation → List Operand
  | .int _ lhs rhs | .float _ lhs rhs | .icmp _ lhs rhs | .fcmp _ lhs rhs => [lhs, rhs]
  | .cast _ value _ => [value]

def mapOperands (f : Operand → Operand) : Computation → Computation
  | .int op lhs rhs => .int op (f lhs) (f rhs)
  | .float op lhs rhs => .float op (f lhs) (f rhs)
  | .icmp test lhs rhs => .icmp test (f lhs) (f rhs)
  | .fcmp test lhs rhs => .fcmp test (f lhs) (f rhs)
  | .cast op value target => .cast op (f value) target

end Computation

/-- A call is by name. A phi takes the operand that belongs to the block control came from. -/
inductive Operation
  | compute (computation : Computation)
  | call (callee : String) (args : List Operand) (returns : NativeType)
  | phi (type : NativeType) (incoming : List (Operand × Nat))
  deriving DecidableEq

namespace Operation

def type : Operation → NativeType
  | .compute c => c.type
  | .call _ _ returns => returns
  | .phi type _ => type

def operands : Operation → List Operand
  | .compute c => c.operands
  | .call _ args _ => args
  | .phi _ incoming => incoming.map Prod.fst

def mapOperands (f : Operand → Operand) : Operation → Operation
  | .compute c => .compute (c.mapOperands f)
  | .call callee args returns => .call callee (args.map f) returns
  | .phi type incoming => .phi type (incoming.map fun e => (f e.1, e.2))

def mapEdges (f : List (Operand × Nat) → List (Operand × Nat)) : Operation → Operation
  | .phi type incoming => .phi type (f incoming)
  | op => op

def isPhi : Operation → Bool
  | .phi .. => true
  | _ => false

def isCall : Operation → Bool
  | .call .. => true
  | _ => false

end Operation

structure Instruction where
  dst : Nat
  op : Operation
  deriving DecidableEq

namespace Instruction

def type (i : Instruction) : NativeType := i.op.type

def operands (i : Instruction) : List Operand := i.op.operands

def hasSideEffects (i : Instruction) : Bool := i.op.isCall

def mapOperands (f : Operand → Operand) (i : Instruction) : Instruction :=
  { i with op := i.op.mapOperands f }

def mapEdges (f : List (Operand × Nat) → List (Operand × Nat)) (i : Instruction) : Instruction :=
  { i with op := i.op.mapEdges f }

end Instruction

inductive Terminator
  | ret (value : Option Operand)
  | br (target : Nat)
  | condBr (condition : Operand) (whenTrue whenFalse : Nat)
  deriving DecidableEq

namespace Terminator

def successors : Terminator → List Nat
  | .ret _ => []
  | .br target => [target]
  | .condBr _ whenTrue whenFalse => [whenTrue, whenFalse]

def operands : Terminator → List Operand
  | .ret value => value.toList
  | .br _ => []
  | .condBr condition _ _ => [condition]

def mapOperands (f : Operand → Operand) : Terminator → Terminator
  | .ret value => .ret (value.map f)
  | .br target => .br target
  | .condBr condition whenTrue whenFalse => .condBr (f condition) whenTrue whenFalse

end Terminator

end FormCompiler
