import FormCompiler.Code.Instruction

namespace FormCompiler

inductive ArithError
  | divisionByZero
  | mismatch
  deriving DecidableEq

def ArithError.message : ArithError → String
  | .divisionByZero => "integer division by zero"
  | .mismatch => "operand type mismatch"

namespace Const

def int : Const → Except ArithError Int32
  | .i32 value => .ok value
  | .i1 value => .ok (if value then 1 else 0)
  | .f64 _ => .error .mismatch

def float : Const → Except ArithError Float
  | .f64 value => .ok value
  | .i1 _ | .i32 _ => .error .mismatch

end Const

/-- Division goes toward zero, and the least word divided by minus one is itself. -/
def ArithOp.onInts (op : ArithOp) (a b : Int32) : Except ArithError Int32 :=
  match op with
  | .add => .ok (a + b)
  | .sub => .ok (a - b)
  | .mul => .ok (a * b)
  | .div => if b = 0 then .error .divisionByZero else .ok (a / b)

def ArithOp.onFloats (op : ArithOp) (a b : Float) : Float :=
  match op with
  | .add => a + b
  | .sub => a - b
  | .mul => a * b
  | .div => a / b

def IntTest.holds (test : IntTest) (a b : Int32) : Bool :=
  match test with
  | .slt => a < b
  | .ult => a.toUInt32 < b.toUInt32

def FloatTest.holds (test : FloatTest) (a b : Float) : Bool :=
  let unordered := a.isNaN || b.isNaN
  match test with
  | .olt => !unordered && a < b
  | .ult => unordered || a < b
  | .one => !unordered && a != b

/-- The double cut off toward zero, held within the words; a NaN gives zero. -/
def truncated (x : Float) : Int32 :=
  if x < 0 then
    let n := (-x).toUInt32.toNat
    if n < 0x80000000 then -(Int32.ofNat n) else Int32.minValue
  else
    let n := x.toUInt32.toNat
    if n < 0x80000000 then Int32.ofNat n else Int32.maxValue

namespace Const

def intArith (op : ArithOp) (a b : Const) : Except ArithError Const := do
  let x ← a.int
  let y ← b.int
  return .i32 (← op.onInts x y)

def floatArith (op : ArithOp) (a b : Const) : Except ArithError Const := do
  let x ← a.float
  let y ← b.float
  return .f64 (op.onFloats x y)

def intTest (test : IntTest) (a b : Const) : Except ArithError Const := do
  let x ← a.int
  let y ← b.int
  return .i1 (test.holds x y)

def floatTest (test : FloatTest) (a b : Const) : Except ArithError Const := do
  let x ← a.float
  let y ← b.float
  return .i1 (test.holds x y)

def cast (op : CastOp) (c : Const) (target : NativeType) : Except ArithError Const :=
  match op, c, target with
  | .sitofp, c, .f64 => do return .f64 (Float.ofInt (← c.int).toInt)
  | .uitofp, c, .f64 => do return .f64 (← c.int).toUInt32.toFloat
  | .fptosi, c, .i32 => do return .i32 (truncated (← c.float))
  | .zext, .i1 b, .i32 => .ok (.i32 (if b then 1 else 0))
  | _, _, _ => .error .mismatch

end Const

namespace Computation

/-- The result, given what the operands stand for. All operands are looked at, the left one first,
before anything is computed; `fault` says what an arithmetical error means to the caller. -/
def run {ε : Type} (get : Operand → Except ε Const) (fault : ArithError → ε) :
    Computation → Except ε Const
  | .int op lhs rhs => do
    let a ← get lhs
    let b ← get rhs
    (Const.intArith op a b).mapError fault
  | .float op lhs rhs => do
    let a ← get lhs
    let b ← get rhs
    (Const.floatArith op a b).mapError fault
  | .icmp test lhs rhs => do
    let a ← get lhs
    let b ← get rhs
    (Const.intTest test a b).mapError fault
  | .fcmp test lhs rhs => do
    let a ← get lhs
    let b ← get rhs
    (Const.floatTest test a b).mapError fault
  | .cast op value target => do
    let a ← get value
    (Const.cast op a target).mapError fault

def evaluate (c : Computation) : Except ArithError Const :=
  c.run (fun o => match o with
    | .const a => .ok a
    | .param _ | .value _ => .error .mismatch) id

end Computation

end FormCompiler
