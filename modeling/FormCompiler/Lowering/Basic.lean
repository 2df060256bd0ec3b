import FormCompiler.Code.Builder
import FormCompiler.Lowering.Coercion
import FormCompiler.Lowering.Error
import FormCompiler.Lowering.Registry

/-!
Turning expressions and statements into code. Control flow is made explicit: a conditional becomes
a branch to two blocks that meet in a third, where a phi takes the value.
-/

namespace FormCompiler

structure LowerEnv where
  registry : Registry
  unsignedCompare : Bool

structure Lowering where
  unit : CodeUnit
  builder : Builder
  names : Table Operand
  notes : Array Note

abbrev Lower := EStateM LowerError Lowering

namespace Lower

def note (n : Note) : Lower Unit := modify fun s => { s with notes := s.notes.push n }

def emit (op : Operation) : Lower Operand := do
  let s ← get
  let (value, builder) := s.builder.emit op
  set { s with builder, notes := s.notes ++ s.builder.emitNotes }
  return value

def compute (c : Computation) : Lower Operand := emit (.compute c)

def terminate (t : Terminator) : Lower Unit :=
  modify fun s => { s with
    builder := s.builder.terminate t
    notes := s.notes ++ s.builder.terminateNotes }

def appendBlock (label : String) : Lower Nat := do
  let s ← get
  let (id, builder) := s.builder.appendBlock label
  set { s with builder }
  return id

def moveTo (block : Nat) : Lower Unit :=
  modify fun s => { s with builder := s.builder.moveTo block }

def currentBlock : Lower Nat := return (← get).builder.current

def typeOf (o : Operand) : Lower NativeType :=
  return ((← get).builder.func.operandType? o).getD .void

def assign (name : String) (o : Operand) : Lower Unit :=
  modify fun s => { s with names := s.names.insert name o }

def coerce (o : Operand) (target : NativeType) (span : Span) : Lower Operand := do
  let source ← typeOf o
  match Coercion.between source target with
  | .identity => return o
  | .cast op =>
    note (.trace s!"coercing {source.text} to {target.text} via {op.text}")
    compute (.cast op o target)
  | .impossible => throw (.mismatch source target span)

def signature? (env : LowerEnv) (name : String) : Lower (Option Signature) := do
  let s ← get
  let (signature, unit, notes) := env.registry.resolve s.unit name
  set { s with unit, notes := s.notes ++ notes }
  return signature

def binary (env : LowerEnv) (op : BinaryOp) (l r : Operand) (type : NativeType) (span : Span) :
    Lower Operand :=
  let arith : Option ArithOp := match op with
    | .add => some .add
    | .sub => some .sub
    | .mul => some .mul
    | .div => some .div
    | .lt => none
  match type, arith with
  | .f64, some op => compute (.float op l r)
  | .i32, some op => compute (.int op l r)
  | .f64, none => do
    let flag ← compute (.fcmp (if env.unsignedCompare then .ult else .olt) l r)
    compute (.cast .uitofp flag .f64)
  | .i32, none => do
    let flag ← compute (.icmp (if env.unsignedCompare then .ult else .slt) l r)
    compute (.cast .zext flag .i32)
  | type, _ => throw (.unsupported (.operator op type) span)

end Lower

open Lower

mutual

def Expr.lower (env : LowerEnv) : Expr → Lower Operand
  | .int value _ => return .const (.i32 value.toInt32)
  | .float value _ => return .const (.f64 value)
  | .var name _ span => do
    match (← get).names.get? name with
    | some o => return o
    | none => throw (.unknownVariable name span)
  | .binary op lhs rhs span => do
    let l ← lhs.lower env
    let r ← rhs.lower env
    let type ← typeOf l
    let r ← coerce r type span
    Lower.binary env op l r type span
  | .call callee args _ span => do
    match ← signature? env callee with
    | none => throw (.unknownFunction callee span)
    | some s =>
      if s.params.length ≠ args.length then
        throw (.arity callee s.params.length args.length span)
      let values ← Expr.lowerArgs env args s.paramTypes
      emit (.call callee values s.returns)
  | .cond condition whenTrue whenFalse span => do
    let c ← condition.lower env
    let c ← coerce c .f64 condition.span
    let flag ← compute (.fcmp .one c (.const (.f64 0.0)))
    let thenBlock ← appendBlock "then"
    let elseBlock ← appendBlock "else"
    let joinBlock ← appendBlock "ifcont"
    terminate (.condBr flag thenBlock elseBlock)
    moveTo thenBlock
    let thenValue ← whenTrue.lower env
    let thenEnd ← currentBlock
    terminate (.br joinBlock)
    let type ← typeOf thenValue
    if type = .void then throw (.unsupported .voidBranch span)
    moveTo elseBlock
    let elseValue ← whenFalse.lower env
    let elseValue ← coerce elseValue type whenFalse.span
    let elseEnd ← currentBlock
    terminate (.br joinBlock)
    moveTo joinBlock
    emit (.phi type [(thenValue, thenEnd), (elseValue, elseEnd)])
  | .endOfInput => throw (.unsupported .endOfInput .nowhere)

def Expr.lowerArgs (env : LowerEnv) : List Expr → List NativeType → Lower (List Operand)
  | arg :: args, type :: types => do
    let value ← arg.lower env
    let value ← coerce value type arg.span
    return value :: (← Expr.lowerArgs env args types)
  | _, _ => return []

end

def Initializer.const : Initializer → Const
  | .int value => .i32 value.toInt32
  | .float value => .f64 value

def Stmt.lower (env : LowerEnv) : Stmt → Lower Unit
  | .expression e => discard (e.lower env)
  | .declaration (.variableAs type name init span) => do
    assign name (← coerce (.const init.const) (.ofTy type) span)
  | .declaration (.variableOf type name span) =>
    match (NativeType.ofTy type).zero? with
    | some zero => assign name (.const zero)
    | none => throw (.unsupported (.variableOf name type) span)
  | .declaration decl => throw (.unsupported (.nestedFunction decl.name) .nowhere)

def lowerBody (env : LowerEnv) (signature : Signature) (body : List Stmt) (result : Option Expr) :
    Lower Unit := do
  body.forM (Stmt.lower env)
  match result with
  | some e =>
    let value ← e.lower env
    terminate (.ret (some (← coerce value signature.returns e.span)))
  | none =>
    note (.debug s!"`{signature.name}` has no return, returning zero")
    terminate (.ret (signature.returns.zero?.map .const))

end FormCompiler
