import FormCompiler.Code.Func

namespace FormCompiler

namespace VerifyError

inductive Cause
  | noBody
  | missingTerminator (block : String)
  | unknownBlock (target : Nat)
  | undefinedValue (value : Nat)
  | undefinedParam (index : Nat)
  | operandType (what : String) (expected found : NativeType)
  | unknownCallee (callee : String)
  | callArity (callee : String) (expected found : Nat)
  | phiEdges (value : Nat)
  deriving DecidableEq

end VerifyError

structure VerifyError where
  function : String
  cause : VerifyError.Cause
  deriving DecidableEq

def VerifyError.message (e : VerifyError) : String :=
  match e.cause with
  | .noBody => s!"`{e.function}` has no body"
  | .missingTerminator block => s!"block `{block}` in `{e.function}` has no terminator"
  | .unknownBlock target => s!"`{e.function}` branches to missing block {target}"
  | .undefinedValue value => s!"`{e.function}` uses undefined value %{value}"
  | .undefinedParam index => s!"`{e.function}` uses missing parameter #{index}"
  | .operandType what expected found =>
    s!"`{e.function}`: {what} expects {expected.text}, found {found.text}"
  | .unknownCallee callee => s!"`{e.function}` calls `{callee}`, which is not declared in the unit"
  | .callArity callee expected found =>
    s!"`{e.function}` calls `{callee}` with {found} arguments, expected {expected}"
  | .phiEdges value =>
    s!"phi %{value} in `{e.function}` does not match the predecessors of its block"

namespace Func

abbrev Check := Except VerifyError.Cause

def checkOperand (f : Func) (o : Operand) : Check NativeType :=
  match o with
  | .const c => .ok c.type
  | .param index =>
    match f.signature.paramTypes[index]? with
    | some type => .ok type
    | none => .error (.undefinedParam index)
  | .value id =>
    if f.instructions.any (·.dst == id) then
      match f.types[id]? with
      | some type => .ok type
      | none => .error (.undefinedValue id)
    else .error (.undefinedValue id)

def checkType (f : Func) (o : Operand) (expected : NativeType) (what : String) : Check Unit := do
  let found ← f.checkOperand o
  if found = expected then .ok () else .error (.operandType what expected found)

def checkCast (f : Func) (op : CastOp) (value : Operand) (target : NativeType) : Check Unit := do
  let source ← f.checkOperand value
  let (fits, result) := match op with
    | .sitofp | .uitofp => (source.isInteger, NativeType.f64)
    | .fptosi => (source.isFloat, .i32)
    | .zext => (source == .i1, .i32)
  if fits && target == result then .ok ()
  else .error (.operandType s!"{op.text} to {target.text}" result source)

def checkComputation (f : Func) : Computation → Check Unit
  | .int _ lhs rhs => do
    f.checkType lhs .i32 "integer arithmetic"
    f.checkType rhs .i32 "integer arithmetic"
  | .float _ lhs rhs | .fcmp _ lhs rhs => do
    f.checkType lhs .f64 "float operation"
    f.checkType rhs .f64 "float operation"
  | .icmp _ lhs rhs => do
    let type ← f.checkOperand lhs
    if type.isInteger then f.checkType rhs type "icmp"
    else .error (.operandType "icmp" .i32 type)
  | .cast op value target => f.checkCast op value target

def calleeSignature? (f : Func) (u : CodeUnit) (callee : String) : Option Signature :=
  if callee = f.name then some f.signature else (u.get? callee).map Func.signature

def checkCall (f : Func) (u : CodeUnit) (callee : String) (args : List Operand)
    (returns : NativeType) : Check Unit :=
  match f.calleeSignature? u callee with
  | none => .error (.unknownCallee callee)
  | some s => do
    if s.params.length ≠ args.length then
      throw (.callArity callee s.params.length args.length)
    (args.zip s.params).forM fun (arg, name, type) =>
      f.checkType arg type s!"argument `{name}` of `{callee}`"
    if s.returns ≠ returns then throw (.operandType s!"result of `{callee}`" s.returns returns)

def edgesInto (f : Func) (id : Nat) : List Nat :=
  f.blocks.flatMap fun b => (b.successors.filter (· == id)).map fun _ => b.id

def checkInstruction (f : Func) (u : CodeUnit) (block : Nat) (i : Instruction) : Check Unit :=
  match i.op with
  | .compute c => f.checkComputation c
  | .call callee args returns => f.checkCall u callee args returns
  | .phi type incoming => do
    incoming.forM fun (value, _) => f.checkType value type "phi"
    if (incoming.map Prod.snd).isPerm (f.edgesInto block) then .ok () else .error (.phiEdges i.dst)

def checkTerminator (f : Func) : Terminator → Check Unit
  | .ret (some value) => f.checkType value f.signature.returns "return"
  | .ret none =>
    if f.signature.returns = .void then .ok ()
    else .error (.operandType "return" f.signature.returns .void)
  | .br _ => .ok ()
  | .condBr condition _ _ => f.checkType condition .i1 "branch condition"

def checkFlow (f : Func) (b : Block) : Check Unit :=
  match b.terminator with
  | none => .error (.missingTerminator b.label)
  | some t => t.successors.forM fun target =>
    if f.blocks.any (·.id == target) then .ok () else .error (.unknownBlock target)

def checkBlock (f : Func) (u : CodeUnit) (b : Block) : Check Unit := do
  b.instructions.forM (f.checkInstruction u b.id)
  b.terminator.forM f.checkTerminator

def verify (f : Func) (u : CodeUnit) : Except VerifyError Unit :=
  let check : Check Unit := do
    if f.isDeclaration then throw .noBody
    f.blocks.forM f.checkFlow
    f.blocks.forM (f.checkBlock u)
  check.mapError fun cause => ⟨f.name, cause⟩

end Func

end FormCompiler
