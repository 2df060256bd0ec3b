import FormCompiler.Lowering.Basic
import FormCompiler.Engine
import FormCompiler.Proofs.Check

/-!
What programs mean, by recursion on their text: no code, no blocks and no frames. A definition is
kept with the signatures that were known where it was accepted, and calls are answered by the
definitions at hand when they are made.
-/

namespace FormCompiler

abbrev Eval := EStateM Fault (List HostCall)

/-- What a failure says of the program. That it names a value of the code says nothing. -/
def Fault.blur : Fault → Fault
  | .misfit function (.badOperands _) => .misfit function (.badOperands 0)
  | fault => fault

def ArithError.fault (function : String) : ArithError → Fault
  | .divisionByZero => .divisionByZero function
  | .mismatch => .misfit function (.badOperands 0)

def Eval.ofExcept {ε α : Type} (fault : ε → Fault) : Except ε α → Eval α
  | .ok a => pure a
  | .error e => throw (fault e)

def Const.convert (c : Const) (source target : NativeType) : Except ArithError Const :=
  match Coercion.between source target with
  | .identity => .ok c
  | .cast op => c.cast op target
  | .impossible => .error .mismatch

def Const.isTrue (c : Const) : Except ArithError Bool :=
  return FloatTest.one.holds (← c.float) 0.0

namespace BinaryOp

def arith? : BinaryOp → Option ArithOp
  | .add => some .add
  | .sub => some .sub
  | .mul => some .mul
  | .div => some .div
  | .lt => none

def apply (op : BinaryOp) (unsignedCompare : Bool) (type : NativeType) (a b : Const) :
    Except ArithError Const :=
  match type, op.arith? with
  | .f64, some arith => Const.floatArith arith a b
  | .i32, some arith => Const.intArith arith a b
  | .f64, none => do
    (← Const.floatTest (if unsignedCompare then .ult else .olt) a b).cast .uitofp .f64
  | .i32, none => do
    (← Const.intTest (if unsignedCompare then .ult else .slt) a b).cast .zext .i32
  | _, _ => .error .mismatch

end BinaryOp

structure EvalScope where
  function : String
  known : String → Option Signature
  unsignedCompare : Bool
  call : String → List Const → Eval Const
  vars : Table Const

namespace EvalScope

def arith {α : Type} (x : EvalScope) : Except ArithError α → Eval α :=
  Eval.ofExcept (ArithError.fault x.function)

def nothing {α : Type} (x : EvalScope) : Eval α := throw (.misfit x.function (.badOperands 0))

def bind (x : EvalScope) (name : String) (c : Const) : EvalScope :=
  { x with vars := x.vars.insert name c }

end EvalScope

/-- The type of an expression. It is that of its value, unless a function was defined anew with
another type after the expression had been accepted. -/
def Expr.native (x : EvalScope) : Expr → NativeType
  | .int .. => .i32
  | .float .. => .f64
  | .var name _ _ => ((x.vars.get? name).map Const.type).getD .void
  | .binary _ lhs _ _ => lhs.native x
  | .call callee _ _ _ => ((x.known callee).map Signature.returns).getD .void
  | .cond _ whenTrue _ _ => whenTrue.native x
  | .endOfInput => .void

mutual

def Expr.eval (x : EvalScope) : Expr → Eval Const
  | .int value _ => pure (.i32 value.toInt32)
  | .float value _ => pure (.f64 value)
  | .var name _ _ =>
    match x.vars.get? name with
    | some c => pure c
    | none => x.nothing
  | .binary op lhs rhs _ => do
    let a ← lhs.eval x
    let b ← rhs.eval x
    let b ← x.arith (b.convert (rhs.native x) (lhs.native x))
    x.arith (op.apply x.unsignedCompare (lhs.native x) a b)
  | .call callee args _ _ =>
    match x.known callee with
    | some s => do
      let values ← Expr.evalArgs x args s.paramTypes
      x.call callee values
    | none => x.nothing
  | .cond condition whenTrue whenFalse _ => do
    let c ← condition.eval x
    let c ← x.arith (c.convert (condition.native x) .f64)
    if ← x.arith c.isTrue then whenTrue.eval x
    else do
      let c ← whenFalse.eval x
      x.arith (c.convert (whenFalse.native x) (whenTrue.native x))
  | .endOfInput => x.nothing

def Expr.evalArgs (x : EvalScope) : List Expr → List NativeType → Eval (List Const)
  | arg :: args, type :: types => do
    let c ← arg.eval x
    let c ← x.arith (c.convert (arg.native x) type)
    return c :: (← Expr.evalArgs x args types)
  | _, _ => return []

end

def evalBody (returns : NativeType) : EvalScope → List Stmt → Option Expr → Eval Const
  | x, [], some e => do x.arith ((← e.eval x).convert (e.native x) returns)
  | x, [], none =>
    match returns.zero? with
    | some zero => pure zero
    | none => x.nothing
  | x, .expression e :: body, result => do
    let _ ← e.eval x
    evalBody returns x body result
  | x, .declaration (.variableAs type name init _) :: body, result => do
    let c ← x.arith (init.const.convert init.const.type (.ofTy type))
    evalBody returns (x.bind name c) body result
  | x, .declaration (.variableOf type name _) :: body, result =>
    match (NativeType.ofTy type).zero? with
    | some zero => evalBody returns (x.bind name zero) body result
    | none => x.nothing
  | x, .declaration (.prototype _) :: _, _ | x, .declaration (.function ..) :: _, _ => x.nothing

structure Definition where
  signature : Signature
  body : List Stmt
  result : Option Expr
  known : String → Option Signature

def Signature.bindArgs (s : Signature) (args : List Const) : Table Const :=
  (s.params.zip args).foldl (fun vars e => vars.insert e.1.1 e.2) ∅

def Definition.eval (d : Definition) (unsignedCompare : Bool)
    (call : String → List Const → Eval Const) (args : List Const) : Eval Const :=
  evalBody d.signature.returns
    ⟨d.signature.name, d.known, unsignedCompare, call, d.signature.bindArgs args⟩ d.body d.result

structure Meaning where
  sources : Table Definition
  host : HostTable
  depth : Nat
  unsignedCompare : Bool

namespace Meaning

def callHost (m : Meaning) (name : String) (args : List Const) : Eval Const := do
  let h ← Eval.ofExcept id (m.host.call name (args.map Value.of))
  modify (h :: ·)
  return .f64 h.result

def answer (m : Meaning) (enter : Definition → List Const → Eval Const) (name : String)
    (args : List Const) : Eval Const :=
  match m.sources.get? name with
  | some d => do
    Eval.ofExcept id (Machine.checkArgs { signature := d.signature } args)
    enter d args
  | none => m.callHost name args

def call (m : Meaning) : Nat → String → List Const → Eval Const
  | 0 => m.answer fun d _ => throw (.tooDeep d.signature.name m.depth)
  | n + 1 => m.answer fun d args => d.eval m.unsignedCompare (m.call n) args

def called (m : Meaning) (name : String) (args : List Value) : Engine.Called :=
  match Engine.constants name args with
  | .error fault => ⟨.error fault, []⟩
  | .ok args =>
    match m.call m.depth name args [] with
    | .ok c calls => ⟨.ok (.of c), calls.reverse⟩
    | .error fault calls => ⟨.error fault, calls.reverse⟩

end Meaning

theorem Const.convert_type {a c : Const} {target : NativeType}
    (h : a.convert a.type target = .ok c) : c.type = target := by
  unfold Const.convert Coercion.between at h
  by_cases he : a.type = target
  · simp only [if_pos he, Except.ok.injEq] at h
    rw [← h, he]
  · simp only [if_neg he] at h
    cases a <;> cases target <;> cases h <;> rfl

theorem BinaryOp.apply_type {op : BinaryOp} {unsignedCompare : Bool} {type : NativeType}
    {a b c : Const} (h : op.apply unsignedCompare type a b = .ok c) : c.type = type := by
  unfold apply at h
  split at h
  next arith _ _ =>
    cases a <;> cases b <;> cases h
    rfl
  next arith _ _ =>
    simp only [Const.intArith, bind_eq_ok] at h
    obtain ⟨x, _, y, _, z, _, h⟩ := h
    cases h
    rfl
  next =>
    obtain ⟨flag, _, h⟩ := bind_eq_ok.mp h
    cases flag <;> cases h <;> rfl
  next =>
    obtain ⟨flag, _, h⟩ := bind_eq_ok.mp h
    cases flag <;> cases h
    rfl
  next => cases h

namespace Eval

variable {α β ε : Type} {calls calls'' : List HostCall}

theorem bind_ok {action : Eval α} {f : α → Eval β} {b : β}
    (h : (action >>= f) calls = .ok b calls'') :
    ∃ a calls', action calls = .ok a calls' ∧ f a calls' = .ok b calls'' := by
  simp only [bind, EStateM.bind] at h
  cases ha : action calls with
  | ok a calls' => rw [ha] at h; exact ⟨a, calls', rfl, h⟩
  | error fault calls' => rw [ha] at h; cases h

theorem ofExcept_ok {fault : ε → Fault} {r : Except ε α} {a : α}
    (h : ofExcept fault r calls = .ok a calls'') : r = .ok a := by
  cases r with
  | ok a' => cases h; rfl
  | error e => cases h

end Eval

theorem Expr.eval_type {x : EvalScope}
    (hcall : ∀ callee s args calls c calls', x.known callee = some s →
      x.call callee args calls = .ok c calls' → c.type = s.returns)
    (e : Expr) {calls calls' : List HostCall} {c : Const} (h : e.eval x calls = .ok c calls') :
    c.type = e.native x := by
  cases e with
  | int value span => rw [Expr.eval] at h; cases h; rfl
  | float value span => rw [Expr.eval] at h; cases h; rfl
  | var name type span =>
    rw [Expr.eval] at h
    cases hv : x.vars.get? name with
    | some c' => rw [hv] at h; cases h; simp [Expr.native, hv]
    | none => rw [hv] at h; cases h
  | binary op lhs rhs span =>
    rw [Expr.eval] at h
    obtain ⟨a, _, _, h⟩ := Eval.bind_ok h
    obtain ⟨b, _, _, h⟩ := Eval.bind_ok h
    obtain ⟨b', _, _, h⟩ := Eval.bind_ok h
    exact BinaryOp.apply_type (Eval.ofExcept_ok h)
  | call callee args type span =>
    rw [Expr.eval] at h
    cases hk : x.known callee with
    | none => rw [hk] at h; cases h
    | some s =>
      rw [hk] at h
      obtain ⟨values, _, _, h⟩ := Eval.bind_ok h
      rw [hcall callee s values _ c _ hk h]
      simp [Expr.native, hk]
  | cond condition whenTrue whenFalse span =>
    rw [Expr.eval] at h
    obtain ⟨a, _, _, h⟩ := Eval.bind_ok h
    obtain ⟨a', _, _, h⟩ := Eval.bind_ok h
    obtain ⟨taken, calls₃, _, h⟩ := Eval.bind_ok h
    cases taken with
    | true => exact Expr.eval_type hcall whenTrue h
    | false =>
      rw [if_neg Bool.false_ne_true] at h
      obtain ⟨b, _, hb, h⟩ := Eval.bind_ok h
      have htype := Expr.eval_type hcall whenFalse hb
      have hc := Eval.ofExcept_ok h
      rw [← htype] at hc
      exact Const.convert_type hc
  | endOfInput => rw [Expr.eval] at h; cases h

end FormCompiler
