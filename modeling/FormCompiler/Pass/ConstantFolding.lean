import FormCompiler.Code.Arith
import FormCompiler.Pass.Basic

/-!
Constant folding: what has constant operands is computed now. An integer division by zero stays, to
fail when it is run.
-/

namespace FormCompiler

def Operation.fold? : Operation → Option Const
  | .compute c => c.evaluate.toOption
  | .call .. => none
  | .phi _ [] => none
  | .phi _ ((first, block) :: rest) =>
    if ((first, block) :: rest).all fun e => e.1.agrees first then first.const? else none

namespace ConstantFolding

def known (f : Func) : List (Nat × Const) :=
  (f.instructions.filterMap fun i => i.op.fold?.map fun c => (i.dst, c)).reverse

def replace (values : List (Nat × Const)) (o : Operand) : Operand :=
  match o with
  | .value id =>
    match values.lookup id with
    | some c => .const c
    | none => o
  | _ => o

def round : Transformation := fun f =>
  let values := known f
  let kept := f.filterInstructions fun i => i.op.fold?.isNone
  ⟨kept.mapOperands (replace values), !values.isEmpty⟩

def run : Transformation := Transformation.exhaust round

end ConstantFolding

end FormCompiler
