import FormCompiler.Code.Instruction

namespace FormCompiler

inductive Coercion
  | identity
  | cast (op : CastOp)
  | impossible
  deriving DecidableEq

namespace Coercion

def between (source target : NativeType) : Coercion :=
  if source = target then .identity
  else
    match source, target with
    | .i32, .f64 => .cast .sitofp
    | .i1, .f64 => .cast .uitofp
    | .f64, .i32 => .cast .fptosi
    | .i1, .i32 => .cast .zext
    | _, _ => .impossible

end Coercion

end FormCompiler
