import FormCompiler.Code.Verify

namespace FormCompiler

namespace Fault

inductive Misfit
  | voidArgument
  | argument (param : String) (type : NativeType)
  | hostArgument (type : NativeType)
  | noValue (operand : Operand)
  | missingBlock (id : Nat)
  | missingTerminator (block : String)
  | missingEdge
  | branchOn (const : Const)
  | badOperands (value : Nat)
  deriving DecidableEq

def Misfit.message : Misfit → String
  | .voidArgument => "void argument"
  | .argument param type => s!"argument `{param}` expects {type.text}"
  | .hostArgument type => s!"host argument must be double, got {type.text}"
  | .noValue operand => s!"operand {operand.describe} has no value"
  | .missingBlock id => s!"missing block {id}"
  | .missingTerminator block => s!"block {block} has no terminator"
  | .missingEdge => "phi without a matching edge"
  | .branchOn c => s!"branch on {(Operand.const c).describe}"
  | .badOperands value => s!"bad operands for %{value}"

end Fault

inductive Fault
  | unresolved (name : String)
  | divisionByZero (function : String)
  | tooDeep (function : String) (limit : Nat)
  | tooLong (limit : Nat)
  | arity (function : String) (expected found : Nat)
  | misfit (function : String) (detail : Fault.Misfit)
  | layout (unit : String) (expected found : DataLayout)
  | invalid (error : VerifyError)
  deriving DecidableEq

def Fault.message : Fault → String
  | .unresolved name => s!"unresolved symbol `{name}`"
  | .divisionByZero function => s!"integer division by zero in `{function}`"
  | .tooDeep function limit => s!"call depth limit of {limit} exceeded in `{function}`"
  | .tooLong limit => s!"step limit of {limit} exceeded"
  | .arity function expected found =>
    s!"`{function}` takes {expected} argument(s), {found} given"
  | .misfit function detail => s!"type mismatch in `{function}`: {detail.message}"
  | .layout unit expected found =>
    s!"unit `{unit}` targets `{found.text}`, engine expects `{expected.text}`"
  | .invalid error => s!"refusing to commit invalid code: {error.message}"

end FormCompiler
