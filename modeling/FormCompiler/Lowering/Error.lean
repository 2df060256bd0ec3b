import FormCompiler.Code.Verify
import FormCompiler.Form

namespace FormCompiler

inductive Unsupported
  | variableOf (name : String) (type : Ty)
  | nestedFunction (name : String)
  | endOfInput
  | operator (op : BinaryOp) (type : NativeType)
  | voidBranch
  deriving DecidableEq

def Unsupported.text : Unsupported → String
  | .variableOf name type => s!"variable `{name}` of type {type.text}"
  | .nestedFunction name => s!"nested function `{name}`"
  | .endOfInput => "end of input as an expression"
  | .operator op type => s!"operator `{op.symbol}` on {type.text}"
  | .voidBranch => "void branch in a conditional"

inductive LowerError
  | mismatch (source target : NativeType) (span : Span)
  | arity (callee : String) (expected found : Nat) (span : Span)
  | unknownVariable (name : String) (span : Span)
  | unknownFunction (name : String) (span : Span)
  | redefinition (name : String)
  | invalid (error : VerifyError)
  | unsupported (what : Unsupported) (span : Span)
  deriving DecidableEq

def LowerError.message : LowerError → String
  | .mismatch source target span => s!"{span.text}: cannot convert {source.text} to {target.text}"
  | .arity callee expected found span =>
    s!"{span.text}: `{callee}` takes {expected} argument(s), {found} given"
  | .unknownVariable name span => s!"{span.text}: unknown variable `{name}`"
  | .unknownFunction name span => s!"{span.text}: unknown function `{name}`"
  | .redefinition name => s!"function `{name}` cannot be redefined"
  | .invalid error => s!"invalid function discarded: {error.message}"
  | .unsupported what span => s!"{span.text}: {what.text} is not supported"

end FormCompiler
