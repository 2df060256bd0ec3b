import FormCompiler.Ty

namespace FormCompiler

inductive Expected
  | type
  | declaredName
  | afterPrototype
  | afterDeclaredName
  | parameterType
  | parameterName
  | endOfParameters
  | initializer
  | afterInitializer
  | endOfBody
  | afterDeclaration
  | afterStatement
  | afterReturnValue
  | afterReturn
  | afterExpression
  | afterArgument
  | closeParen
  | openCondition
  | closeCondition
  | elseBranch
  deriving DecidableEq

def Expected.text : Expected → String
  | .type => "a type"
  | .declaredName => "an identifier after the type"
  | .afterPrototype => "`;` or a function body after the prototype"
  | .afterDeclaredName => "`;`, `=` or `(` after the declared name"
  | .parameterType => "a parameter type"
  | .parameterName => "a parameter name"
  | .endOfParameters => "`)` at the end of the parameter list"
  | .initializer => "a numeric literal initializer"
  | .afterInitializer => "`;` after the initializer"
  | .endOfBody => "`\x7d` at the end of the function body"
  | .afterDeclaration => "`;` after the declaration"
  | .afterStatement => "`;` after the statement"
  | .afterReturnValue => "`;` after the return value"
  | .afterReturn => "`\x7d` after the return statement"
  | .afterExpression => "`;` after expression"
  | .afterArgument => "`)` or `,` in argument list"
  | .closeParen => "`)`"
  | .openCondition => "`(` after `if`"
  | .closeCondition => "`)` after the condition"
  | .elseBranch => "`else`"

namespace ParseError

inductive Cause
  | expected (what : Expected) (found : Kind)
  | unexpected (found : Kind)
  | unknownName (name : String)
  | duplicateParameter (function name : String)
  | initializerMismatch (name : String) (declared found : Ty)
  | malformedLiteral (text : String)
  | nestedFunction (name : String)
  deriving DecidableEq

def Cause.message : Cause → String
  | .expected what found => s!"expected {what.text}, found {found.describe}"
  | .unexpected found => s!"unexpected {found.describe} when expecting an expression"
  | .unknownName name => s!"unknown identifier `{name}`"
  | .duplicateParameter function name => s!"parameter `{name}` of `{function}` declared twice"
  | .initializerMismatch name declared found =>
    s!"`{name}` is declared {declared.text} but initialized with a {found.text} literal"
  | .malformedLiteral text => s!"malformed numeric literal `{text}`"
  | .nestedFunction name => s!"function `{name}` cannot be declared inside another function"

end ParseError

structure ParseError where
  cause : ParseError.Cause
  span : Span
  deriving DecidableEq

namespace ParseError

def message (e : ParseError) : String := s!"{e.span.text}: {e.cause.message}"

def note (e : ParseError) : Note := .debug s!"parse error: {e.message}"

end ParseError

end FormCompiler
