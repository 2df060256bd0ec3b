import FormCompiler.Note
import FormCompiler.Pass.ConstantFolding
import FormCompiler.Pass.ControlFlow
import FormCompiler.Pass.DeadCode

namespace FormCompiler

inductive Pass
  | constantFolding
  | deadCode
  | controlFlow
  deriving DecidableEq

namespace Pass

def name : Pass → String
  | .constantFolding => "constant-folding"
  | .deadCode => "dead-code-elimination"
  | .controlFlow => "simplify-cfg"

def run : Pass → Transformation
  | .constantFolding => ConstantFolding.run
  | .deadCode => DeadCode.run
  | .controlFlow => ControlFlow.run

def runAll : List Pass → Transformation
  | [], f => ⟨f, false⟩
  | p :: ps, f => Transformation.andThen p.run (runAll ps) f

def notes (passes : List Pass) (name : String) : List Note :=
  passes.map fun p => .trace s!"running {p.name} on {name}"

end Pass

inductive OptLevel
  | o0
  | o1
  | o2
  deriving DecidableEq

namespace OptLevel

def passes : OptLevel → List Pass
  | .o0 => []
  | .o1 => [.constantFolding, .deadCode]
  | .o2 => [.constantFolding, .controlFlow, .constantFolding, .deadCode]

def read? : String → Option OptLevel
  | "0" | "O0" => some .o0
  | "1" | "O1" => some .o1
  | "2" | "O2" => some .o2
  | _ => none

def unknown (text : String) : String := s!"unknown optimization level `{text}`"

def text : OptLevel → String
  | .o0 => "O0"
  | .o1 => "O1"
  | .o2 => "O2"

end OptLevel

end FormCompiler
