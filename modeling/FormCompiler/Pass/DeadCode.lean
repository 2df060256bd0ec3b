import FormCompiler.Pass.Basic

namespace FormCompiler.DeadCode

def round : Transformation := fun f =>
  let g := f.filterInstructions fun i => i.hasSideEffects || f.isUsed i.dst
  ⟨g, g.instructionCount != f.instructionCount⟩

def run : Transformation := Transformation.exhaust round

end FormCompiler.DeadCode
