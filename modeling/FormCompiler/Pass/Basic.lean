import FormCompiler.Code.Func

namespace FormCompiler

def Operand.replace (id : Nat) (replacement : Operand) (o : Operand) : Operand :=
  if o = .value id then replacement else o

namespace Func

def mapOperands (f : Func) (change : Operand → Operand) : Func :=
  f.mapBlocks (·.mapOperands change)

def replaceUses (f : Func) (id : Nat) (replacement : Operand) : Func :=
  f.mapOperands (Operand.replace id replacement)

def uses (f : Func) : List Operand := f.blocks.flatMap Block.operands

def isUsed (f : Func) (id : Nat) : Bool := f.uses.contains (.value id)

def filterInstructions (f : Func) (keep : Instruction → Bool) : Func :=
  f.mapBlocks fun b => { b with instructions := b.instructions.filter keep }

def branchCount (f : Func) : Nat :=
  f.blocks.countP fun b => match b.terminator with
    | some (.condBr ..) => true
    | _ => false

def weight (f : Func) : Nat := f.blocks.length + f.instructionCount + f.branchCount

end Func

structure Transformed where
  func : Func
  changed : Bool

abbrev Transformation := Func → Transformed

namespace Transformation

def andThen (r s : Transformation) : Transformation := fun f =>
  let first := r f
  let second := s first.func
  ⟨second.func, first.changed || second.changed⟩

def exhaust (r : Transformation) (f : Func) : Transformed :=
  let g := r f
  if _h : g.changed ∧ g.func.weight < f.weight then ⟨(exhaust r g.func).func, true⟩ else g
termination_by f.weight
decreasing_by exact _h.2

end Transformation

end FormCompiler
