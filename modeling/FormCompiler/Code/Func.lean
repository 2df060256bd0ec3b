import FormCompiler.Code.Instruction
import FormCompiler.Table

namespace FormCompiler

structure Block where
  id : Nat
  label : String
  instructions : List Instruction := []
  terminator : Option Terminator := none
  deriving DecidableEq

namespace Block

def successors (b : Block) : List Nat :=
  match b.terminator with
  | some t => t.successors
  | none => []

def mapOperands (f : Operand → Operand) (b : Block) : Block :=
  { b with
    instructions := b.instructions.map (·.mapOperands f)
    terminator := b.terminator.map (·.mapOperands f) }

def mapEdges (f : List (Operand × Nat) → List (Operand × Nat)) (b : Block) : Block :=
  { b with instructions := b.instructions.map (·.mapEdges f) }

def operands (b : Block) : List Operand :=
  b.instructions.flatMap Instruction.operands ++ (b.terminator.map Terminator.operands).getD []

def update (id : Nat) (change : Block → Block) : List Block → List Block
  | [] => []
  | b :: bs => if b.id = id then change b :: bs else b :: update id change bs

end Block

structure Signature where
  name : String
  params : List (String × NativeType)
  returns : NativeType
  deriving DecidableEq

namespace Signature

def paramTypes (s : Signature) : List NativeType := s.params.map Prod.snd

def sameShape (s t : Signature) : Bool :=
  s.name == t.name && s.returns == t.returns && s.paramTypes == t.paramTypes

end Signature

/-- A function, or, without blocks, the declaration of one. `types` are those of its values, by
number. -/
structure Func where
  signature : Signature
  blocks : List Block := []
  types : List NativeType := []
  deriving DecidableEq

namespace Func

def name (f : Func) : String := f.signature.name

def isDeclaration (f : Func) : Bool := f.blocks.isEmpty

def entry? (f : Func) : Option Nat := f.blocks.head?.map Block.id

def block? (f : Func) (id : Nat) : Option Block := f.blocks.find? (·.id == id)

def updateBlock (f : Func) (id : Nat) (change : Block → Block) : Func :=
  { f with blocks := Block.update id change f.blocks }

def mapBlocks (f : Func) (change : Block → Block) : Func := { f with blocks := f.blocks.map change }

def operandType? (f : Func) : Operand → Option NativeType
  | .const c => some c.type
  | .param index => f.signature.paramTypes[index]?
  | .value id => f.types[id]?

def predecessors (f : Func) (id : Nat) : List Nat :=
  (f.blocks.filter (·.successors.contains id)).map Block.id

def instructions (f : Func) : List Instruction := f.blocks.flatMap Block.instructions

def instructionCount (f : Func) : Nat := f.instructions.length

end Func

structure DataLayout where
  littleEndian : Bool
  pointerBits : Nat
  deriving DecidableEq

namespace DataLayout

def host : DataLayout := ⟨true, 64⟩

def text (l : DataLayout) : String :=
  let endian := if l.littleEndian then "e" else "E"
  s!"{endian}-p:{l.pointerBits}:{l.pointerBits}-i32:32-f64:64"

end DataLayout

structure CodeUnit where
  name : String
  layout : DataLayout
  funcs : Table Func := ∅

namespace CodeUnit

def get? (u : CodeUnit) (name : String) : Option Func := u.funcs.get? name

def contains (u : CodeUnit) (name : String) : Bool := u.funcs.contains name

def insert (u : CodeUnit) (f : Func) : CodeUnit := { u with funcs := u.funcs.insert f.name f }

def erase (u : CodeUnit) (name : String) : CodeUnit := { u with funcs := u.funcs.erase name }

def declare (u : CodeUnit) (s : Signature) : CodeUnit :=
  if u.contains s.name then u else u.insert { signature := s }

def restore (u : CodeUnit) (funcs : Table Func) : CodeUnit := { u with funcs }

def size (u : CodeUnit) : Nat := u.funcs.size

def bodies (u : CodeUnit) : List Func := u.funcs.values.filter (!·.isDeclaration)

end CodeUnit

end FormCompiler
