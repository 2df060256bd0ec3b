import FormCompiler.Code.Func

namespace FormCompiler

structure Builder where
  func : Func
  current : Nat

namespace Builder

def start (signature : Signature) : Builder :=
  ⟨{ signature, blocks := [{ id := 0, label := "entry" }] }, 0⟩

def currentBlock? (b : Builder) : Option Block := b.func.blocks[b.current]?

def isTerminated (b : Builder) : Bool :=
  match b.currentBlock? with
  | some block => block.terminator.isSome
  | none => false

def appendBlock (b : Builder) (label : String) : Nat × Builder :=
  let id := b.func.blocks.length
  let block : Block := { id, label := s!"{label}{id}" }
  (id, { b with func := { b.func with blocks := b.func.blocks ++ [block] } })

def moveTo (b : Builder) (id : Nat) : Builder := { b with current := id }

def changeCurrent (b : Builder) (change : Block → Block) : Builder :=
  { b with func := { b.func with blocks := b.func.blocks.modify b.current change } }

def emit (b : Builder) (op : Operation) : Operand × Builder :=
  let dst := b.func.types.length
  let grown := b.changeCurrent fun block =>
    { block with instructions := block.instructions ++ [⟨dst, op⟩] }
  (.value dst, { grown with func := { grown.func with types := b.func.types ++ [op.type] } })

def terminate (b : Builder) (t : Terminator) : Builder :=
  b.changeCurrent fun block => { block with terminator := block.terminator.or (some t) }

def emitNotes (b : Builder) : List Note :=
  match b.currentBlock? with
  | some block =>
    if block.terminator.isSome then
      [.debug s!"emitting into terminated block {block.label}"]
    else []
  | none => []

def terminateNotes (b : Builder) : List Note :=
  match b.currentBlock? with
  | some block =>
    if block.terminator.isSome then [.debug s!"block {block.label} already terminated"] else []
  | none => []

end Builder

end FormCompiler
