import FormCompiler.Pass.Basic

/-!
Control-flow simplification: branches on constants become jumps, blocks that cannot be reached go,
phis with one value are replaced by it, and a block that is jumped to from one place only is joined
to that place.
-/

namespace FormCompiler.ControlFlow

def decided? : Option Terminator → Option (Nat × Nat)
  | some (.condBr (.const (.i1 taken)) whenTrue whenFalse) =>
    some (if taken then (whenTrue, whenFalse) else (whenFalse, whenTrue))
  | _ => none

def settleBranch (b : Block) : Block :=
  match decided? b.terminator with
  | some (target, _) => { b with terminator := some (.br target) }
  | none => b

def droppedEdges (f : Func) : List (Nat × Nat) :=
  f.blocks.filterMap fun b => do
    let (target, other) ← decided? b.terminator
    if other = target then none else some (b.id, other)

def withoutEdgesFrom (ids : List Nat) (b : Block) : Block :=
  b.mapEdges (·.filter fun e => !ids.contains e.2)

/-- Turns branches on constants into jumps. A branch with one target only counts as no change. -/
def decideBranches : Transformation := fun f =>
  let dropped := droppedEdges f
  let g := dropped.foldl (fun g e => g.updateBlock e.2 (withoutEdgesFrom [e.1]))
    (f.mapBlocks settleBranch)
  ⟨g, !dropped.isEmpty⟩

def reachOut (f : Func) (ids : List Nat) : List Nat :=
  ids ++ ((ids.flatMap fun id => ((f.block? id).map Block.successors).getD []).eraseDups.filter
    (!ids.contains ·))

def reachIn (f : Func) : Nat → List Nat → List Nat
  | 0, ids => ids
  | n + 1, ids => reachIn f n (reachOut f ids)

def reachable (f : Func) : List Nat := reachIn f f.blocks.length f.entry?.toList

def dropUnreachable : Transformation := fun f =>
  let alive := reachable f
  let dead := (f.blocks.map Block.id).filter (!alive.contains ·)
  if f.blocks.isEmpty || dead.isEmpty then ⟨f, false⟩
  else
    let kept := { f with blocks := f.blocks.filter fun b => alive.contains b.id }
    ⟨kept.mapBlocks (withoutEdgesFrom dead), true⟩

/-- The operand that a phi always gives, unless that is the phi itself. -/
def trivial? (i : Instruction) : Option Operand :=
  match i.op with
  | .phi _ ((first, block) :: rest) =>
    if ((first, block) :: rest).all (fun e => e.1.agrees first) && first != .value i.dst then
      some first
    else none
  | _ => none

/-- Removes the phis that always give one operand, and uses it in their place, one phi after
another. -/
def collapsePhis : Transformation := fun f =>
  let found := f.instructions.filterMap fun i => (trivial? i).map fun o => (i.dst, o)
  let kept := f.filterInstructions fun i => (trivial? i).isNone
  ⟨found.foldl (fun g e => g.replaceUses e.1 e.2) kept, !found.isEmpty⟩

/-- The block that `b` may be joined with: it jumps there, nothing else leads there, and no phi
asks where control came from. -/
def joinable? (f : Func) (b : Block) : Option (Nat × Nat) :=
  match b.terminator with
  | some (.br target) => do
    let next ← f.block? target
    if target == b.id || f.entry? == some target || next.instructions.any (·.op.isPhi)
      || f.predecessors target != [b.id] then none
    else some (b.id, target)
  | _ => none

def retarget (old new : Nat) (b : Block) : Block :=
  b.mapEdges (·.map fun e => if e.2 = old then (e.1, new) else e)

def eraseBlock (id : Nat) : List Block → List Block
  | [] => []
  | b :: bs => if b.id = id then bs else b :: eraseBlock id bs

def join (f : Func) (id next : Nat) : Func :=
  match f.block? next with
  | none => f
  | some b =>
    let shorter := { f with blocks := eraseBlock next f.blocks }
    let joined := shorter.updateBlock id fun a =>
      { a with instructions := a.instructions ++ b.instructions, terminator := b.terminator }
    b.successors.foldl (fun g s => g.updateBlock s (retarget next id)) joined

def joinOnce : Transformation := fun f =>
  match f.blocks.findSome? (joinable? f) with
  | none => ⟨f, false⟩
  | some (id, next) => ⟨join f id next, true⟩

def joinBlocks : Transformation := Transformation.exhaust joinOnce

def round : Transformation :=
  decideBranches.andThen (dropUnreachable.andThen (collapsePhis.andThen joinBlocks))

def run : Transformation := Transformation.exhaust round

end FormCompiler.ControlFlow
