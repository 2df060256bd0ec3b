import FormCompiler.Code.Arith
import FormCompiler.Machine.Frame
import FormCompiler.Machine.Host

/-!
The machine that runs code: a stack of frames, the innermost call first. A call of committed code
puts a frame on the stack, a call of a host function is done at once.
-/

namespace FormCompiler

/-- What calls are resolved by. At most `depth` frames may be active. -/
structure Program where
  code : Table Func := ∅
  host : HostTable := HostTable.standard
  depth : Nat := 512

structure Machine where
  stack : List (Frame Const) := []
  calls : List HostCall := []

structure Outcome where
  result : Except Fault (Option Const)
  calls : List HostCall

inductive Progress
  | running (machine : Machine)
  | halted (outcome : Outcome)

namespace Machine

def halt (m : Machine) (result : Except Fault (Option Const)) : Progress :=
  .halted ⟨result, m.calls⟩

def proceed {α : Type} (m : Machine) (action : Except Fault α) (next : α → Progress) : Progress :=
  match action with
  | .ok a => next a
  | .error fault => m.halt (.error fault)

def checkArgs (f : Func) (args : List Const) : Except Fault Unit :=
  if args.length ≠ f.signature.params.length then
    .error (.arity f.name f.signature.params.length args.length)
  else
    (args.zip f.signature.params).forM fun (arg, name, type) =>
      if arg.type = type then .ok () else .error (.misfit f.name (.argument name type))

/-- A frame for the call of `f`; the arguments are looked at before the depth. -/
def enter (p : Program) (m : Machine) (f : Func) (args : List Const) (returnTo : Option Nat) :
    Except Fault Machine := do
  checkArgs f args
  if m.stack.length < p.depth then
    return { m with stack := { func := f, args, returnTo } :: m.stack }
  else throw (.tooDeep f.name p.depth)

def deliver (m : Machine) (id : Nat) (c : Const) : Machine :=
  match m.stack with
  | [] => m
  | frame :: rest => { m with stack := frame.set id c :: rest }

def call (p : Program) (m : Machine) (dst : Nat) (callee : String) (args : List Const) : Progress :=
  match p.code.get? callee with
  | some f => m.proceed (m.enter p f args (some dst)) .running
  | none => m.proceed (p.host.call callee (args.map Value.of)) fun h =>
    .running ({ m with calls := h :: m.calls }.deliver dst (.f64 h.result))

def value (frame : Frame Const) (dst : Nat) (op : Operation) : Except Fault Const :=
  match op with
  | .compute c => c.run (frame.get id) fun
    | .divisionByZero => .divisionByZero frame.func.name
    | .mismatch => .misfit frame.func.name (.badOperands dst)
  | .phi _ incoming =>
    match incoming.find? fun e => some e.2 == frame.previous with
    | some (o, _) => frame.get id o
    | none => .error (.misfit frame.func.name .missingEdge)
  | .call .. => .error (.misfit frame.func.name (.badOperands dst))

def instruction (p : Program) (frame : Frame Const) (rest : List (Frame Const))
    (calls : List HostCall) (i : Instruction) : Progress :=
  let frame := { frame with pc := frame.pc + 1 }
  let m : Machine := ⟨frame :: rest, calls⟩
  match i.op with
  | .call callee args _ => m.proceed (args.mapM (frame.get id)) (m.call p i.dst callee)
  | op => m.proceed (value frame i.dst op) fun c => .running (m.deliver i.dst c)

def return? (frame : Frame Const) (rest : List (Frame Const)) (calls : List HostCall)
    (result : Option Const) : Progress :=
  let m : Machine := ⟨rest, calls⟩
  match rest, frame.returnTo, result with
  | [], _, _ => m.halt (.ok result)
  | _, some dst, some c => .running (m.deliver dst c)
  | _, _, _ => .running m

def leave (frame : Frame Const) (rest : List (Frame Const)) (calls : List HostCall) (b : Block) :
    Progress :=
  let m : Machine := ⟨frame :: rest, calls⟩
  let goto (target : Nat) : Progress := .running ⟨frame.jump target :: rest, calls⟩
  match b.terminator with
  | none => m.halt (.error (.misfit frame.func.name (.missingTerminator b.label)))
  | some (.ret none) => return? frame rest calls none
  | some (.ret (some o)) => m.proceed (frame.get id o) fun c => return? frame rest calls (some c)
  | some (.br target) => goto target
  | some (.condBr condition whenTrue whenFalse) => m.proceed (frame.get id condition) fun
    | .i1 true => goto whenTrue
    | .i1 false => goto whenFalse
    | other => m.halt (.error (.misfit frame.func.name (.branchOn other)))

def step (p : Program) (m : Machine) : Progress :=
  match m.stack with
  | [] => m.halt (.ok none)
  | frame :: rest =>
    match frame.func.block? frame.block with
    | none => m.halt (.error (.misfit frame.func.name (.missingBlock frame.block)))
    | some b =>
      match b.instructions[frame.pc]? with
      | some i => instruction p frame rest m.calls i
      | none => leave frame rest m.calls b

def run (p : Program) : Nat → Machine → Option Outcome
  | 0, _ => none
  | fuel + 1, m =>
    match m.step p with
    | .running m => run p fuel m
    | .halted outcome => some outcome

end Machine

def Program.call (p : Program) (fuel : Nat) (name : String) (args : List Const) : Option Outcome :=
  match p.code.get? name with
  | some f =>
    match Machine.enter p {} f args none with
    | .ok m => m.run p fuel
    | .error fault => some ⟨.error fault, []⟩
  | none =>
    match p.host.call name (args.map Value.of) with
    | .ok h => some ⟨.ok (some (.f64 h.result)), [h]⟩
    | .error fault => some ⟨.error fault, []⟩

end FormCompiler
