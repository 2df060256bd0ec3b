import FormCompiler.Machine.Fault

namespace FormCompiler

/-- `block`, `previous` and `pc` say where the call is and where it came from, `returnTo` which
value of the caller waits for its result. Arguments and values may be anything that constants
are. -/
structure Frame (α : Type) where
  func : Func
  args : List α
  values : Array (Option α) := #[]
  block : Nat := 0
  previous : Option Nat := none
  pc : Nat := 0
  returnTo : Option Nat := none

namespace Frame

variable {α : Type}

def find? (frame : Frame α) (ofConst : Const → α) : Operand → Option α
  | .const c => some (ofConst c)
  | .param index => frame.args[index]?
  | .value id => (frame.values[id]?).join

def get (frame : Frame α) (ofConst : Const → α) (o : Operand) : Except Fault α :=
  match frame.find? ofConst o with
  | some a => .ok a
  | none => .error (.misfit frame.func.name (.noValue o))

def set (frame : Frame α) (id : Nat) (a : α) : Frame α :=
  let room := frame.values ++ Array.replicate (id + 1 - frame.values.size) none
  { frame with values := room.setIfInBounds id (some a) }

def jump (frame : Frame α) (target : Nat) : Frame α :=
  { frame with previous := some frame.block, block := target, pc := 0 }

end Frame

end FormCompiler
