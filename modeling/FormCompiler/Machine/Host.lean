import FormCompiler.Machine.Fault

namespace FormCompiler

structure HostFunction where
  arity : Nat
  result : List Float → Float
  output : List Float → String := fun _ => ""

structure HostCall where
  name : String
  args : List Float
  result : Float
  output : String

abbrev HostTable := Table HostFunction

namespace HostFunction

def unary (f : Float → Float) : HostFunction := ⟨1, fun args => f (args.headD 0.0), fun _ => ""⟩

def charText (x : Float) : String :=
  let code := x.toUInt32.toNat
  if code.isValidChar then (Char.ofNat code).toString else ""

def putChar : HostFunction := ⟨1, fun _ => 0.0, fun args => charText (args.headD 0.0)⟩

def signature (h : HostFunction) (name : String) : Signature :=
  ⟨name, (List.range h.arity).map fun i => (s!"x{i}", .f64), .f64⟩

end HostFunction

namespace HostTable

def standard : HostTable :=
  [("sqrt", HostFunction.unary Float.sqrt), ("sin", .unary Float.sin), ("cos", .unary Float.cos),
   ("exp", .unary Float.exp), ("log", .unary Float.log), ("fabs", .unary Float.abs),
   ("floor", .unary Float.floor), ("putchard", .putChar)].foldl
    (fun table e => table.insert e.1 e.2) ∅

def names (t : HostTable) : List String := t.keys.mergeSort

def signature? (t : HostTable) (name : String) : Option Signature :=
  (t.get? name).map (·.signature name)

def doubles (name : String) : List Value → Except Fault (List Float)
  | [] => .ok []
  | .of (.f64 x) :: rest => do return x :: (← doubles name rest)
  | other :: _ => .error (.misfit name (.hostArgument other.type))

def call (t : HostTable) (name : String) (args : List Value) : Except Fault HostCall :=
  match t.get? name with
  | none => .error (.unresolved name)
  | some h => do
    if args.length ≠ h.arity then throw (.arity name h.arity args.length)
    let xs ← doubles name args
    return ⟨name, xs, h.result xs, h.output xs⟩

end HostTable

end FormCompiler
