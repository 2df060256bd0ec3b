import FormCompiler.Code.Verify
import FormCompiler.Machine.Basic
import FormCompiler.Note

namespace FormCompiler

/-- A call that takes more than `steps` steps is given up. -/
structure Engine where
  layout : DataLayout := .host
  program : Program := {}
  steps : Nat := 0x4000000000000000

namespace Engine

def ofDepth (depth : Nat) : Engine := { program := { depth } }

structure Called where
  result : Except Fault Value
  calls : List HostCall

def commit (e : Engine) (u : CodeUnit) : Except Fault Nat × Engine × List Note :=
  if u.layout ≠ e.layout then (.error (.layout u.name e.layout u.layout), e, [])
  else
    match u.bodies.forM fun f => f.verify u with
    | .error error => (.error (.invalid error), e, [])
    | .ok () =>
      let code := u.bodies.foldl (fun code f => code.insert f.name f) e.program.code
      let count := u.bodies.length
      (.ok count, { e with program := { e.program with code } },
        u.bodies.map (fun f => .trace s!"committing `{f.name}`") ++
          [.debug s!"unit {u.name}: committed {count} function(s)"])

def committed (e : Engine) : Nat := e.program.code.size

def constants (name : String) (args : List Value) : Except Fault (List Const) :=
  args.mapM fun arg => match arg with
    | .of c => .ok c
    | .void => .error (.misfit name .voidArgument)

def call (e : Engine) (name : String) (args : List Value) : Called :=
  match constants name args with
  | .error fault => ⟨.error fault, []⟩
  | .ok args =>
    match e.program.call e.steps name args with
    | none => ⟨.error (.tooLong e.steps), []⟩
    | some outcome => ⟨outcome.result.map Value.ofConst?, outcome.calls.reverse⟩

def lookup? (e : Engine) (name : String) : Option Signature :=
  match e.program.code.get? name with
  | some f => some f.signature
  | none => e.program.host.signature? name

def callAs (e : Engine) (s : Signature) (args : List Value) : Called :=
  if args.length ≠ s.params.length then
    ⟨.error (.arity s.name s.params.length args.length), []⟩
  else e.call s.name args

end Engine

end FormCompiler
