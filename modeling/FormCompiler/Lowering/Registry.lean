import FormCompiler.Code.Func
import FormCompiler.Form
import FormCompiler.Note

namespace FormCompiler

def Prototype.signature (p : Prototype) : Signature :=
  ⟨p.name, p.params.map fun q => (q.name, .ofTy q.type), .ofTy p.returns⟩

structure Registered where
  proto : Prototype
  isDefined : Bool
  deriving DecidableEq

abbrev Registry := Table Registered

namespace Registry

def isDefined (r : Registry) (name : String) : Bool :=
  match r.get? name with
  | some known => known.isDefined
  | none => false

def declare (r : Registry) (p : Prototype) : Registry :=
  r.insert p.name ⟨p, r.isDefined p.name⟩

def define (r : Registry) (p : Prototype) : Registry := r.insert p.name ⟨p, true⟩

def signature? (r : Registry) (name : String) : Option Signature :=
  (r.get? name).map (·.proto.signature)

/-- The signature of a function known to the unit or else to the registry. In the second case the
unit is given a declaration of it. -/
def resolve (r : Registry) (u : CodeUnit) (name : String) :
    Option Signature × CodeUnit × List Note :=
  match u.get? name with
  | some f => (some f.signature, u, [])
  | none =>
    match r.signature? name with
    | some s => (some s, u.declare s, [.trace s!"re-declaring `{name}` from the registry"])
    | none => (none, u, [])

end Registry

end FormCompiler
