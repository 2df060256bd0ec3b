import FormCompiler.Lowering.Basic
import FormCompiler.Pass.Pipeline

namespace FormCompiler

structure GeneratorOptions where
  level : OptLevel := .o1
  unsignedCompare : Bool := false
  allowRedefinition : Bool := false

structure Generator where
  unit : CodeUnit
  registry : Registry
  options : GeneratorOptions
  created : Nat

namespace Generator

def unitName (n : Nat) : String := s!"yapl.{n}"

def start (layout : DataLayout) (options : GeneratorOptions) : Generator :=
  ⟨{ name := unitName 0, layout }, ∅, options, 1⟩

structure Reply (α : Type) where
  result : α
  generator : Generator
  notes : List Note

def takeUnit (g : Generator) : Reply CodeUnit :=
  let next := unitName g.created
  ⟨g.unit, { g with unit := { name := next, layout := g.unit.layout }, created := g.created + 1 },
    [.debug s!"rotating unit {g.unit.name} -> {next}"]⟩

def checkRedefinition (g : Generator) (p : Prototype) (withBody : Bool) :
    Except LowerError (List Note) :=
  if !g.registry.isDefined p.name then .ok []
  else
    let same := match g.registry.signature? p.name with
      | some known => known.sameShape p.signature
      | none => false
    if !withBody && same then .ok []
    else if g.options.allowRedefinition then .ok [.warn s!"redefining `{p.name}`"]
    else .error (.redefinition p.name)

def dropStale (u : CodeUnit) (s : Signature) : CodeUnit × List Note :=
  match u.get? s.name with
  | some f =>
    if f.signature.sameShape s then (u, [])
    else (u.erase s.name, [.debug s!"replacing stale declaration of `{s.name}`"])
  | none => (u, [])

def redeclare (u : CodeUnit) (s : Signature) : CodeUnit × List Note :=
  let (u, notes) := dropStale u s
  (u.declare s, notes)

def signature? (g : Generator) (name : String) : Reply (Option Signature) :=
  let (signature, unit, notes) := g.registry.resolve g.unit name
  ⟨signature, { g with unit }, notes⟩

def declarePrototype (g : Generator) (p : Prototype) : Reply (Except LowerError String) :=
  match g.checkRedefinition p false with
  | .error e => ⟨.error e, g, []⟩
  | .ok warnings =>
    let (unit, notes) := redeclare g.unit p.signature
    ⟨.ok p.name, { g with unit, registry := g.registry.declare p },
      warnings ++ notes ++ [.debug s!"declared `{p.name}`"]⟩

def finish (level : OptLevel) (u : CodeUnit) (f : Func) :
    Except LowerError Func × List Note :=
  match f.verify u with
  | .error e => (.error (.invalid e), [])
  | .ok () =>
    let optimized := Pass.runAll level.passes f
    let changed := if optimized.changed then [.trace s!"passes changed `{f.name}`"] else []
    (.ok optimized.func, Pass.notes level.passes f.name ++ changed)

/-- Builds a function into the unit. The function is declared first, so that it may call itself. If
anything fails, the functions that the unit held before are put back. -/
def build (g : Generator) (p : Prototype) (body : List Stmt) (result : Option Expr) :
    Reply (Except LowerError Unit) :=
  let s := p.signature
  let (unit, stale) := redeclare g.unit s
  let params := s.params.zipIdx.foldl (fun names e => names.insert e.1.1 (.param e.2)) ∅
  let discarded (e : LowerError) (unit : CodeUnit) (notes : List Note) :
      Reply (Except LowerError Unit) :=
    ⟨.error e, { g with unit := unit.restore g.unit.funcs },
      notes ++ [.debug s!"discarding `{p.name}`: {e.message}"]⟩
  let env : LowerEnv := ⟨g.registry, g.options.unsignedCompare⟩
  match lowerBody env s body result ⟨unit, .start s, params, stale.toArray⟩ with
  | .error e work => discarded e work.unit work.notes.toList
  | .ok () work =>
    match finish g.options.level work.unit work.builder.func with
    | (.error e, notes) => discarded e work.unit (work.notes.toList ++ notes)
    | (.ok f, notes) =>
      ⟨.ok (), { g with unit := work.unit.insert f }, work.notes.toList ++ notes⟩

def defineFunction (g : Generator) (p : Prototype) (body : List Stmt) (result : Option Expr) :
    Reply (Except LowerError String) :=
  match g.checkRedefinition p true with
  | .error e => ⟨.error e, g, []⟩
  | .ok warnings =>
    let r := g.build p body result
    match r.result with
    | .error e => ⟨.error e, r.generator, warnings ++ r.notes⟩
    | .ok () =>
      ⟨.ok p.name, { r.generator with registry := r.generator.registry.define p },
        warnings ++ r.notes ++ [.debug s!"defined `{p.name}`"]⟩

def declaration (g : Generator) : Declaration → Reply (Except LowerError (Option String))
  | .prototype p =>
    let r := g.declarePrototype p
    ⟨r.result.map some, r.generator, r.notes⟩
  | .function p body result =>
    let r := g.defineFunction p body result
    ⟨r.result.map some, r.generator, r.notes⟩
  | .variableOf _ name _ | .variableAs _ name _ _ =>
    ⟨.ok none, g, [.debug s!"global `{name}` recorded, not materialized"]⟩

def anonymous (g : Generator) (a : Anonymous) : Reply (Except LowerError String) :=
  let r := g.build a.proto [] (some a.expr)
  ⟨r.result.map fun _ => a.proto.name, r.generator, r.notes⟩

end Generator

end FormCompiler
