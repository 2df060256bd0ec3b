import FormCompiler.Proofs.Generator
import FormCompiler.Proofs.Pass.Named

/-!
What turning a form into code leaves behind. A form that is refused leaves nothing, however far its
lowering had come; one that is accepted leaves its function, and declarations of functions it needs.
-/

namespace FormCompiler

theorem Transformation.Blind.name {r : Transformation} (h : r.Blind) (f : Func) :
    (r f).func.name = f.name :=
  congrArg (fun t : Transformed => t.func.name) (h f f.name)

/-- The unit has been given the function `name` and declarations of functions that the registry
knows; all else is as it was. -/
structure Registry.Introduces (r : Registry) (name : String) (u u' : CodeUnit) : Prop where
  frame : u'.name = u.name ∧ u'.layout = u.layout
  lowered : ∃ f, u'.get? name = some f ∧ f.name = name
  kept : ∀ other f, other ≠ name → u.get? other = some f → u'.get? other = some f
  declared : ∀ other f, other ≠ name → u.get? other = none → u'.get? other = some f →
    ∃ known s, r.signature? known = some s ∧ s.name = other ∧ f = { signature := s }

namespace Generator

variable {g : Generator} {p : Prototype} {body : List Stmt} {result : Option Expr}

theorem introduces_insert {s : Signature} {u : CodeUnit} {f : Func}
    (hu : g.registry.Redeclares (g.workUnit s) u) (hf : f.name = s.name) :
    g.registry.Introduces s.name g.unit (u.insert f) := by
  obtain ⟨hname, hlayout⟩ := redeclare_frame g.unit s
  have hother {other : String} (hne : other ≠ s.name) :
      (g.workUnit s).get? other = g.unit.get? other ∧ (u.insert f).get? other = u.get? other := by
    refine ⟨redeclare_get?_of_ne hne.symm, ?_⟩
    rw [CodeUnit.get?_insert, if_neg (hf ▸ hne.symm)]
  refine ⟨⟨hu.name.trans hname, hu.layout.trans hlayout⟩, ⟨f, ?_, hf⟩, ?_, ?_⟩
  · rw [CodeUnit.get?_insert, if_pos hf]
  · intro other f' hne hf'
    obtain ⟨hwork, hinsert⟩ := hother hne
    rw [hinsert]
    exact hu.get?_of_some (hwork.trans hf')
  · intro other f' hne hnone hf'
    obtain ⟨hwork, hinsert⟩ := hother hne
    rw [hinsert] at hf'
    exact hu.get?_of_none (hwork.trans hnone) hf'

theorem introduces_workUnit (g : Generator) (p : Prototype) :
    g.registry.Introduces p.name g.unit (g.workUnit p.signature) := by
  have hother {other : String} (hne : other ≠ p.name) :
      (g.workUnit p.signature).get? other = g.unit.get? other := redeclare_get?_of_ne hne.symm
  refine ⟨redeclare_frame g.unit p.signature, ?_, ?_, ?_⟩
  · obtain ⟨f, hf, hcase⟩ := redeclare_get? g.unit p.signature
    refine ⟨f, hf, ?_⟩
    rcases hcase with ⟨_, hsame⟩ | rfl
    · simp only [Signature.sameShape, Bool.and_eq_true, beq_iff_eq] at hsame
      exact hsame.1.1
    · rfl
  · intro other f hne hf
    rw [hother hne, hf]
  · intro other f hne hnone hf
    rw [hother hne, hnone] at hf
    cases hf

theorem finish_ok {level : OptLevel} {u : CodeUnit} {f f' : Func} {notes : List Note}
    (h : finish level u f = (.ok f', notes)) : f' = (Pass.runAll level.passes f).func := by
  unfold finish at h
  split at h
  · cases h
  · cases h
    rfl

theorem build_introduces (h : (g.build p body result).result = .ok ()) :
    ∃ unit, (g.build p body result).generator = { g with unit } ∧
      g.registry.Introduces p.name g.unit unit := by
  have hadds := Lower.adds_lowerBody ⟨g.registry, g.options.unsignedCompare⟩ p.signature body result
  unfold build at h ⊢
  simp only at h ⊢
  split
  next e work he =>
    simp only [he] at h
    cases h
  next work he =>
    have hwork := hadds.of_ok he
    simp only [he] at h
    split
    next e notes hf =>
      simp only [hf] at h
      cases h
    next f notes hf =>
      refine ⟨_, rfl, introduces_insert (s := p.signature) hwork.unit ?_⟩
      rw [finish_ok hf, (Pass.blind_runAll _).name, Func.name, hwork.signature]
      rfl

theorem declaration_introduces {d : Declaration} {name : String}
    (h : (g.declaration d).result = .ok (some name)) :
    name = d.name ∧ ∃ unit registry, (g.declaration d).generator = { g with unit, registry } ∧
      g.registry.Introduces name g.unit unit := by
  cases d with
  | variableOf type name' span => cases h
  | variableAs type name' init span => cases h
  | prototype p =>
    have hgenerator := prototype_ok h
    simp only [declaration, declarePrototype] at h
    split at h
    · cases h
    · cases h
      exact ⟨rfl, _, _, hgenerator, introduces_workUnit g p⟩
  | function p body result =>
    simp only [declaration, defineFunction] at h ⊢
    cases hw : g.checkRedefinition p true with
    | error e =>
      simp only [hw] at h
      cases h
    | ok warnings =>
      simp only [hw] at h
      cases hb : (g.build p body result).result with
      | error e =>
        simp only [hb] at h
        cases h
      | ok u =>
        obtain ⟨unit, hgenerator, hunit⟩ := build_introduces hb
        simp only [hb] at h ⊢
        cases h
        exact ⟨rfl, unit, _, by rw [hgenerator], hunit⟩

theorem anonymous_introduces {a : Anonymous} {name : String}
    (h : (g.anonymous a).result = .ok name) :
    name = a.proto.name ∧ ∃ unit, (g.anonymous a).generator = { g with unit } ∧
      g.registry.Introduces name g.unit unit := by
  simp only [anonymous] at h ⊢
  cases hb : (g.build a.proto [] (some a.expr)).result with
  | error e =>
    rw [hb] at h
    cases h
  | ok u =>
    rw [hb] at h
    cases h
    exact ⟨rfl, build_introduces hb⟩

/-- A form that is refused changes nothing, and one that is accepted nothing but its own function
and what is declared again for it. -/
theorem refused_or_introduces (g : Generator) :
    (∀ d e, (g.declaration d).result = .error e → (g.declaration d).generator = g) ∧
    (∀ d, (g.declaration d).result = .ok none → (g.declaration d).generator = g) ∧
    (∀ d name, (g.declaration d).result = .ok (some name) → name = d.name ∧
      ∃ unit registry, (g.declaration d).generator = { g with unit, registry } ∧
        g.registry.Introduces name g.unit unit) ∧
    (∀ a e, (g.anonymous a).result = .error e → (g.anonymous a).generator = g) ∧
    ∀ a name, (g.anonymous a).result = .ok name → name = a.proto.name ∧
      ∃ unit, (g.anonymous a).generator = { g with unit } ∧
        g.registry.Introduces name g.unit unit := by
  refine ⟨fun d e => declaration_error, ?_, fun d name => declaration_introduces,
    fun a e => anonymous_error, fun a name => anonymous_introduces⟩
  intro d h
  cases d with
  | variableOf type name span => rfl
  | variableAs type name init span => rfl
  | prototype p =>
    simp only [declaration] at h
    cases hp : (g.declarePrototype p).result with
    | error e => rw [hp] at h; cases h
    | ok name => rw [hp] at h; cases h
  | function p body result =>
    simp only [declaration] at h
    cases hp : (g.defineFunction p body result).result with
    | error e => rw [hp] at h; cases h
    | ok name => rw [hp] at h; cases h

def acquainted : Generator :=
  { start .host { level := .o0 } with
    registry := Registry.declare ∅ ⟨.int, "g", [], .nowhere⟩ }

def calling (callees : List String) : Declaration :=
  .function ⟨.int, "f", [], .nowhere⟩
    (callees.map fun callee => .expression (.call callee [] .int .nowhere)) none

theorem refused_or_introduces_calling :
    ((acquainted.declaration (calling ["g", "h"])).result =
        .error (.unknownFunction "h" .nowhere) ∧
      (acquainted.declaration (calling ["g", "h"])).generator = acquainted) ∧
    (acquainted.declaration (calling ["g"])).result = .ok (some "f") ∧
      acquainted.registry.Introduces "f" acquainted.unit
        (acquainted.declaration (calling ["g"])).generator.unit ∧
      ((acquainted.declaration (calling ["g"])).generator.unit.get? "g").isSome = true := by
  have hrefused : (acquainted.declaration (calling ["g", "h"])).result =
      .error (.unknownFunction "h" .nowhere) := by with_unfolding_all rfl
  have haccepted : (acquainted.declaration (calling ["g"])).result = .ok (some "f") := by
    with_unfolding_all rfl
  obtain ⟨herror, _, hsome, _, _⟩ := refused_or_introduces acquainted
  obtain ⟨_, unit, registry, hgenerator, hunit⟩ := hsome _ _ haccepted
  refine ⟨⟨hrefused, herror _ _ hrefused⟩, haccepted, ?_, by with_unfolding_all rfl⟩
  rw [hgenerator]
  exact hunit

end Generator

end FormCompiler
