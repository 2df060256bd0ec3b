import FormCompiler.Proofs.Session.Accept

namespace FormCompiler

def Generator.optimized (g : Generator) (f : Func) : Func :=
  (Pass.runAll g.options.level.passes f).func

theorem Generator.Builds.signature_optimized {g : Generator} {p : Prototype} {body : List Stmt}
    {result : Option Expr} {f : Func} {u : CodeUnit} (hb : g.Builds p body result f u) :
    (g.optimized f).signature = p.signature :=
  (hb.improves g.options.level).derives.signature.trans hb.signature

theorem Generator.Builds.name_optimized {g : Generator} {p : Prototype} {body : List Stmt}
    {result : Option Expr} {f : Func} {u : CodeUnit} (hb : g.Builds p body result f u) :
    (g.optimized f).name = p.name := congrArg Signature.name hb.signature_optimized

structure Generator.Makes (g : Generator) (p : Prototype) (body : List Stmt) (result : Option Expr)
    (f : Func) (u : CodeUnit) : Prop where
  builds : g.Builds p body result f u
  ok : (g.build p body result).result = .ok ()
  generator : (g.build p body result).generator = { g with unit := u.insert (g.optimized f) }

theorem Generator.exists_makes {g : Generator} (hr : g.registry.Keyed) {p : Prototype}
    {body : List Stmt} {result : Option Expr} (h : (g.build p body result).result = .ok ()) :
    ∃ f u, g.Makes p body result f u := by
  obtain ⟨f, u, hb, hgenerator⟩ := build_ok hr h
  exact ⟨f, u, hb, h, hgenerator⟩

theorem Generator.declaration_of_makes {g : Generator} {p : Prototype} {body : List Stmt}
    {result : Option Expr} {f : Func} {u : CodeUnit} {notes : List Note}
    (hc : g.checkRedefinition p true = .ok notes) (hm : g.Makes p body result f u) :
    (g.declaration (.function p body result)).result = .ok (some p.name) ∧
      (g.declaration (.function p body result)).generator =
        { g with unit := u.insert (g.optimized f), registry := g.registry.define p } := by
  simp only [declaration, defineFunction, hc, hm.ok, hm.generator]
  exact ⟨rfl, trivial⟩

theorem Generator.checkRedefinition_eq (g : Generator) (p : Prototype) (withBody : Bool) :
    g.checkRedefinition p withBody =
      if g.registry.isDefined p.name = false ∨ withBody = false ∧
          (g.registry.signature? p.name).any (·.sameShape p.signature) = true then .ok []
      else if g.options.allowRedefinition then .ok [.warn s!"redefining `{p.name}`"]
      else .error (.redefinition p.name) := by
  unfold checkRedefinition
  cases g.registry.isDefined p.name with
  | false => simp
  | true =>
    cases withBody with
    | true => simp
    | false => cases g.registry.signature? p.name <;> simp

namespace Session

structure Settled (s : Session) : Prop where
  ready : s.generator.Ready
  layout : s.generator.unit.layout = s.engine.layout

structure Unmoved (s s' : Session) : Prop where
  generator : s'.generator = s.generator
  engine : s'.engine = s.engine

structure Commits (s s' : Session) (registry : Registry) (fs : List Func) : Prop where
  generator : s'.generator = s.generator.fresh registry
  engine : s'.engine = s.engine.withBodies fs

inductive Declared (s s' : Session) : Declaration → Bool → Prop
  | refused {d : Declaration} {e : LowerError} :
      (s.generator.declaration d).result = .error e → s.Unmoved s' → Declared s s' d false
  | recorded {d : Declaration} : d.proto? = none → s.Unmoved s' → Declared s s' d true
  | prototype {p : Prototype} {notes : List Note} :
      s.generator.checkRedefinition p false = .ok notes →
      s.Commits s' (s.generator.registry.declare p) [] → Declared s s' (.prototype p) true
  | function {p : Prototype} {body : List Stmt} {result : Option Expr} {notes : List Note}
      {f : Func} {u : CodeUnit} : s.generator.checkRedefinition p true = .ok notes →
      s.generator.Builds p body result f u →
      s.Commits s' (s.generator.registry.define p) [s.generator.optimized f] →
      Declared s s' (.function p body result) true

inductive Evaluated (s s' : Session) (a : Anonymous) : Option Engine.Called → Prop
  | refused {e : LowerError} : (s.generator.anonymous a).result = .error e → s.Unmoved s' →
      Evaluated s s' a none
  | called {f : Func} {u : CodeUnit} : s.generator.Builds a.proto [] (some a.expr) f u →
      s.Commits s' s.generator.registry [s.generator.optimized f] →
      Evaluated s s' a (some (s'.invoke a.proto.name))

variable {s s' : Session}

namespace Settled

theorem countForm (h : s.Settled) : s.countForm.Settled := ⟨h.ready, h.layout⟩

theorem unmoved (h : s.Settled) (hs : s.Unmoved s') : s'.Settled :=
  ⟨hs.generator ▸ h.ready, by rw [hs.generator, hs.engine]; exact h.layout⟩

theorem commits (h : s.Settled) {registry : Registry} {fs : List Func} (hr : registry.Keyed)
    (hs : s.Commits s' registry fs) : s'.Settled := by
  refine ⟨hs.generator ▸ s.generator.ready_fresh hr, ?_⟩
  rw [hs.generator, hs.engine]
  exact h.layout

theorem start (e : Engine) (options : GeneratorOptions) (printCode : Bool) (stats : Stats) :
    Settled ⟨.start e.layout options, e, printCode, stats⟩ :=
  ⟨⟨fun name s hs => (by cases hs), fun _ => rfl⟩, rfl⟩

theorem commit_bare (h : s.Settled) (s' : Session) {p : Prototype}
    (hs : s'.generator = { s.generator.atLevel s.generator.options.level with
      unit := s.generator.workUnit p.signature, registry := s.generator.registry.declare p })
    (he : s'.engine = s.engine) : s'.commit.result = .ok () ∧
      s.Commits s'.commit.session (s.generator.registry.declare p) [] := by
  have hbodies := (h.ready.workUnit p.signature).bodies
  obtain ⟨hok, hgenerator, hengine⟩ := commit_ok hs
    (s.generator.workUnit_layout _) (he ▸ h.layout) fun f hf => by rw [hbodies] at hf; cases hf
  refine ⟨hok, hgenerator, ?_⟩
  rw [hengine, hbodies, he]

theorem commit_builds (h : s.Settled) (s' : Session) {p : Prototype} {body : List Stmt}
    {result : Option Expr} {f : Func} {u : CodeUnit}
    (hb : s.generator.Builds p body result f u) {registry : Registry}
    (hs : s'.generator = { s.generator.atLevel s.generator.options.level with
      unit := u.insert (s.generator.optimized f), registry }) (he : s'.engine = s.engine) :
    s'.commit.result = .ok () ∧
      s.Commits s'.commit.session registry [s.generator.optimized f] := by
  obtain ⟨hok, hadopts⟩ := commit_built h.ready hb hs (he ▸ h.layout)
  refine ⟨hok, hadopts.generator, ?_⟩
  rw [hadopts.engine, he]
  rfl

theorem declare_refused {d : Declaration} {e : LowerError}
    (he : (s.generator.declaration d).result = .error e) :
    (s.declare d).result = false ∧ s.Unmoved (s.declare d).session := by
  simp only [declare, he]
  exact ⟨trivial, Generator.declaration_error he, rfl⟩

theorem declare_prototype (h : s.Settled) {p : Prototype} {notes : List Note}
    (hc : s.generator.checkRedefinition p false = .ok notes) :
    (s.declare (.prototype p)).result = true ∧
      s.Commits (s.declare (.prototype p)).session (s.generator.registry.declare p) [] := by
  have hresult := Generator.prototype_accepted hc
  obtain ⟨hok, hcommits⟩ := h.commit_bare
    { s with generator := (s.generator.declaration (.prototype p)).generator }
    (Generator.prototype_ok hresult) rfl
  simp only [declare, hresult, hok]
  exact ⟨trivial, hcommits⟩

theorem declare_function (h : s.Settled) {p : Prototype} {body : List Stmt} {result : Option Expr}
    {notes : List Note} (hc : s.generator.checkRedefinition p true = .ok notes) {f : Func}
    {u : CodeUnit} (hm : s.generator.Makes p body result f u) :
    (s.declare (.function p body result)).result = true ∧
      s.Commits (s.declare (.function p body result)).session (s.generator.registry.define p)
        [s.generator.optimized f] := by
  obtain ⟨hresult, hgenerator⟩ := Generator.declaration_of_makes hc hm
  obtain ⟨hok, hcommits⟩ := h.commit_builds
    { s with generator := (s.generator.declaration (.function p body result)).generator } hm.builds
    hgenerator rfl
  simp only [declare, hresult, hok]
  exact ⟨trivial, hcommits⟩

theorem declared (h : s.Settled) (d : Declaration) :
    s.Declared (s.declare d).session d (s.declare d).result := by
  have hrefused {e : LowerError} (he : (s.generator.declaration d).result = .error e) :
      s.Declared (s.declare d).session d (s.declare d).result := by
    obtain ⟨hfalse, hs⟩ := declare_refused he
    rw [hfalse]
    exact .refused he hs
  cases d with
  | variableOf type name span => exact .recorded rfl ⟨rfl, rfl⟩
  | variableAs type name init span => exact .recorded rfl ⟨rfl, rfl⟩
  | prototype p =>
    cases hc : s.generator.checkRedefinition p false with
    | error e =>
      exact hrefused (Generator.prototype_refused hc)
    | ok notes =>
      obtain ⟨htrue, hs⟩ := h.declare_prototype hc
      rw [htrue]
      exact .prototype hc hs
  | function p body result =>
    cases hc : s.generator.checkRedefinition p true with
    | error e =>
      exact hrefused (Generator.function_refused hc)
    | ok notes =>
      cases hbuild : (s.generator.build p body result).result with
      | error e =>
        exact hrefused (Generator.function_unbuilt hc hbuild)
      | ok u =>
        obtain ⟨f, u, hm⟩ := Generator.exists_makes h.ready.registry hbuild
        obtain ⟨htrue, hs⟩ := h.declare_function hc hm
        rw [htrue]
        exact .function hc hm.builds hs

theorem evaluate_refused {a : Anonymous} {e : LowerError}
    (he : (s.generator.build a.proto [] (some a.expr)).result = .error e) :
    s.answer? a = none ∧ s.Unmoved (s.evaluate a).session := by
  have hresult : (s.generator.anonymous a).result = .error e := by
    simp only [Generator.anonymous, he]
    rfl
  simp only [evaluate, answer?, hresult]
  exact ⟨trivial, Generator.anonymous_error hresult, rfl⟩

theorem evaluate_function (h : s.Settled) {a : Anonymous} {f : Func} {u : CodeUnit}
    (hm : s.generator.Makes a.proto [] (some a.expr) f u) :
    s.answer? a = some ((s.evaluate a).session.invoke a.proto.name) ∧
      s.Commits (s.evaluate a).session s.generator.registry [s.generator.optimized f] := by
  have hresult : (s.generator.anonymous a).result = .ok a.proto.name := by
    simp only [Generator.anonymous, hm.ok]
    rfl
  obtain ⟨hok, hcommits⟩ := h.commit_builds
    { s with generator := (s.generator.anonymous a).generator } hm.builds hm.generator rfl
  simp only [evaluate, answer?, hresult, hok]
  split
  · exact ⟨rfl, hcommits.generator, hcommits.engine⟩
  · exact ⟨rfl, hcommits.generator, hcommits.engine⟩

theorem evaluated (h : s.Settled) (a : Anonymous) :
    s.Evaluated (s.evaluate a).session a (s.answer? a) := by
  cases hbuild : (s.generator.build a.proto [] (some a.expr)).result with
  | error e =>
    obtain ⟨hnone, hs⟩ := evaluate_refused hbuild
    rw [hnone]
    exact .refused (by simp only [Generator.anonymous, hbuild]; rfl) hs
  | ok u =>
    obtain ⟨f, u, hm⟩ := Generator.exists_makes h.ready.registry hbuild
    obtain ⟨hanswer, hs⟩ := h.evaluate_function hm
    rw [hanswer]
    exact .called hm.builds hs

theorem of_declared (h : s.Settled) {d : Declaration} {accepted : Bool}
    (hd : s.Declared s' d accepted) : s'.Settled := by
  cases hd with
  | refused _ hs => exact h.unmoved hs
  | recorded _ hs => exact h.unmoved hs
  | prototype _ hs => exact h.commits (h.ready.registry.insert _ _) hs
  | function _ _ hs => exact h.commits (h.ready.registry.insert _ _) hs

theorem of_evaluated (h : s.Settled) {a : Anonymous} {answer : Option Engine.Called}
    (ha : s.Evaluated s' a answer) : s'.Settled := by
  cases ha with
  | refused _ hs => exact h.unmoved hs
  | called _ hs => exact h.commits h.ready.registry hs

theorem turn (h : s.Settled) (p : Parser) : (s.turn p).session.Settled := by
  rw [turn_eq]
  cases p.reading with
  | nothing => exact h
  | broken => exact h.unmoved ⟨rfl, rfl⟩
  | ending => exact h
  | faulty => exact h.unmoved ⟨rfl, rfl⟩
  | declaration d => exact h.countForm.of_declared (h.countForm.declared d)
  | expression a => exact h.countForm.of_evaluated (h.countForm.evaluated a)

end Settled

end Session

end FormCompiler
