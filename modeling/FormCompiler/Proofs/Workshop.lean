import FormCompiler.Proofs.Generator

/-!
Forms are accepted and units are committed, in any order. Whatever was done, calls of the committed
code give what the committed definitions mean.
-/

namespace FormCompiler

inductive Step
  | declare (decl : Declaration)
  | evaluate (expr : Expr) (counter : Nat)
  | commit

/-- A generator and the engine that its units are committed to. `drafts` are the definitions the
generator has accepted, `sources` those whose code is committed. -/
structure Workshop where
  generator : Generator
  engine : Engine
  drafts : Table Definition := ∅
  sources : Table Definition := ∅

namespace Workshop

def start (options : GeneratorOptions) (host : HostTable) (depth : Nat) : Workshop where
  generator := .start .host options
  engine := { program := { host, depth } }

def draft (w : Workshop) (p : Prototype) (body : List Stmt) (result : Option Expr) :
    Table Definition :=
  w.drafts.insert p.name ⟨p.signature, body, result, w.generator.knownTo p.signature⟩

def declare (w : Workshop) (d : Declaration) : Workshop :=
  let r := w.generator.declaration d
  let drafts := match r.result, d with
    | .ok _, .function p body result => w.draft p body result
    | _, _ => w.drafts
  { w with generator := r.generator, drafts }

def evaluate (w : Workshop) (a : Anonymous) : Workshop :=
  let r := w.generator.anonymous a
  let drafts := match r.result with
    | .ok _ => w.draft a.proto [] (some a.expr)
    | .error _ => w.drafts
  { w with generator := r.generator, drafts }

def commit (w : Workshop) : Workshop :=
  let taken := w.generator.takeUnit
  let committed := w.engine.commit taken.result
  let sources := match committed.1 with
    | .ok _ => taken.result.bodies.foldl (fun t f => t.set f.name (w.drafts.get? f.name)) w.sources
    | .error _ => w.sources
  { w with generator := taken.generator, engine := committed.2.1, sources }

def act (w : Workshop) : Step → Workshop
  | .declare d => w.declare d
  | .evaluate e counter => w.evaluate (.wrap e counter)
  | .commit => w.commit

def run (w : Workshop) (steps : List Step) : Workshop := steps.foldl act w

def meaning (w : Workshop) : Meaning :=
  ⟨w.sources, w.engine.program.host, w.engine.program.depth, w.generator.options.unsignedCompare⟩

structure Sound (w : Workshop) : Prop where
  level : w.generator.options.level = .o0
  tidy : w.generator.Tidy
  bodies : ∀ name f, w.generator.unit.get? name = some f → f.isDeclaration = false →
    ∃ d, w.drafts.get? name = some d ∧ d.Compiles w.generator.options.unsignedCompare f
  committed : w.meaning.Compiles w.engine.program

theorem sound_start {options : GeneratorOptions} (h : options.level = .o0) (host : HostTable)
    (depth : Nat) : (start options host depth).Sound := by
  refine ⟨h, Generator.tidy_start _ _, ?_, rfl, rfl, ?_, ?_⟩
  · intro name f hf
    cases hf
  · intro name d hd
    cases hd
  · intro name _
    rfl

namespace Sound

variable {w : Workshop}

theorem build (h : w.Sound) {p : Prototype} {body : List Stmt} {result : Option Expr} {f : Func}
    {u : CodeUnit} (hb : w.generator.Builds p body result f u)
    (hvoid : result = none → p.signature.returns ≠ .void) {registry : Registry}
    (hr : registry.Keyed) :
    Sound { w with
      generator := { w.generator with
        unit := u.insert (Pass.runAll w.generator.options.level.passes f).func, registry }
      drafts := w.draft p body result } := by
  have hf : Definition.Compiles ⟨p.signature, body, result, w.generator.knownTo p.signature⟩
      w.generator.options.unsignedCompare f := ⟨hvoid, hb.lowered⟩
  have hname : f.name = p.name := congrArg Signature.name hf.signature
  have hpasses : (Pass.runAll w.generator.options.level.passes f).func = f := by rw [h.level]; rfl
  rw [hpasses]
  refine ⟨h.level, h.tidy.insert hb hr f, ?_, h.committed⟩
  · intro name f' hf' hbody
    simp only [CodeUnit.get?_insert, hname] at hf'
    split at hf'
    next he =>
      cases hf'
      exact ⟨_, by simp [draft, he], hf⟩
    next he =>
      have hu := (h.tidy.declared hb.declares hf').2 hbody
      obtain ⟨d, hd, hc⟩ := h.bodies name f' hu hbody
      exact ⟨d, by simp [draft, he, hd], hc⟩

theorem declare (h : w.Sound) {d : Declaration} (hd : d.Parsed) : (w.declare d).Sound := by
  cases hresult : (w.generator.declaration d).result with
  | error e =>
    have he : w.declare d = w := by
      unfold Workshop.declare
      simp only [hresult, Generator.declaration_error hresult]
    rw [he]
    exact h
  | ok name =>
    cases d with
    | prototype p =>
      simp only [Workshop.declare, hresult]
      rw [Generator.prototype_ok hresult]
      refine ⟨h.level, h.tidy.declare p, ?_, h.committed⟩
      intro name f hf hbody
      exact h.bodies name f ((h.tidy.workUnit _ hf).2 hbody) hbody
    | function p body result =>
      obtain ⟨f, u, hb, hg⟩ := Generator.function_ok h.tidy.registry hresult
      simp only [Workshop.declare, hresult]
      rw [hg]
      exact h.build hb (fun _ => hd.returns rfl) (h.tidy.registry.insert p _)
    | variableOf type name span => exact h
    | variableAs type name init span => exact h

theorem evaluate (h : w.Sound) (a : Anonymous) : (w.evaluate a).Sound := by
  cases hresult : (w.generator.anonymous a).result with
  | error e =>
    have he : w.evaluate a = w := by
      simp only [Workshop.evaluate, hresult, Generator.anonymous_error hresult]
    rw [he]
    exact h
  | ok name =>
    obtain ⟨f, u, hb, hg⟩ := Generator.anonymous_ok h.tidy.registry hresult
    simp only [Workshop.evaluate, hresult]
    rw [hg]
    exact h.build hb (fun he => (by cases he)) h.tidy.registry

theorem commitBodies {fs : List Func}
    (hfs : ∀ f ∈ fs, ∃ d, w.drafts.get? f.name = some d ∧
      d.Compiles w.generator.options.unsignedCompare f)
    {m : Meaning} {p : Program} (hm : m.Compiles p)
    (hu : m.unsignedCompare = w.generator.options.unsignedCompare) :
    Meaning.Compiles
      { m with sources := fs.foldl (fun t f => t.set f.name (w.drafts.get? f.name)) m.sources }
      { p with code := fs.foldl (fun code f => code.insert f.name f) p.code } := by
  induction fs generalizing m p with
  | nil => exact hm
  | cons f fs ih =>
    obtain ⟨d, hd, hc⟩ := hfs f List.mem_cons_self
    rw [← hu] at hc
    refine ih (m := { m with sources := m.sources.set f.name (w.drafts.get? f.name) })
      (p := { p with code := p.code.insert f.name f })
      (fun g hg => hfs g (List.mem_cons_of_mem f hg)) ⟨hm.host, hm.depth, ?_, ?_⟩ hu
    · intro name d' hd'
      simp only [Table.get?_set, hd] at hd'
      simp only [Table.get?_insert]
      split at hd'
      next he => cases hd'; exact ⟨f, by simp [he], hc⟩
      next he => simp only [he, if_false]; exact hm.code name d' hd'
    · intro name hd'
      simp only [Table.get?_set, hd] at hd'
      simp only [Table.get?_insert]
      split at hd'
      next => cases hd'
      next he => simp only [he, if_false]; exact hm.missing name hd'

theorem commit (h : w.Sound) : w.commit.Sound := by
  have hbodies : ∀ f ∈ w.generator.unit.bodies, ∃ d, w.drafts.get? f.name = some d ∧
      d.Compiles w.generator.options.unsignedCompare f := by
    intro f hf
    obtain ⟨hmem, hbody⟩ := List.mem_filter.mp hf
    obtain ⟨name, hget⟩ := Table.exists_get?_of_mem_values hmem
    have hname := h.tidy.unit name f hget
    subst hname
    exact h.bodies f.name f hget (by simpa using hbody)
  have hempty : ∀ (name : String) (f : Func), w.commit.generator.unit.get? name ≠ some f := by
    intro name f hf
    cases hf
  refine ⟨h.level, h.tidy.takeUnit, fun name f hf => absurd hf (hempty name f), ?_⟩
  unfold Workshop.commit
  rcases w.engine.commit_cases w.generator.takeUnit.result with ⟨fault, hr, he⟩ | ⟨_, _, hr, he⟩
  · simp only [hr, he]
    exact h.committed
  · simp only [hr, he]
    exact commitBodies hbodies h.committed rfl

end Sound

theorem Sound.run {w : Workshop} (h : w.Sound) {steps : List Step}
    (hparsed : ∀ d, Step.declare d ∈ steps → d.Parsed) : (w.run steps).Sound := by
  induction steps generalizing w with
  | nil => exact h
  | cons step steps ih =>
    have hact : (w.act step).Sound := by
      cases step with
      | declare d => exact h.declare (hparsed d List.mem_cons_self)
      | evaluate e counter => exact h.evaluate _
      | commit => exact h.commit
    exact ih hact fun d hd => hparsed d (List.mem_cons_of_mem step hd)

/-- Given time, a call gives what the committed definitions mean: the same value or the same fault,
after the same calls of host functions. -/
theorem call_eq_meaning (options : GeneratorOptions) (hlevel : options.level = .o0)
    (host : HostTable) (depth : Nat) (steps : List Step)
    (hparsed : ∀ d, Step.declare d ∈ steps → d.Parsed) (name : String) (args : List Value) :
    ∃ n, ∀ fuel, n ≤ fuel →
      ({ ((start options host depth).run steps).engine with steps := fuel }.call name args).blur =
        ((start options host depth).run steps).meaning.called name args :=
  ((sound_start hlevel host depth).run hparsed).committed.engine_call _ name args

def countdown : Declaration :=
  .function ⟨.int, "f", [⟨.int, "n"⟩], .nowhere⟩ [] (some
    (.binary .add (.binary .div (.int 6 .nowhere) (.var "n" .int .nowhere) .nowhere)
      (.call "f" [.binary .sub (.var "n" .int .nowhere) (.int 1 .nowhere) .nowhere]
        .int .nowhere) .nowhere))

theorem countdown_parsed : countdown.Parsed := by
  let kinds : List Kind := [.typeWord .int, .name "f", .openParen, .typeWord .int, .name "n",
    .closeParen, .openBrace, .returnWord, .int "6", .op '/', .name "n", .op '+', .name "f",
    .openParen, .name "n", .op '-', .int "1", .closeParen, .semicolon, .closeBrace]
  exact ⟨.ofStream { pending := kinds.map (⟨·, .nowhere⟩), ending := .nowhere },
    by with_unfolding_all rfl⟩

theorem call_eq_meaning_countdown : ∃ n, ∀ fuel, n ≤ fuel →
    ({ ((start { level := .o0 } .standard 8).run [.declare countdown, .commit]).engine with
      steps := fuel }.call "f" [.of (.i32 2)]).blur = ⟨.error (.divisionByZero "f"), []⟩ := by
  have hparsed : ∀ d, Step.declare d ∈ [.declare countdown, .commit] → d.Parsed := by
    intro d hd
    simp only [List.mem_cons, Step.declare.injEq, List.not_mem_nil, or_false] at hd
    rcases hd with rfl | hd
    · exact countdown_parsed
    · cases hd
  obtain ⟨n, h⟩ := call_eq_meaning { level := .o0 } rfl .standard 8 _ hparsed "f" [.of (.i32 2)]
  refine ⟨n, fun fuel hfuel => (h fuel hfuel).trans ?_⟩
  with_unfolding_all rfl

end Workshop

end FormCompiler
