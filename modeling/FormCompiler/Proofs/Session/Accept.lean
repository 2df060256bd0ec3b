import FormCompiler.Proofs.Produced
import FormCompiler.Proofs.Session.Turn

namespace FormCompiler

def CodeUnit.Bare (u : CodeUnit) : Prop := ∀ name f, u.get? name = some f → f.isDeclaration = true

namespace CodeUnit.Bare

variable {u : CodeUnit}

theorem isDeclaration (h : u.Bare) : ∀ e ∈ u.funcs.entries, e.2.isDeclaration = true := by
  intro e he
  exact h e.1 e.2 (Entries.find?_of_mem u.funcs.nodup he)

theorem bodies (h : u.Bare) : u.bodies = [] := by
  rw [CodeUnit.bodies, List.filter_eq_nil_iff]
  intro f hf
  obtain ⟨name, hname⟩ := Table.exists_get?_of_mem_values hf
  simp [h name f hname]

theorem bodies_insert (h : u.Bare) {f : Func} (hf : f.isDeclaration = false) :
    (u.insert f).bodies = [f] := by
  have hd := h.isDeclaration
  change ((Entries.insert f.name f u.funcs.entries).map Prod.snd).filter _ = [f]
  generalize u.funcs.entries = es at hd
  induction es with
  | nil => simp [Entries.insert, hf]
  | cons e es ih =>
    obtain ⟨he, hes⟩ := List.forall_mem_cons.mp hd
    have hrest : (es.map Prod.snd).filter (fun f => !f.isDeclaration) = [] := by
      rw [List.filter_eq_nil_iff]
      intro g hg
      obtain ⟨e', he', rfl⟩ := List.mem_map.mp hg
      simp [hes e' he']
    obtain ⟨name, g⟩ := e
    unfold Entries.insert
    split
    · simp [hf, hrest]
    · simp only [List.map_cons]
      rw [List.filter_cons_of_neg (by simpa using he)]
      exact ih hes

end CodeUnit.Bare

namespace Func

variable {f g : Func} {u : CodeUnit}

theorem verify_insert (hv : f.verify u = .ok ()) (hn : g.name = f.name) :
    f.verify (u.insert g) = .ok () := by
  refine verify_of_calls hv ?_
  rintro callee args returns ⟨s, hs, hreturns, hargs⟩
  refine ⟨s, ?_, hreturns, hargs⟩
  rw [← hs]
  unfold calleeSignature?
  split
  · rfl
  · next hne =>
    rw [CodeUnit.get?_insert, hn, if_neg (Ne.symm hne)]

theorem isDeclaration_of_verify (hv : f.verify u = .ok ()) : f.isDeclaration = false := by
  have hne := (verify_eq_ok.mp hv).1
  cases hb : f.blocks with
  | nil => exact absurd hb hne
  | cons b bs => simp [isDeclaration, hb]

end Func

structure Generator.Ready (g : Generator) : Prop where
  registry : g.registry.Keyed
  empty : ∀ name, g.unit.get? name = none

namespace Generator.Ready

variable {g : Generator}

theorem tidy (h : g.Ready) : g.Tidy := by
  refine ⟨h.registry, ?_⟩
  intro name f hf
  rw [h.empty] at hf
  cases hf

theorem workUnit (h : g.Ready) (s : Signature) : (g.workUnit s).Bare := by
  intro name f hf
  cases hd : f.isDeclaration with
  | true => rfl
  | false =>
    have hu := (h.tidy.workUnit s hf).2 hd
    rw [h.empty] at hu
    cases hu

theorem declared (h : g.Ready) {s : Signature} {u : CodeUnit}
    (hu : g.registry.Declares (g.workUnit s) u) : u.Bare := by
  intro name f hf
  cases hd : f.isDeclaration with
  | true => rfl
  | false =>
    have hu := (h.tidy.declared hu hf).2 hd
    rw [h.empty] at hu
    cases hu

end Generator.Ready

theorem Generator.workUnit_layout (g : Generator) (s : Signature) :
    (g.workUnit s).layout = g.unit.layout := by
  have hstale : (dropStale g.unit s).1.layout = g.unit.layout := by
    unfold dropStale
    split
    · split
      · rfl
      · rfl
    · rfl
  change ((dropStale g.unit s).1.declare s).layout = _
  unfold CodeUnit.declare
  split
  · exact hstale
  · exact hstale

def Generator.fresh (g : Generator) (registry : Registry) : Generator :=
  { g with
    unit := { name := unitName g.created, layout := g.unit.layout }, registry
    created := g.created + 1 }

theorem Generator.ready_fresh (g : Generator) {registry : Registry} (hr : registry.Keyed) :
    (g.fresh registry).Ready :=
  ⟨hr, fun _ => rfl⟩

namespace Session

variable {s : Session} {g : Generator} {level : OptLevel} {registry : Registry} {u : CodeUnit}

theorem commit_ok (hs : s.generator = { g.atLevel level with unit := u, registry })
    (hl : u.layout = g.unit.layout) (he : g.unit.layout = s.engine.layout)
    (hv : ∀ f ∈ u.bodies, f.verify u = .ok ()) :
    s.commit.result = .ok () ∧ s.commit.session.generator = (g.fresh registry).atLevel level ∧
      s.commit.session.engine = s.engine.withBodies u.bodies := by
  have htaken : s.generator.takeUnit.result = u := by rw [hs]; rfl
  obtain ⟨hresult, hengine⟩ := Engine.commit_ok (hl.trans he) hv
  refine ⟨?_, ?_, ?_⟩
  · simp only [commit, htaken, hresult]
    rfl
  · simp only [commit, hs]
    change Generator.atLevel { g with
      unit := { name := Generator.unitName g.created, layout := u.layout }
      registry
      created := g.created + 1 } level = _
    rw [hl]
    rfl
  · simp only [commit, htaken, hengine]

structure Adopts (s s' : Session) (g : Generator) (level : OptLevel) (f? : Option Func) :
    Prop where
  generator : s'.generator = g.atLevel level
  engine : s'.engine =
    s.engine.withBodies (f?.toList.map fun f => (Pass.runAll level.passes f).func)

theorem commit_built (hg : g.Ready) {p : Prototype} {body : List Stmt} {result : Option Expr}
    {f : Func} (hb : g.Builds p body result f u)
    (hs : s.generator = { g.atLevel level with
      unit := u.insert (Pass.runAll level.passes f).func, registry })
    (he : g.unit.layout = s.engine.layout) :
    s.commit.result = .ok () ∧ s.Adopts s.commit.session (g.fresh registry) level (some f) := by
  have hi := hb.improves level
  have hv := hi.verify hb.verified
  have hbodies : (u.insert (Pass.runAll level.passes f).func).bodies =
      [(Pass.runAll level.passes f).func] :=
    (hg.declared hb.declares).bodies_insert (Func.isDeclaration_of_verify hv)
  have hlayout : (u.insert (Pass.runAll level.passes f).func).layout = g.unit.layout :=
    hb.declares.layout.trans (g.workUnit_layout _)
  have hverified : ∀ f' ∈ (u.insert (Pass.runAll level.passes f).func).bodies,
      f'.verify (u.insert (Pass.runAll level.passes f).func) = .ok () := by
    intro f' hf'
    rw [hbodies] at hf'
    rw [List.mem_singleton.mp hf']
    exact Func.verify_insert hv rfl
  obtain ⟨hresult, hgenerator, hengine⟩ := commit_ok hs hlayout he hverified
  refine ⟨hresult, hgenerator, ?_⟩
  rw [hengine, hbodies]
  rfl

theorem declare_levels (hg : g.Ready) (d : Declaration) :
    (∀ level (s : Session), s.generator = g.atLevel level →
      (s.declare d).result = false ∧ (s.declare d).session.generator = s.generator ∧
        (s.declare d).session.engine = s.engine) ∨
    ∃ (g' : Generator) (f? : Option Func), g'.Ready ∧ g'.unit.layout = g.unit.layout ∧
      g'.options = g.options ∧ (∀ f, f? = some f → ∃ w, f.Sound w) ∧
      ∀ level (s : Session), s.generator = g.atLevel level → g.unit.layout = s.engine.layout →
        (s.declare d).result = true ∧ s.Adopts (s.declare d).session g' level f? := by
  rcases Generator.declaration_levels hg.registry d with
    ⟨e, he⟩ | hnone | ⟨p, hp⟩ | ⟨p, body, result, f, u, hb, hf⟩
  · refine .inl fun level s hs => ?_
    obtain ⟨generator, engine, printCode, stats⟩ := s
    change generator = g.atLevel level at hs
    subst hs
    simp only [declare, he level]
    exact ⟨trivial, Generator.declaration_error (he level), rfl⟩
  · refine .inr ⟨g, none, hg, rfl, rfl, fun f hf => (by cases hf), fun level s hs _ => ?_⟩
    obtain ⟨generator, engine, printCode, stats⟩ := s
    change generator = g.atLevel level at hs
    subst hs
    simp only [declare, (hnone level).1]
    exact ⟨trivial, (hnone level).2, rfl⟩
  · refine .inr ⟨g.fresh (g.registry.declare p), none,
      g.ready_fresh (hg.registry.insert p _), rfl, rfl, fun f hf => (by cases hf), ?_⟩
    intro level s hs hl
    obtain ⟨generator, engine, printCode, stats⟩ := s
    change generator = g.atLevel level at hs
    subst hs
    obtain ⟨hresult, hgenerator⟩ := hp level
    have hbodies := (hg.workUnit p.signature).bodies
    have hverified : ∀ f ∈ (g.workUnit p.signature).bodies,
        f.verify (g.workUnit p.signature) = .ok () := by
      intro f hf
      rw [hbodies] at hf
      cases hf
    obtain ⟨hok, hfresh, hengine⟩ := commit_ok
      (s := ⟨((g.atLevel level).declaration d).generator, engine, printCode, stats⟩) hgenerator
      (g.workUnit_layout _) hl hverified
    simp only [declare, hresult, hok]
    refine ⟨trivial, hfresh, ?_⟩
    rw [hengine, hbodies]
    rfl
  · refine .inr ⟨g.fresh (g.registry.define p), some f,
      g.ready_fresh (hg.registry.insert p _), rfl, rfl, ?_, ?_⟩
    · intro f' hf'
      cases hf'
      exact hb.sound
    · intro level s hs hl
      obtain ⟨generator, engine, printCode, stats⟩ := s
      change generator = g.atLevel level at hs
      subst hs
      obtain ⟨hresult, hgenerator⟩ := hf level
      obtain ⟨hok, hadopts⟩ := commit_built
        (s := ⟨((g.atLevel level).declaration d).generator, engine, printCode, stats⟩) hg hb
        hgenerator hl
      simp only [declare, hresult, hok]
      exact ⟨trivial, hadopts.generator, hadopts.engine⟩

/-- An expression is refused at every level, or its function is committed and called. -/
theorem evaluate_levels (hg : g.Ready) (a : Anonymous) :
    (∀ level (s : Session), s.generator = g.atLevel level →
      s.answer? a = none ∧ (s.evaluate a).session.generator = s.generator ∧
        (s.evaluate a).session.engine = s.engine) ∨
    ∃ (g' : Generator) (f : Func), g'.Ready ∧ g'.unit.layout = g.unit.layout ∧
      g'.options = g.options ∧ (∃ w, f.Sound w) ∧ f.name = a.proto.name ∧
      ∀ level (s : Session), s.generator = g.atLevel level → g.unit.layout = s.engine.layout →
        s.answer? a = some ((s.evaluate a).session.invoke a.proto.name) ∧
        s.Adopts (s.evaluate a).session g' level (some f) := by
  rcases Generator.anonymous_levels hg.registry a with ⟨e, he⟩ | ⟨f, u, hb, hf⟩
  · refine .inl fun level s hs => ?_
    obtain ⟨generator, engine, printCode, stats⟩ := s
    change generator = g.atLevel level at hs
    subst hs
    simp only [evaluate, answer?, he level]
    exact ⟨trivial, Generator.anonymous_error (he level), rfl⟩
  · refine .inr ⟨g.fresh g.registry, f, g.ready_fresh hg.registry, rfl, rfl, hb.sound,
      congrArg Signature.name hb.signature, ?_⟩
    intro level s hs hl
    obtain ⟨generator, engine, printCode, stats⟩ := s
    change generator = g.atLevel level at hs
    subst hs
    obtain ⟨hresult, hgenerator⟩ := hf level
    obtain ⟨hok, hadopts⟩ := commit_built
      (s := ⟨((g.atLevel level).anonymous a).generator, engine, printCode, stats⟩) hg hb
      hgenerator hl
    simp only [evaluate, answer?, hresult, hok]
    split
    · exact ⟨rfl, hadopts.generator, hadopts.engine⟩
    · exact ⟨rfl, hadopts.generator, hadopts.engine⟩

end Session

end FormCompiler
