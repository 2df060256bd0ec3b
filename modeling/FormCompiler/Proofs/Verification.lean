import FormCompiler.Proofs.Lowering.Careful
import FormCompiler.Proofs.Session.Steps

/-!
No form is ever refused by the checks. What a generator builds is accepted as it was lowered and
as the passes leave it, so what a session commits is always taken.
-/

namespace FormCompiler

theorem Signature.paramNames_typed {s : Signature} {f : Func} (hf : f.signature = s)
    {name : String} {o : Operand} (h : s.paramNames.get? name = some o) :
    ∃ type, f.operandType? o = some type := by
  obtain ⟨index, rfl, hlt⟩ := paramNames_get? h
  refine ⟨(s.params.get ⟨index, hlt⟩).2, ?_⟩
  simp [Func.operandType?, hf, Signature.paramTypes, hlt]

namespace Generator

variable {g : Generator} {p : Prototype} {body : List Stmt} {result : Option Expr}

def workStart (g : Generator) (s : Signature) : Lowering :=
  ⟨g.workUnit s, .start s, s.paramNames, (redeclare g.unit s).2.toArray⟩

theorem within_workStart (hr : g.registry.Keyed) (s : Signature) :
    (g.workStart s).Within ⟨g.registry, g.options.unsignedCompare⟩
      ⟨g.knownTo s, s.paramNames, g.options.unsignedCompare⟩ (g.workUnit s) :=
  ⟨hr, fun _ => rfl, .refl, rfl, rfl⟩

theorem heeds {s : Signature} {u : CodeUnit} (hu : g.registry.Declares (g.workUnit s) u) {f : Func}
    (hf : f.signature = s) (hcalls : ∀ callee, f.Calls callee → u.get? callee ≠ none) :
    f.Heeds (g.knownTo s) u := by
  intro callee known hcall hknown
  unfold Func.calleeSignature?
  by_cases he : callee = f.name
  · refine ⟨f.signature, if_pos he, ?_⟩
    have hname : callee = s.name := by rw [he, Func.name, hf]
    subst hname
    obtain ⟨f', hf', hshape⟩ := redeclare_get? g.unit s
    rw [knownTo, Registry.resolve_fst, workUnit, hf'] at hknown
    obtain rfl : f'.signature = known := Option.some.inj hknown
    rw [hf]
    rcases hshape with ⟨_, hshape⟩ | rfl
    · simp only [Signature.sameShape, Bool.and_eq_true, beq_iff_eq] at hshape
      exact ⟨hshape.1.2.symm, hshape.2.symm⟩
    · exact ⟨rfl, rfl⟩
  · obtain ⟨f', hf'⟩ := Option.ne_none_iff_exists'.mp (hcalls callee hcall)
    have hsame : some f'.signature = some known := by
      rw [← hknown, knownTo, ← hu.resolve_fst callee, Registry.resolve_fst, hf']
      rfl
    rw [if_neg he, hf']
    exact ⟨known, hsame, rfl, rfl⟩

theorem verify_lowered (hr : g.registry.Keyed) {work : Lowering}
    (h : lowerBody ⟨g.registry, g.options.unsignedCompare⟩ p.signature body result
      (g.workStart p.signature) = .ok () work) :
    work.builder.func.verify work.unit = .ok () := by
  obtain ⟨hlowered, hdeclares⟩ := lowerBody_lowered h (within_workStart hr p.signature)
  have hsignature : work.builder.func.signature = p.signature :=
    (hlowered.extends (Builder.open_start _)).1.signature
  refine hlowered.verify (Builder.checked_start _ _) (Builder.open_start _)
    (Builder.not_waits_start _) rfl (fun _ _ ho => Signature.paramNames_typed rfl ho) ?_
  exact heeds hdeclares hsignature fun callee hc => lowerBody_declares hr h rfl hc

theorem build_refused {e : LowerError} {work : Lowering}
    (h : lowerBody ⟨g.registry, g.options.unsignedCompare⟩ p.signature body result
      (g.workStart p.signature) = .error e work) : (g.build p body result).result = .error e := by
  unfold build
  simp only
  split
  next he => cases h.symm.trans he; rfl
  next he => cases h.symm.trans he

theorem makes_lowered (hr : g.registry.Keyed) {work : Lowering}
    (h : lowerBody ⟨g.registry, g.options.unsignedCompare⟩ p.signature body result
      (g.workStart p.signature) = .ok () work) :
    g.Makes p body result work.builder.func work.unit := by
  have hv := verify_lowered hr h
  obtain ⟨hlowered, hdeclares⟩ := lowerBody_lowered h (within_workStart hr p.signature)
  refine ⟨⟨⟨_, rfl, hlowered⟩, hdeclares, hv⟩, ?_, ?_⟩
  · unfold build
    simp only
    split
    next he => cases h.symm.trans he
    next he => cases h.symm.trans he; simp only [finish, hv]
  · unfold build
    simp only
    split
    next he => cases h.symm.trans he
    next he => cases h.symm.trans he; simp only [finish, hv]; rfl

/-- A function is not built for a reason that the checks have nothing to do with, or it is accepted
as it stands in the unit. -/
theorem build_accepts (hr : g.registry.Keyed) (p : Prototype) (body : List Stmt)
    (result : Option Expr) :
    (∃ e, (g.build p body result).result = .error e ∧ ∀ v, e ≠ .invalid v) ∨
    (g.build p body result).result = .ok () ∧ ∃ f,
      (g.build p body result).generator.unit.get? p.name = some f ∧ f.signature = p.signature ∧
      f.verify (g.build p body result).generator.unit = .ok () := by
  cases hl : lowerBody ⟨g.registry, g.options.unsignedCompare⟩ p.signature body result
      (g.workStart p.signature) with
  | error e work =>
    exact .inl ⟨e, build_refused hl, (careful_lowerBody hr p.signature body result).fails _ _ _ hl⟩
  | ok u work =>
    obtain ⟨hb, hok, hgenerator⟩ := makes_lowered hr hl
    have hi : Func.Improves _ (g.optimized _) := hb.improves g.options.level
    have hsignature := hb.signature_optimized
    refine .inr ⟨hok, g.optimized work.builder.func, ?_, hsignature, ?_⟩
    · have hname : (g.optimized work.builder.func).name = p.name := hb.name_optimized
      rw [hgenerator, CodeUnit.get?_insert, if_pos hname]
    · rw [hgenerator]
      exact Func.verify_insert (hi.verify hb.verified) rfl

theorem checkRedefinition_error {withBody : Bool} {e : LowerError}
    (h : g.checkRedefinition p withBody = .error e) : e = .redefinition p.name := by
  rw [checkRedefinition_eq] at h
  split at h
  · cases h
  · split at h
    · cases h
    · exact (Except.error.inj h).symm

/-- What the checks say of an action that makes a function with this prototype: if it fails, that
is for another reason, and otherwise the unit has the function and accepts it. -/
inductive Reply.Accepts (r : Reply (Except LowerError String)) (p : Prototype) : Prop
  | failed {e : LowerError} : r.result = .error e → (∀ v, e ≠ .invalid v) → Accepts r p
  | made {f : Func} : r.result = .ok p.name → r.generator.unit.get? p.name = some f →
      f.signature = p.signature → f.verify r.generator.unit = .ok () → Accepts r p

theorem defineFunction_accepts (hr : g.registry.Keyed) (p : Prototype) (body : List Stmt)
    (result : Option Expr) : (g.defineFunction p body result).Accepts p := by
  unfold defineFunction
  cases hc : g.checkRedefinition p true with
  | error e =>
    refine .failed rfl ?_
    rw [checkRedefinition_error hc]
    exact fun v he => (by cases he)
  | ok warnings =>
    rcases build_accepts hr p body result with ⟨e, he, hne⟩ | ⟨hok, f, hf, hsignature, hv⟩
    · simp only [he]
      exact .failed rfl hne
    · simp only [hok]
      exact .made rfl hf hsignature hv

theorem anonymous_accepts (hr : g.registry.Keyed) (a : Anonymous) :
    (g.anonymous a).Accepts a.proto := by
  unfold anonymous
  rcases build_accepts hr a.proto [] (some a.expr) with ⟨e, he, hne⟩ | ⟨hok, f, hf, hsignature, hv⟩
  · simp only [he]
    exact .failed rfl hne
  · simp only [hok]
    exact .made rfl hf hsignature hv

inductive Arises : Generator → Prop
  | start (layout : DataLayout) (options : GeneratorOptions) : Arises (.start layout options)
  | declaration {g : Generator} (d : Declaration) : Arises g → Arises (g.declaration d).generator
  | anonymous {g : Generator} (a : Anonymous) : Arises g → Arises (g.anonymous a).generator
  | signature? {g : Generator} (name : String) : Arises g → Arises (g.signature? name).generator
  | takeUnit {g : Generator} : Arises g → Arises g.takeUnit.generator

theorem Arises.tidy (h : g.Arises) : g.Tidy := by
  induction h with
  | start layout options => exact tidy_start layout options
  | @declaration g d _ ih =>
    cases hresult : (g.declaration d).result with
    | error e =>
      rw [declaration_error hresult]
      exact ih
    | ok name =>
      cases d with
      | prototype p =>
        rw [prototype_ok hresult]
        exact ih.declare p
      | function p body result =>
        obtain ⟨f, u, hb, hg⟩ := function_ok ih.registry hresult
        rw [hg]
        exact ih.insert hb (ih.registry.insert p _) _
      | variableOf type name span => exact ih
      | variableAs type name init span => exact ih
  | @anonymous g a _ ih =>
    cases hresult : (g.anonymous a).result with
    | error e =>
      rw [anonymous_error hresult]
      exact ih
    | ok name =>
      obtain ⟨f, u, hb, hg⟩ := anonymous_ok ih.registry hresult
      rw [hg]
      exact ih.insert hb ih.registry _
  | @signature? g name _ ih =>
    refine ⟨ih.registry, ?_⟩
    intro other f hf
    have hdeclares := (Registry.Declares.refl (u := g.unit)).resolve ih.registry name
    rcases hdeclares.get? other with he | ⟨_, s, hs, he⟩
    · exact ih.unit other f (he.symm.trans hf)
    · obtain rfl : ({ signature := s } : Func) = f := Option.some.inj (he.symm.trans hf)
      exact ih.registry other s hs
  | takeUnit _ ih => exact ih.takeUnit

end Generator

namespace Session

inductive Arises : Session → Prop
  | start (engine : Engine) (options : GeneratorOptions) (printCode : Bool) :
      Arises { generator := .start engine.layout options, engine, printCode }
  | turn {s : Session} (p : Parser) : Arises s → Arises (s.turn p).session

theorem Arises.settled {s : Session} (h : s.Arises) : s.Settled := by
  induction h with
  | start engine options printCode => exact .start engine options printCode {}
  | turn p _ ih => exact ih.turn p

def committed? (s : Session) (p : Parser) : Option (Except Fault Unit) :=
  match p.reading with
  | .declaration d =>
    match (s.generator.declaration d).result with
    | .ok (some _) =>
      some { s with generator := (s.generator.declaration d).generator }.commit.result
    | .ok none | .error _ => none
  | .expression a =>
    match (s.generator.anonymous a).result with
    | .ok _ => some { s with generator := (s.generator.anonymous a).generator }.commit.result
    | .error _ => none
  | .nothing | .broken | .ending | .faulty => none

theorem Settled.committed?_ne {s : Session} (h : s.Settled) (p : Parser) (fault : Fault) :
    s.committed? p ≠ some (.error fault) := by
  unfold committed?
  cases p.reading with
  | declaration d =>
    simp only
    split
    next name hresult =>
      intro he
      have hfalse : (s.declare d).result = false := by
        simp only [declare, hresult, Option.some.inj he]
      have hd := h.declared d
      rw [hfalse] at hd
      cases hd with
      | refused he' _ => cases hresult.symm.trans he'
    next => exact fun he => (by cases he)
    next => exact fun he => (by cases he)
  | expression a =>
    simp only
    split
    next name hresult =>
      intro he
      have hnone : s.answer? a = none := by
        simp only [answer?, hresult, Option.some.inj he]
      have ha := h.evaluated a
      rw [hnone] at ha
      cases ha with
      | refused he' _ => cases hresult.symm.trans he'
    next => exact fun he => (by cases he)
  | nothing => exact fun he => (by cases he)
  | broken => exact fun he => (by cases he)
  | ending => exact fun he => (by cases he)
  | faulty => exact fun he => (by cases he)

end Session

/-- Whatever a generator has done before, at whatever level, and whatever form it is given, the
checks never are the reason for refusing it, and the function that is made of it is accepted in the
unit as the passes have left it. What a session commits is therefore always taken. -/
theorem generated_accepted :
    (∀ g : Generator, g.Arises →
      (∀ p body result, (g.defineFunction p body result).Accepts p) ∧
      ∀ a, (g.anonymous a).Accepts a.proto) ∧
    ∀ s : Session, s.Arises → ∀ p fault, s.committed? p ≠ some (.error fault) := by
  refine ⟨fun g hg => ⟨?_, ?_⟩, fun s hs => hs.settled.committed?_ne⟩
  · exact Generator.defineFunction_accepts hg.tidy.registry
  · exact Generator.anonymous_accepts hg.tidy.registry

def quiet : Prototype := ⟨.void, "quiet", [⟨.char, "c"⟩, ⟨.void, "v"⟩], .nowhere⟩

def quietBody : List Stmt :=
  [.expression (.cond (.var "c" .char .nowhere) (.call "f" [.int 3 .nowhere] .int .nowhere)
    (.float 2.5 .nowhere) .nowhere)]

def afterFactorial : Generator :=
  ((Generator.start .host { level := .o2 }).declaration factorial).generator

theorem arises_afterFactorial : afterFactorial.Arises :=
  .declaration factorial (.start .host { level := .o2 })

theorem generated_accepted_quiet :
    afterFactorial.Arises ∧
    (afterFactorial.defineFunction quiet quietBody none).result = .ok "quiet" ∧
    (afterFactorial.defineFunction quiet quietBody none).Accepts quiet := by
  refine ⟨arises_afterFactorial, ?_, ?_⟩
  · decide +kernel
  · exact (generated_accepted.1 afterFactorial arises_afterFactorial).1 quiet quietBody none

end FormCompiler
