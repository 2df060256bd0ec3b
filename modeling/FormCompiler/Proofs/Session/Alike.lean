import FormCompiler.Proofs.Machine.Named
import FormCompiler.Proofs.Session.Visits
import FormCompiler.Proofs.Verification

namespace FormCompiler

theorem Func.Derives.callsOnly {f g : Func} (h : f.Derives g) {W : String → Prop}
    (hf : f.CallsOnly W) : g.CallsOnly W := by
  rintro callee ⟨i, hi, args, returns, hop⟩
  obtain ⟨j, hj, args', hop', _⟩ := h.calls i hi callee args returns hop
  exact hf callee ⟨j, hj, args', returns, hop'⟩

namespace Generator

structure Alike (g g' : Generator) : Prop where
  ready : g.Ready
  ready' : g'.Ready
  registry : g'.registry = g.registry
  options : g'.options = g.options

variable {g g' : Generator}

theorem Ready.get?_workUnit (h : g.Ready) (s : Signature) (name : String) :
    (g.workUnit s).get? name = if s.name = name then some { signature := s } else none := by
  split
  next he =>
    subst he
    obtain ⟨f, hf, ⟨hu, _⟩ | rfl⟩ := redeclare_get? g.unit s
    · rw [h.empty] at hu
      cases hu
    · exact hf
  next hne => exact (redeclare_get?_of_ne hne).trans (h.empty name)

namespace Alike

theorem checkRedefinition (h : g.Alike g') (p : Prototype) (withBody : Bool) :
    g'.checkRedefinition p withBody = g.checkRedefinition p withBody := by
  unfold Generator.checkRedefinition
  rw [h.registry, h.options]

theorem optimized (h : g.Alike g') (f : Func) (name : String) :
    g'.optimized (f.named name) = (g.optimized f).named name := by
  unfold Generator.optimized
  rw [h.options, Pass.blind_runAll]
  rfl

/-- A function is built by both generators or by none, under its name or, if nothing calls it, under
another. -/
theorem build (h : g.Alike g') {W : String → Prop} {p p' : Prototype}
    (hsignature : p'.signature = p.signature.named p'.name)
    (hname : p'.name = p.name ∨ ¬ W p.name ∧ ¬ W p'.name) {body : List Stmt}
    (hbody : ∀ stmt ∈ body, stmt.Spelled W) {result : Option Expr}
    (hresult : ∀ e ∈ result, e.Spelled W) :
    (∃ e e', (g.build p body result).result = .error e ∧
      (g'.build p' body result).result = .error e') ∨
    ∃ f u u', g.Makes p body result f u ∧ g'.Makes p' body result (f.named p'.name) u' ∧
      f.CallsOnly W := by
  have halike : Lowering.Alike W p'.name (g.workStart p.signature) (g'.workStart p'.signature) := by
    refine ⟨fun callee hw => ?_, ?_, ?_, ?_⟩
    · change (g'.workUnit p'.signature).get? callee = (g.workUnit p.signature).get? callee
      rw [h.ready.get?_workUnit, h.ready'.get?_workUnit, hsignature]
      rcases hname with he | ⟨hp, hp'⟩
      · rw [he]
        rfl
      · have hne : p.name ≠ callee := fun he => hp (he ▸ hw)
        have hne' : p'.name ≠ callee := fun he => hp' (he ▸ hw)
        exact (if_neg hne').trans (if_neg hne).symm
    · change Builder.start p'.signature = (Builder.start p.signature).named p'.name
      rw [hsignature]
      rfl
    · change p'.signature.paramNames = p.signature.paramNames
      rw [hsignature]
      rfl
    · rintro callee ⟨i, hi, _⟩
      cases hi
  let env : LowerEnv := ⟨g.registry, g.options.unsignedCompare⟩
  have hpaired : Lower.Paired W p'.name
      (lowerBody env p.signature body result (g.workStart p.signature))
      (lowerBody env (p.signature.named p'.name) body result (g'.workStart p'.signature)) :=
    paired_lowerBody h.ready.registry p.signature hbody hresult halike
  have henv : (⟨g'.registry, g'.options.unsignedCompare⟩ : LowerEnv) = env := by
    rw [h.registry, h.options]
  rw [← hsignature] at hpaired
  cases hl : lowerBody env p.signature body result (g.workStart p.signature) with
  | error e work =>
    cases hl' : lowerBody env p'.signature body result (g'.workStart p'.signature) with
    | error e' work' => exact .inl ⟨e, e', build_refused hl, build_refused (henv ▸ hl')⟩
    | ok u' work' => rw [hl, hl'] at hpaired; cases hpaired
  | ok u work =>
    cases hl' : lowerBody env p'.signature body result (g'.workStart p'.signature) with
    | error e' work' => rw [hl, hl'] at hpaired; cases hpaired
    | ok u' work' =>
      rw [hl, hl'] at hpaired
      cases hpaired with
      | ok hwork =>
        have hmakes := makes_lowered h.ready.registry hl
        have hmakes' : g'.Makes p' body result work'.builder.func work'.unit :=
          makes_lowered h.ready'.registry (henv ▸ hl')
        rw [hwork.builder] at hmakes'
        exact .inr ⟨_, _, _, hmakes, hmakes', hwork.calls⟩

end Alike

end Generator

structure Engine.Called.Alike (c c' : Engine.Called) : Prop where
  result : SameValue c.result c'.result
  calls : c'.calls = c.calls

inductive Verdict.Alike : Verdict → Verdict → Prop
  | same (v : Verdict) : Alike v v
  | evaluated {c c' : Engine.Called} : c.Alike c' →
      Alike (.evaluated (some c)) (.evaluated (some c'))

namespace Session

structure Alike (s t : Session) : Prop where
  settled : s.Settled
  settled' : t.Settled
  registry : t.generator.registry = s.generator.registry
  options : t.generator.options = s.generator.options
  steps : t.engine.steps = s.engine.steps
  program : s.engine.program.Alike Unreserved t.engine.program

variable {s t s' t' : Session}

namespace Alike

theorem generator (h : s.Alike t) : s.generator.Alike t.generator :=
  ⟨h.settled.ready, h.settled'.ready, h.registry, h.options⟩

theorem unmoved (h : s.Alike t) (hs : s.Unmoved s') (ht : t.Unmoved t') : s'.Alike t' where
  settled := h.settled.unmoved hs
  settled' := h.settled'.unmoved ht
  registry := by rw [hs.generator, ht.generator, h.registry]
  options := by rw [hs.generator, ht.generator, h.options]
  steps := by rw [hs.engine, ht.engine, h.steps]
  program := by rw [hs.engine, ht.engine]; exact h.program

theorem countForm (h : s.Alike t) : s.countForm.Alike t.countForm := h.unmoved ⟨rfl, rfl⟩ ⟨rfl, rfl⟩

theorem commits_nil (h : s.Alike t) {registry : Registry} (hr : registry.Keyed)
    (hs : s.Commits s' registry []) (ht : t.Commits t' registry []) : s'.Alike t' where
  settled := h.settled.commits hr hs
  settled' := h.settled'.commits hr ht
  registry := by rw [hs.generator, ht.generator]; rfl
  options := by rw [hs.generator, ht.generator]; exact h.options
  steps := by rw [hs.engine, ht.engine]; exact h.steps
  program := by rw [hs.engine, ht.engine]; exact h.program

theorem commits (h : s.Alike t) {registry : Registry} (hr : registry.Keyed) {f : Func}
    {name : String} (hs : s.Commits s' registry [f]) (ht : t.Commits t' registry [f.named name])
    (hf : f.CallsOnly Unreserved)
    (hname : name = f.name ∨ ¬ Unreserved f.name ∧ ¬ Unreserved name) : s'.Alike t' where
  settled := h.settled.commits hr hs
  settled' := h.settled'.commits hr ht
  registry := by rw [hs.generator, ht.generator]; rfl
  options := by rw [hs.generator, ht.generator]; exact h.options
  steps := by rw [hs.engine, ht.engine]; exact h.steps
  program := by
    rw [hs.engine, ht.engine]
    refine ⟨h.program.host, h.program.depth, fun other hother => ?_, fun other g hother hg => ?_⟩
    · change (Table.insert _ name (f.named name)).get? other = (Table.insert _ f.name f).get? other
      rw [Table.get?_insert, Table.get?_insert, h.program.code other hother]
      rcases hname with rfl | ⟨hf', hn'⟩
      · rfl
      · have hne : f.name ≠ other := fun he => hf' (he ▸ hother)
        have hne' : name ≠ other := fun he => hn' (he ▸ hother)
        rw [if_neg hne, if_neg hne']
    · change (Table.insert _ f.name f).get? other = some g at hg
      rw [Table.get?_insert] at hg
      split at hg
      · cases hg
        exact hf
      · exact h.program.calls other g hother hg

theorem declare (h : s.Alike t) {d : Declaration} (hd : d.Spelled Unreserved) :
    (t.declare d).result = (s.declare d).result ∧
      (s.declare d).session.Alike (t.declare d).session := by
  have hrefused (e e' : LowerError) (hs : (s.generator.declaration d).result = .error e)
      (ht : (t.generator.declaration d).result = .error e') :
      (t.declare d).result = (s.declare d).result ∧
        (s.declare d).session.Alike (t.declare d).session := by
    obtain ⟨hfalse, hs⟩ := Settled.declare_refused hs
    obtain ⟨hfalse', ht⟩ := Settled.declare_refused ht
    exact ⟨hfalse'.trans hfalse.symm, h.unmoved hs ht⟩
  cases hd with
  | variableOf _ => exact ⟨rfl, h.unmoved ⟨rfl, rfl⟩ ⟨rfl, rfl⟩⟩
  | variableAs _ => exact ⟨rfl, h.unmoved ⟨rfl, rfl⟩ ⟨rfl, rfl⟩⟩
  | @prototype p _ =>
    have hc := h.generator.checkRedefinition p false
    cases hc' : s.generator.checkRedefinition p false with
    | error e =>
      rw [hc'] at hc
      exact hrefused e e (Generator.prototype_refused hc') (Generator.prototype_refused hc)
    | ok notes =>
      rw [hc'] at hc
      obtain ⟨htrue, hs⟩ := h.settled.declare_prototype hc'
      obtain ⟨htrue', ht⟩ := h.settled'.declare_prototype hc
      rw [h.registry] at ht
      exact ⟨htrue'.trans htrue.symm,
        h.commits_nil (h.settled.ready.registry.insert p _) hs ht⟩
  | @function p body result hp hbody hresult =>
    have hc := h.generator.checkRedefinition p true
    cases hc' : s.generator.checkRedefinition p true with
    | error e =>
      rw [hc'] at hc
      exact hrefused e e (Generator.function_refused hc') (Generator.function_refused hc)
    | ok notes =>
      rw [hc'] at hc
      have hsignature : p.signature = p.signature.named p.name := rfl
      rcases h.generator.build hsignature (.inl rfl) hbody hresult with
        ⟨e, e', he, he'⟩ | ⟨f, u, u', hm, hm', hf⟩
      · exact hrefused e e' (Generator.function_unbuilt hc' he) (Generator.function_unbuilt hc he')
      · obtain ⟨htrue, hs⟩ := h.settled.declare_function hc' hm
        obtain ⟨htrue', ht⟩ := h.settled'.declare_function hc hm'
        have hi : f.Improves (s.generator.optimized f) :=
          hm.builds.improves s.generator.options.level
        have hname : (s.generator.optimized f).name = p.name := hm.builds.name_optimized
        rw [h.registry, h.generator.optimized] at ht
        exact ⟨htrue'.trans htrue.symm, h.commits (h.settled.ready.registry.insert p _) hs ht
          (hi.derives.callsOnly hf) (.inl hname.symm)⟩

theorem invoke (h : s.Alike t) {f : Func} {name name' : String} (hname : f.name = name)
    (hf : s.code.get? name = some f) (hf' : t.code.get? name' = some (f.named name'))
    (hcalls : f.CallsOnly Unreserved) : (s.invoke name).Alike (t.invoke name') := by
  have hcall := h.program.call hf hf' hcalls s.engine.steps []
  have hlookup : s.engine.lookup? name = some f.signature := by
    unfold Engine.lookup?
    rw [show s.engine.program.code.get? name = some f from hf]
  have hlookup' : t.engine.lookup? name' = some (f.named name').signature := by
    unfold Engine.lookup?
    rw [show t.engine.program.code.get? name' = _ from hf']
  unfold Session.invoke
  rw [hlookup, hlookup']
  simp only [Engine.callAs, show (f.named name').signature.params = f.signature.params from rfl]
  split
  · exact ⟨.error _ _, rfl⟩
  · change Engine.Called.Alike (s.engine.call f.name []) (t.engine.call name' [])
    rw [hname]
    have hnone : ∀ name, Engine.constants name [] = .ok [] := fun _ => rfl
    simp only [Engine.call, hnone, h.steps]
    generalize s.engine.program.call s.engine.steps name [] = r,
      t.engine.program.call s.engine.steps name' [] = r' at hcall
    cases hcall with
    | none => exact ⟨.error _ _, rfl⟩
    | some ho => exact ⟨ho.result.map _, congrArg List.reverse ho.calls⟩

theorem evaluate (h : s.Alike t) {e : Expr} (he : e.Spelled Unreserved) (m n : Nat) :
    (Verdict.evaluated (s.answer? (.wrap e m))).Alike (.evaluated (t.answer? (.wrap e n))) ∧
      (s.evaluate (.wrap e m)).session.Alike (t.evaluate (.wrap e n)).session := by
  have hsignature : (Anonymous.wrap e n).proto.signature =
      (Anonymous.wrap e m).proto.signature.named (Anonymous.nameOf n) := rfl
  have hreserved := not_unreserved_nameOf m
  have hreserved' := not_unreserved_nameOf n
  have hbody : ∀ stmt ∈ ([] : List Stmt), stmt.Spelled Unreserved := fun _ hs => (by cases hs)
  have hresult : ∀ e' ∈ some e, e'.Spelled Unreserved := fun _ he' => (by cases he'; exact he)
  rcases h.generator.build hsignature (.inr ⟨hreserved, hreserved'⟩) hbody hresult with
    ⟨error, error', hs, ht⟩ | ⟨f, u, u', hm, hm', hf⟩
  · obtain ⟨hnone, hs⟩ := Settled.evaluate_refused (a := .wrap e m) hs
    obtain ⟨hnone', ht⟩ := Settled.evaluate_refused (a := .wrap e n) ht
    rw [hnone, hnone']
    exact ⟨.same _, h.unmoved hs ht⟩
  · obtain ⟨hanswer, hs⟩ := h.settled.evaluate_function (a := .wrap e m) hm
    obtain ⟨hanswer', ht⟩ := h.settled'.evaluate_function (a := .wrap e n) hm'
    have hi : f.Improves (s.generator.optimized f) := hm.builds.improves s.generator.options.level
    have hname : (s.generator.optimized f).name = Anonymous.nameOf m := hm.builds.name_optimized
    have hcalls := hi.derives.callsOnly hf
    rw [h.registry, h.generator.optimized] at ht
    have hafter := h.commits h.settled.ready.registry hs ht hcalls
      (.inr ⟨hname ▸ hreserved, hreserved'⟩)
    rw [hanswer, hanswer']
    refine ⟨.evaluated (hafter.invoke hname ?_ ?_ hcalls), hafter⟩
    · rw [hs.code_get?]
      exact if_pos hname
    · rw [ht.code_get?]
      exact if_pos rfl

end Alike

end Session

structure Parser.Alike (p q : Parser) : Prop where
  begin : q.begin = p.begin
  errors : p.errors = []
  errors' : q.errors = []

inductive Reading.Alike : Reading → Reading → Prop
  | same (r : Reading) : Alike r r
  | expression (e : Expr) (m n : Nat) : Alike (.expression (.wrap e m)) (.expression (.wrap e n))

theorem Parser.Alike.next {p q : Parser} (h : p.Alike q) : p.reading.Alike q.reading ∧
    q.afterwards.cursor = p.afterwards.cursor ∧ q.afterwards.symbols = p.afterwards.symbols := by
  have hp := reading_afterwards h.errors
  have hq := reading_afterwards h.errors'
  rw [h.begin] at hq
  cases hf : Reader.form p.begin with
  | ok piece u =>
    rw [hf] at hp hq
    obtain ⟨hreading, hafter⟩ := Prod.mk.inj hp
    obtain ⟨hreading', hafter'⟩ := Prod.mk.inj hq
    rw [hreading, hafter, hreading', hafter']
    refine ⟨?_, rfl, rfl⟩
    cases piece with
    | ending => exact .same _
    | skipped => exact .same _
    | declaration d => exact .same _
    | expression e => exact .expression e _ _
  | error e u =>
    rw [hf] at hp hq
    obtain ⟨hreading, hafter⟩ := Prod.mk.inj hp
    obtain ⟨hreading', hafter'⟩ := Prod.mk.inj hq
    rw [hreading, hafter, hreading', hafter']
    exact ⟨.same _, rfl, rfl⟩

namespace Session

structure InStep (s : Session) (p : Parser) (t : Session) (q : Parser) : Prop where
  sessions : s.Alike t
  parsers : p.Alike q
  spelled : p.cursor.Spelled Unreserved

namespace InStep

variable {p q : Parser}

theorem turn (h : InStep s p t q) : (s.verdict p).Alike (t.verdict q) ∧
    (t.turn q).parser.symbols = (s.turn p).parser.symbols ∧
    InStep (s.turn p).session (s.turn p).parser (t.turn q).session (t.turn q).parser := by
  obtain ⟨hreading, hcursor, hsymbols⟩ := h.parsers.next
  have hspelled := Parser.reading_spelled h.parsers.errors h.spelled
  have hcount := h.sessions.countForm
  suffices hturn : (s.verdict p).Alike (t.verdict q) ∧
      (t.turn q).parser.symbols = (s.turn p).parser.symbols ∧
      (s.turn p).session.Alike (t.turn q).session by
    refine ⟨hturn.1, hturn.2.1, hturn.2.2, ⟨?_, errors_turn s p, errors_turn t q⟩,
      spelled_turn s h.spelled⟩
    unfold Parser.begin
    rw [hturn.2.1, cursor_turn, cursor_turn, hcursor]
  rw [turn_eq, turn_eq, verdict, verdict]
  generalize p.reading = r at hreading hspelled ⊢
  generalize q.reading = r' at hreading ⊢
  cases hreading with
  | expression e m n =>
    obtain ⟨hverdict, halike⟩ := hcount.evaluate hspelled.of_wrap m n
    exact ⟨hverdict, hsymbols, halike⟩
  | same r =>
    cases hspelled with
    | nothing => exact ⟨.same _, hsymbols, h.sessions⟩
    | broken => exact ⟨.same _, hsymbols, h.sessions.unmoved ⟨rfl, rfl⟩ ⟨rfl, rfl⟩⟩
    | ending => exact ⟨.same _, hsymbols, h.sessions⟩
    | declaration hd =>
      obtain ⟨hresult, halike⟩ := hcount.declare hd
      simp only [hresult]
      refine ⟨.same _, ?_, halike⟩
      split
      · exact hsymbols
      · exact congrArg SymbolTable.rollback hsymbols
    | expression he =>
      obtain ⟨hverdict, halike⟩ := hcount.evaluate he p.counter p.counter
      exact ⟨hverdict, hsymbols, halike⟩

theorem goesOn (h : InStep s p t q) : t.GoesOn q ↔ s.GoesOn p := by
  rw [goesOn_iff s h.parsers.errors, goesOn_iff t h.parsers.errors']
  have hverdict := h.turn.1
  generalize s.verdict p = v, t.verdict q = v' at hverdict
  cases hverdict with
  | same v => exact Iff.rfl
  | evaluated _ => exact ⟨fun _ he => (by cases he), fun _ he => (by cases he)⟩

theorem turns (h : InStep s p t q) (seen seen' : Array Event) :
    List.Forall₂ Verdict.Alike (s.verdicts p) (t.verdicts q) ∧
      (s.turns p seen).1.Alike (t.turns q seen').1 ∧
      (t.turns q seen').2.1.symbols = (s.turns p seen).2.1.symbols := by
  induction s, p using Session.visits.induct generalizing t q seen seen' with
  | case1 s p u =>
    rename_i ih
    obtain ⟨hverdict, hsymbols, hnext⟩ := h.turn
    by_cases hgo : s.GoesOn p
    · have hgo' := h.goesOn.mpr hgo
      rw [turns_of_goesOn hgo, turns_of_goesOn hgo', verdicts, verdicts, visits_of_goesOn hgo,
        visits_of_goesOn hgo']
      obtain ⟨hverdicts, hlast⟩ := ih hgo hnext _ _
      exact ⟨.cons hverdict hverdicts, hlast⟩
    · have hgo' := fun hgo' => hgo (h.goesOn.mp hgo')
      rw [turns_of_not_goesOn hgo, turns_of_not_goesOn hgo', verdicts, verdicts,
        visits_of_not_goesOn hgo, visits_of_not_goesOn hgo']
      exact ⟨.cons hverdict .nil, hnext.sessions, hsymbols⟩

end InStep

end Session

end FormCompiler
