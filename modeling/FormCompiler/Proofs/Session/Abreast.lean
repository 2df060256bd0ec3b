import FormCompiler.Proofs.Parser.Abreast
import FormCompiler.Proofs.Session.Alike

namespace FormCompiler

theorem Signature.sameShape_bare {s t s' t' : Signature} (hs : s'.bare = s.bare)
    (ht : t'.bare = t.bare) : s'.sameShape t' = s.sameShape t := by
  obtain ⟨hname, hreturns, hparams⟩ := bare_eq_iff.mp hs
  obtain ⟨hname', hreturns', hparams'⟩ := bare_eq_iff.mp ht
  unfold sameShape
  rw [hname, hreturns, hparams, hname', hreturns', hparams']

namespace Registry

variable {r r' : Registry}

theorem Alike.insert (h : r.Alike r') {p p' : Prototype}
    (hsignature : p'.signature.bare = p.signature.bare) (isDefined : Bool) :
    Alike (Table.insert r p.name ⟨p, isDefined⟩) (Table.insert r' p'.name ⟨p', isDefined⟩) := by
  have hname : p'.name = p.name := (Signature.bare_eq_iff.mp hsignature).1
  rw [hname]
  refine ⟨fun name => ?_, fun name => ?_⟩
  · have hname := h.isDefined name
    unfold Registry.isDefined at hname ⊢
    rw [Table.get?_insert, Table.get?_insert]
    by_cases he : p.name = name
    · rw [if_pos he, if_pos he]
    · rw [if_neg he, if_neg he]
      exact hname
  · have hname := h.signature? name
    unfold Registry.signature? at hname ⊢
    rw [Table.get?_insert, Table.get?_insert]
    by_cases he : p.name = name
    · rw [if_pos he, if_pos he]
      exact congrArg some hsignature
    · rw [if_neg he, if_neg he]
      exact hname

theorem Alike.declare (h : r.Alike r') {p p' : Prototype}
    (hsignature : p'.signature.bare = p.signature.bare) : (r.declare p).Alike (r'.declare p') := by
  have hname : p'.name = p.name := (Signature.bare_eq_iff.mp hsignature).1
  unfold Registry.declare
  rw [show r'.isDefined p'.name = r.isDefined p.name by rw [hname, h.isDefined]]
  exact h.insert hsignature _

end Registry

namespace Generator

structure Abreast (g g' : Generator) : Prop where
  ready : g.Ready
  ready' : g'.Ready
  registry : g.registry.Alike g'.registry
  options : g'.options = g.options

namespace Abreast

variable {g g' : Generator}

theorem env (h : g.Abreast g') : LowerEnv.Abreast ⟨g.registry, g.options.unsignedCompare⟩
    ⟨g'.registry, g'.options.unsignedCompare⟩ :=
  ⟨h.registry, h.ready.registry, h.ready'.registry, by rw [h.options]⟩

theorem workStart (h : g.Abreast g') (s : Signature) :
    (g.workStart s).Abreast (g'.workStart s) := by
  refine ⟨fun callee => ?_, rfl, rfl⟩
  change ((g'.workUnit s).get? callee).map _ = ((g.workUnit s).get? callee).map _
  rw [h.ready.get?_workUnit, h.ready'.get?_workUnit]

theorem checkRedefinition (h : g.Abreast g') {p p' : Prototype}
    (hsignature : p'.signature.bare = p.signature.bare) (withBody : Bool) :
    g'.checkRedefinition p' withBody = g.checkRedefinition p withBody := by
  have hname : p'.name = p.name := (Signature.bare_eq_iff.mp hsignature).1
  have hknown := h.registry.signature? p.name
  have hsame : (g'.registry.signature? p.name).any (·.sameShape p'.signature) =
      (g.registry.signature? p.name).any (·.sameShape p.signature) := by
    generalize g.registry.signature? p.name = known,
      g'.registry.signature? p.name = known' at hknown
    cases known with
    | none =>
      obtain rfl : known' = none := Option.map_eq_none_iff.mp hknown
      rfl
    | some signature =>
      obtain ⟨signature', rfl, hbare⟩ := Option.map_eq_some_iff.mp hknown
      exact Signature.sameShape_bare hbare hsignature
  rw [checkRedefinition_eq, checkRedefinition_eq, hname, h.registry.isDefined, h.options, hsame]

theorem optimized (h : g.Abreast g') (f : Func) : g'.optimized f = g.optimized f := by
  unfold Generator.optimized
  rw [h.options]

theorem build (h : g.Abreast g') {p p' : Prototype} (hsignature : p'.signature = p.signature)
    {body body' : List Stmt} (hbody : List.Forall₂ Stmt.Alike body body')
    {result result' : Option Expr} (hresult : Option.Rel Expr.Alike result result') :
    (∃ e e', (g.build p body result).result = .error e ∧
      (g'.build p' body' result').result = .error e') ∨
    ∃ f u u', g.Makes p body result f u ∧ g'.Makes p' body' result' f u' := by
  have hmatch := match_lowerBody h.env p.signature hbody hresult _ _ (h.workStart p.signature)
  cases hl : lowerBody ⟨g.registry, g.options.unsignedCompare⟩ p.signature body result
      (g.workStart p.signature) with
  | error e work =>
    cases hl' : lowerBody ⟨g'.registry, g'.options.unsignedCompare⟩ p.signature body' result'
        (g'.workStart p.signature) with
    | error e' work' => exact .inl ⟨e, e', build_refused hl, build_refused (hsignature ▸ hl')⟩
    | ok u' work' => rw [hl, hl'] at hmatch; cases hmatch
  | ok u work =>
    cases hl' : lowerBody ⟨g'.registry, g'.options.unsignedCompare⟩ p.signature body' result'
        (g'.workStart p.signature) with
    | error e' work' => rw [hl, hl'] at hmatch; cases hmatch
    | ok u' work' =>
      rw [hl, hl'] at hmatch
      cases hmatch with
      | ok _ hwork =>
        have hmakes' : g'.Makes p' body' result' work'.builder.func work'.unit :=
          makes_lowered h.ready'.registry (hsignature ▸ hl')
        rw [hwork.builder] at hmakes'
        exact .inr ⟨_, _, _, makes_lowered h.ready.registry hl, hmakes'⟩

end Abreast

end Generator

namespace Session

structure Abreast (s s' : Session) : Prop where
  settled : s.Settled
  settled' : s'.Settled
  registry : s.generator.registry.Alike s'.generator.registry
  options : s'.generator.options = s.generator.options
  engine : s'.engine = s.engine

namespace Abreast

variable {s s' t t' : Session}

theorem generator (h : s.Abreast s') : s.generator.Abreast s'.generator :=
  ⟨h.settled.ready, h.settled'.ready, h.registry, h.options⟩

theorem unmoved (h : s.Abreast s') (hs : s.Unmoved t) (hs' : s'.Unmoved t') : t.Abreast t' where
  settled := h.settled.unmoved hs
  settled' := h.settled'.unmoved hs'
  registry := by rw [hs.generator, hs'.generator]; exact h.registry
  options := by rw [hs.generator, hs'.generator, h.options]
  engine := by rw [hs.engine, hs'.engine, h.engine]

theorem countForm (h : s.Abreast s') : s.countForm.Abreast s'.countForm :=
  h.unmoved ⟨rfl, rfl⟩ ⟨rfl, rfl⟩

theorem commits (h : s.Abreast s') {r r' : Registry} (halike : r.Alike r') (hr : r.Keyed)
    (hr' : r'.Keyed) {fs : List Func} (hs : s.Commits t r fs) (hs' : s'.Commits t' r' fs) :
    t.Abreast t' where
  settled := h.settled.commits hr hs
  settled' := h.settled'.commits hr' hs'
  registry := by rw [hs.generator, hs'.generator]; exact halike
  options := by rw [hs.generator, hs'.generator]; exact h.options
  engine := by rw [hs.engine, hs'.engine, h.engine]

theorem declare (h : s.Abreast s') {d d' : Declaration} (hd : d.Alike d') :
    (s'.declare d').result = (s.declare d).result ∧
      (s.declare d).session.Abreast (s'.declare d').session := by
  have hrefused (e e' : LowerError) (hs : (s.generator.declaration d).result = .error e)
      (hs' : (s'.generator.declaration d').result = .error e') :
      (s'.declare d').result = (s.declare d).result ∧
        (s.declare d).session.Abreast (s'.declare d').session := by
    obtain ⟨hfalse, hs⟩ := Settled.declare_refused hs
    obtain ⟨hfalse', hs'⟩ := Settled.declare_refused hs'
    exact ⟨hfalse'.trans hfalse.symm, h.unmoved hs hs'⟩
  cases hd with
  | variableOf => exact ⟨rfl, h.unmoved ⟨rfl, rfl⟩ ⟨rfl, rfl⟩⟩
  | variableAs => exact ⟨rfl, h.unmoved ⟨rfl, rfl⟩ ⟨rfl, rfl⟩⟩
  | @prototype p p' hsignature =>
    have hc := h.generator.checkRedefinition hsignature false
    cases hc' : s.generator.checkRedefinition p false with
    | error e =>
      rw [hc'] at hc
      exact hrefused e e (Generator.prototype_refused hc') (Generator.prototype_refused hc)
    | ok notes =>
      rw [hc'] at hc
      obtain ⟨htrue, hs⟩ := h.settled.declare_prototype hc'
      obtain ⟨htrue', hs'⟩ := h.settled'.declare_prototype hc
      exact ⟨htrue'.trans htrue.symm, h.commits (h.registry.declare hsignature)
        (h.settled.ready.registry.insert p _) (h.settled'.ready.registry.insert p' _) hs hs'⟩
  | @function p p' body body' result result' hsignature hbody hresult =>
    have hbare := congrArg Signature.bare hsignature
    have hc := h.generator.checkRedefinition hbare true
    cases hc' : s.generator.checkRedefinition p true with
    | error e =>
      rw [hc'] at hc
      exact hrefused e e (Generator.function_refused hc') (Generator.function_refused hc)
    | ok notes =>
      rw [hc'] at hc
      rcases h.generator.build hsignature hbody hresult with ⟨e, e', he, he'⟩ | ⟨f, u, u', hm, hm'⟩
      · exact hrefused e e' (Generator.function_unbuilt hc' he) (Generator.function_unbuilt hc he')
      · obtain ⟨htrue, hs⟩ := h.settled.declare_function hc' hm
        obtain ⟨htrue', hs'⟩ := h.settled'.declare_function hc hm'
        rw [h.generator.optimized] at hs'
        exact ⟨htrue'.trans htrue.symm, h.commits (h.registry.insert hbare true)
          (h.settled.ready.registry.insert p _) (h.settled'.ready.registry.insert p' _) hs hs'⟩

theorem invoke (h : s.Abreast s') (name : String) : s'.invoke name = s.invoke name := by
  unfold Session.invoke
  rw [h.engine]

theorem evaluate (h : s.Abreast s') {e e' : Expr} (he : e.Alike e') (n : Nat) :
    s'.answer? (.wrap e' n) = s.answer? (.wrap e n) ∧
      (s.evaluate (.wrap e n)).session.Abreast (s'.evaluate (.wrap e' n)).session := by
  have hsignature : (Anonymous.wrap e' n).proto.signature =
      (Anonymous.wrap e n).proto.signature := by
    simp only [Anonymous.wrap, Prototype.signature, he.ty]
  rcases h.generator.build hsignature .nil (.some he) with
    ⟨error, error', hs, hs'⟩ | ⟨f, u, u', hm, hm'⟩
  · obtain ⟨hnone, hs⟩ := Settled.evaluate_refused (a := .wrap e n) hs
    obtain ⟨hnone', hs'⟩ := Settled.evaluate_refused (a := .wrap e' n) hs'
    exact ⟨hnone'.trans hnone.symm, h.unmoved hs hs'⟩
  · obtain ⟨hanswer, hs⟩ := h.settled.evaluate_function (a := .wrap e n) hm
    obtain ⟨hanswer', hs'⟩ := h.settled'.evaluate_function (a := .wrap e' n) hm'
    rw [h.generator.optimized] at hs'
    have hafter := h.commits h.registry h.settled.ready.registry h.settled'.ready.registry hs hs'
    rw [hanswer, hanswer']
    exact ⟨congrArg some (hafter.invoke _), hafter⟩

end Abreast

end Session

/-- What is in doubt after a form with this verdict, which leaves `last` in doubt if it is a
declaration that is accepted. -/
def Doubts.after (doubts last : Doubts) : Verdict → Doubts
  | .declared true => last
  | _ => doubts

/-- Whether the forms of these turns look up nothing that is in doubt, unless it does no harm. -/
def Doubts.heeded : Doubts → List (Session × Parser) → Bool
  | _, [] => true
  | doubts, (s, p) :: visits =>
    match doubts.afterForm? p.symbols p.formKinds with
    | some last => heeded (doubts.after last (s.verdict p)) visits
    | none => false

namespace Doubts

theorem afterForm?_nil (t : SymbolTable) (kinds : List Kind) : afterForm? [] t kinds = some [] := by
  unfold afterForm?
  split
  · exact settle?_clear (fun _ => List.not_mem_nil) false
  · rfl

theorem after_nil (v : Verdict) : after [] [] v = [] := by
  unfold after
  split <;> rfl

theorem heeded_nil (visits : List (Session × Parser)) : heeded [] visits = true := by
  induction visits with
  | nil => rfl
  | cons v visits ih =>
    obtain ⟨s, p⟩ := v
    simp only [heeded, afterForm?_nil, after_nil]
    exact ih

theorem heeded_visits {s : Session} {p : Parser} {doubts : Doubts}
    (h : doubts.heeded (s.visits p) = true) : ∃ last,
      doubts.afterForm? p.symbols p.formKinds = some last ∧
        (doubts.after last (s.verdict p)).heeded (s.visits p).tail = true := by
  rw [Session.visits, heeded] at h
  cases hform : doubts.afterForm? p.symbols p.formKinds with
  | none =>
    rw [hform] at h
    cases h
  | some last =>
    rw [hform] at h
    rw [Session.visits]
    exact ⟨last, rfl, h⟩

end Doubts

namespace Session

namespace Abreast

variable {s s' : Session} {p p' : Parser} {doubts last : Doubts}

/-- Where the next form is read alike, it has the same verdict, and both sessions go on before the
same tokens. -/
theorem turn (h : s.Abreast s') (hp : p.Level doubts p') (hnext : Parser.NextAlike last p p') :
    s'.verdict p' = s.verdict p ∧ (s.turn p).session.Abreast (s'.turn p').session ∧
      (s.turn p).parser.Abreast (doubts.after last (s.verdict p)) (s'.turn p').parser := by
  suffices hturn : s'.verdict p' = s.verdict p ∧
      (s.turn p).session.Abreast (s'.turn p').session ∧
      (s'.turn p').parser.counter = (s.turn p).parser.counter ∧
      (s.turn p).parser.symbols.AgreeBut (doubts.after last (s.verdict p))
        (s'.turn p').parser.symbols by
    obtain ⟨hverdict, hsession, hcounter, htables⟩ := hturn
    refine ⟨hverdict, hsession, ⟨errors_turn s p, errors_turn s' p', hcounter,
      spelled_turn s hp.named, htables⟩, ?_⟩
    rw [cursor_turn, cursor_turn, hnext.kinds]
  have hcount := h.countForm
  have hcounter : p'.afterwards.counter = p.afterwards.counter := by
    rw [Parser.counter_afterwards hp.errors, Parser.counter_afterwards hp.errors', hp.counter]
  have hback {q : Parser} (hq : q.errors = []) :
      q.afterwards.symbols.rollback.entries = q.symbols.entries :=
    (congrArg SymbolTable.entries (Parser.rollback_afterwards hq)).trans rfl
  have hrejected := hp.tables.of_entries (hback hp.errors) (hback hp.errors')
  have hkept (hno : ∀ d, p.reading ≠ .declaration d) (hno' : ∀ d, p'.reading ≠ .declaration d) :
      p.afterwards.symbols.AgreeBut doubts p'.afterwards.symbols :=
    hp.tables.of_entries (Parser.symbols_afterwards hp.errors hno)
      (Parser.symbols_afterwards hp.errors' hno')
  have hdeclared := hnext.tables
  have hreading := hnext.reading
  rw [turn_eq, turn_eq, verdict, verdict]
  generalize p.reading = r at hreading hkept hdeclared ⊢
  generalize p'.reading = r' at hreading hkept ⊢
  cases hreading with
  | nothing =>
    exact ⟨rfl, h, hcounter, hkept (by simp) (by simp)⟩
  | broken =>
    exact ⟨rfl, h.unmoved ⟨rfl, rfl⟩ ⟨rfl, rfl⟩, hcounter, hkept (by simp) (by simp)⟩
  | ending =>
    exact ⟨rfl, h, hcounter, hkept (by simp) (by simp)⟩
  | @declaration d d' hd =>
    obtain ⟨hresult, hsession⟩ := hcount.declare hd
    refine ⟨congrArg Verdict.declared hresult, hsession, ?_⟩
    simp only [hresult]
    cases (s.countForm.declare d).result with
    | true => exact ⟨hcounter, hdeclared d rfl⟩
    | false => exact ⟨hcounter, hrejected⟩
  | @expression e e' counter he =>
    obtain ⟨hanswer, hsession⟩ := hcount.evaluate he counter
    exact ⟨congrArg Verdict.evaluated hanswer, hsession, congrArg (· + 1) hcounter,
      hkept (by simp) (by simp)⟩

theorem verdicts_turn (h : s.Abreast s') (hp : p.Level doubts p')
    (hnext : Parser.NextAlike last p p')
    (hrest : s.GoesOn p → (s'.turn p').session.verdicts (s'.turn p').parser =
      (s.turn p).session.verdicts (s.turn p).parser) : s'.verdicts p' = s.verdicts p := by
  have hverdict := (h.turn hp hnext).1
  have hgoesOn : s'.GoesOn p' ↔ s.GoesOn p := by
    rw [goesOn_iff s hp.errors, goesOn_iff s' hp.errors', hverdict]
  by_cases hgo : s.GoesOn p
  · rw [Session.verdicts, Session.verdicts, visits_of_goesOn hgo,
      visits_of_goesOn (hgoesOn.mpr hgo)]
    exact congrArg₂ List.cons hverdict (hrest hgo)
  · rw [Session.verdicts, Session.verdicts, visits_of_not_goesOn hgo,
      visits_of_not_goesOn (mt hgoesOn.mp hgo)]
    exact congrArg (fun v => [v]) hverdict

theorem verdicts (h : s.Abreast s') (hp : p.Abreast doubts p')
    (hheeded : doubts.heeded (s.visits p) = true) : s'.verdicts p' = s.verdicts p := by
  induction s, p using Session.visits.induct generalizing s' p' doubts with
  | case1 s p u =>
    rename_i ih
    obtain ⟨last, hform, hrest⟩ := Doubts.heeded_visits hheeded
    have hnext := hp.next hform
    obtain ⟨_, hsession, hparser⟩ := h.turn hp.toLevel hnext
    refine h.verdicts_turn hp.toLevel hnext fun hgo => ih hgo hsession hparser ?_
    rwa [visits_of_goesOn hgo] at hrest

theorem verdicts_of_next (h : s.Abreast s') (hp : p.Level doubts p')
    (hnext : Parser.NextAlike last p p')
    (hrest : (doubts.after last (s.verdict p)).heeded (s.visits p).tail = true) :
    s'.verdicts p' = s.verdicts p := by
  obtain ⟨_, hsession, hparser⟩ := h.turn hp hnext
  refine h.verdicts_turn hp hnext fun hgo => hsession.verdicts hparser ?_
  rwa [visits_of_goesOn hgo] at hrest

theorem reads (h : s.Abreast s) (hp : p.Abreast [] p) {vs : List Verdict} {t : Session} {q : Parser}
    (hr : Reads s p vs t q) : t.Abreast t ∧ q.Abreast [] q := by
  induction hr with
  | nil => exact ⟨h, hp⟩
  | @cons s t p q vs _ _ ih =>
    have hnext := hp.next (Doubts.afterForm?_nil _ _)
    obtain ⟨_, hsession, hparser⟩ := h.turn hp.toLevel hnext
    rw [Doubts.after_nil] at hparser
    exact ih hsession hparser

end Abreast

end Session

end FormCompiler
