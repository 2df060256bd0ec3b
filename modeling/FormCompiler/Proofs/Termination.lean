import FormCompiler.Proofs.Machine.Faults
import FormCompiler.Proofs.Parser.Next
import FormCompiler.Proofs.Verification

/-!
Calls of what generators have made come to an end, whatever the functions expect of each other, and
so does every session: each turn takes a token, and each call it makes ends.
-/

namespace FormCompiler

def Func.Generated (f : Func) : Prop := ∃ g : Generator, g.Arises ∧ f ∈ g.unit.bodies

/-- All code was made by generators, each at some level, with any functions in common or none. -/
def Program.Generated (p : Program) : Prop := ∀ name f, p.code.get? name = some f → f.Generated

namespace Generator

variable {g : Generator}

def Sound (g : Generator) : Prop :=
  ∀ name f, g.unit.get? name = some f → f.isDeclaration = false → ∃ w, f.Sound w

theorem Sound.build (h : g.Sound) (ht : g.Tidy) {p : Prototype} {body : List Stmt}
    {result : Option Expr} {f : Func} {u : CodeUnit} (hb : g.Builds p body result f u)
    (registry : Registry) :
    Sound { g with unit := u.insert (Pass.runAll g.options.level.passes f).func, registry } := by
  intro name f' hf' hbody
  simp only [CodeUnit.get?_insert] at hf'
  split at hf'
  next =>
    cases hf'
    exact (hb.improves g.options.level).sound
  next => exact h name f' ((ht.declared hb.declares hf').2 hbody) hbody

theorem Arises.sound (h : g.Arises) : g.Sound := by
  induction h with
  | start layout options => exact fun name f hf => (by cases hf)
  | @declaration g d hg ih =>
    cases hresult : (g.declaration d).result with
    | error e =>
      rw [declaration_error hresult]
      exact ih
    | ok name =>
      cases d with
      | prototype p =>
        rw [prototype_ok hresult]
        exact fun name f hf hbody => ih name f ((hg.tidy.workUnit _ hf).2 hbody) hbody
      | function p body result =>
        obtain ⟨f, u, hb, heq⟩ := function_ok hg.tidy.registry hresult
        rw [heq]
        exact ih.build hg.tidy hb _
      | variableOf type name span => exact ih
      | variableAs type name init span => exact ih
  | @anonymous g a hg ih =>
    cases hresult : (g.anonymous a).result with
    | error e =>
      rw [anonymous_error hresult]
      exact ih
    | ok name =>
      obtain ⟨f, u, hb, heq⟩ := anonymous_ok hg.tidy.registry hresult
      rw [heq]
      exact ih.build hg.tidy hb _
  | @signature? g name hg ih =>
    intro other f hf hbody
    have hdeclares := (Registry.Declares.refl (u := g.unit)).resolve hg.tidy.registry name
    rcases hdeclares.get? other with he | ⟨_, s, _, he⟩
    · exact ih other f (he.symm.trans hf) hbody
    · obtain rfl : ({ signature := s } : Func) = f := Option.some.inj (he.symm.trans hf)
      cases hbody
  | takeUnit _ _ => exact fun name f hf => (by cases hf)

end Generator

theorem Func.Generated.sound {f : Func} (h : f.Generated) : ∃ w, f.Sound w := by
  obtain ⟨g, hg, hf⟩ := h
  obtain ⟨hmem, hbody⟩ := List.mem_filter.mp hf
  obtain ⟨name, hget⟩ := Table.exists_get?_of_mem_values hmem
  exact hg.sound name f hget (by simpa using hbody)

theorem Program.Generated.sound {p : Program} (h : p.Generated) : p.Sound :=
  fun name f hf => (h name f hf).sound

theorem Engine.sound_withBodies {e : Engine} (h : e.program.Sound) {fs : List Func}
    (hfs : ∀ f ∈ fs, ∃ w, f.Sound w) : (e.withBodies fs).program.Sound := by
  have hfolded : ∀ (fs : List Func) (code : Table Func), (∀ f ∈ fs, ∃ w, f.Sound w) →
      (∀ name f, code.get? name = some f → ∃ w, f.Sound w) → ∀ name f,
      (fs.foldl (fun code f => code.insert f.name f) code).get? name = some f → ∃ w, f.Sound w := by
    intro fs
    induction fs with
    | nil => exact fun _ _ hcode => hcode
    | cons f fs ih =>
      intro code hfs hcode
      obtain ⟨hf, hfs⟩ := List.forall_mem_cons.mp hfs
      apply ih _ hfs
      intro name f' hf'
      rw [Table.get?_insert] at hf'
      split at hf'
      · exact Option.some.inj hf' ▸ hf
      · exact hcode name f' hf'
  exact hfolded fs e.program.code hfs h

theorem Engine.commit_withSteps (e : Engine) (u : CodeUnit) (steps : Nat) :
    { e with steps }.commit u =
      ((e.commit u).1, { (e.commit u).2.1 with steps }, (e.commit u).2.2) := by
  unfold commit
  by_cases hl : u.layout = e.layout
  · simp only [hl, ne_eq, not_true, if_false]
    cases u.bodies.forM fun f => f.verify u with
    | error error => rfl
    | ok v => rfl
  · simp only [ne_eq, hl, not_false_iff, if_true]

/-- From some limit on, a call of sound code gives the same whatever the limit is. -/
theorem Engine.exists_call {e : Engine} (h : e.program.Sound) (name : String) (args : List Value) :
    ∃ n called, OwnFaults (Called.result called) ∧
      ∀ steps, n ≤ steps → { e with steps }.call name args = called := by
  cases hargs : constants name args with
  | error fault =>
    refine ⟨0, ⟨.error fault, []⟩, ?_, fun steps _ => by simp only [call, hargs]⟩
    refine OwnFaults.mapM (fun arg => ?_) args fault hargs |> OwnFaults.error
    cases arg with
    | of c => exact .ok c
    | void => exact .error (Fault.isOwn_misfit _ _)
  | ok cs =>
    obtain ⟨n, outcome, hown, hcall⟩ := h.call name cs
    refine ⟨n, ⟨outcome.result.map Value.ofConst?, outcome.calls.reverse⟩, hown.map, ?_⟩
    intro steps hle
    simp only [call, hargs, hcall steps hle]

def Verdict.IsGivenUp (v : Verdict) : Prop :=
  ∃ limit calls, v = .evaluated (some ⟨.error (.tooLong limit), calls⟩)

theorem Verdict.not_isGivenUp {v : Verdict} (h : ∀ called, v ≠ .evaluated (some called)) :
    ¬ v.IsGivenUp := by
  rintro ⟨limit, calls, hv⟩
  exact h _ hv

namespace Session

def withSteps (s : Session) (steps : Nat) : Session :=
  { s with engine := { s.engine with steps } }

theorem withSteps_mk (generator : Generator) (engine : Engine) (printCode : Bool) (stats : Stats)
    (steps : Nat) : withSteps ⟨generator, engine, printCode, stats⟩ steps =
      ⟨generator, { engine with steps }, printCode, stats⟩ := rfl

variable {s s' : Session}

theorem Settled.withSteps (h : s.Settled) (steps : Nat) : (s.withSteps steps).Settled :=
  ⟨h.ready, h.layout⟩

theorem commit_withSteps (s : Session) (steps : Nat) :
    (s.withSteps steps).commit =
      ⟨s.commit.result, s.commit.session.withSteps steps, s.commit.events⟩ := by
  simp only [commit, Session.withSteps, Engine.commit_withSteps]
  rfl

theorem declare_withSteps (s : Session) (d : Declaration) (steps : Nat) :
    (s.withSteps steps).declare d =
      ⟨(s.declare d).result, (s.declare d).session.withSteps steps, (s.declare d).events⟩ := by
  obtain ⟨generator, engine, printCode, stats⟩ := s
  have hcommit :=
    commit_withSteps ⟨(generator.declaration d).generator, engine, printCode, stats⟩ steps
  simp only [declare, Session.withSteps] at hcommit ⊢
  cases (generator.declaration d).result with
  | error e => rfl
  | ok name =>
    cases name with
    | none => rfl
    | some name =>
      simp only [hcommit]
      cases (commit _).result with
      | ok u => rfl
      | error fault => rfl

theorem exists_invoke (s : Session) (hp : s.engine.program.Sound) (name : String) :
    ∃ n called, OwnFaults (Engine.Called.result called) ∧
      ∀ steps, n ≤ steps → (s.withSteps steps).invoke name = called := by
  cases hl : s.engine.lookup? name with
  | none =>
    refine ⟨0, ⟨.error (.unresolved name), []⟩, .error fun _ h => (by cases h), fun steps _ => ?_⟩
    simp only [invoke, show (s.withSteps steps).engine.lookup? name = none from hl]
  | some signature =>
    by_cases hlength : ([] : List Value).length = signature.params.length
    · obtain ⟨n, called, hown, hcall⟩ := Engine.exists_call hp signature.name []
      refine ⟨n, called, hown, fun steps hle => ?_⟩
      simp only [invoke, show (s.withSteps steps).engine.lookup? name = some signature from hl,
        Engine.callAs, ne_eq, hlength, not_true, if_false]
      exact hcall steps hle
    · refine ⟨0, ⟨.error (.arity signature.name signature.params.length 0), []⟩,
        .error fun _ h => (by cases h), fun steps _ => ?_⟩
      simp only [invoke, show (s.withSteps steps).engine.lookup? name = some signature from hl,
        Engine.callAs, ne_eq, hlength, not_false_iff, if_true]
      rfl

theorem Settled.evaluate_withSteps (h : s.Settled) (hp : s.engine.program.Sound) (a : Anonymous) :
    ∃ (n : Nat) (s' : Session) (answer : Option Engine.Called),
      ¬ (Verdict.evaluated answer).IsGivenUp ∧ ∀ steps, n ≤ steps →
        ((s.withSteps steps).evaluate a).session = s'.withSteps steps ∧
        (s.withSteps steps).answer? a = answer := by
  obtain ⟨generator, engine, printCode, stats⟩ := s
  let t : Session := ⟨(generator.anonymous a).generator, engine, printCode, stats⟩
  cases hresult : (generator.anonymous a).result with
  | error e =>
    refine ⟨0, t.countFailed, none, Verdict.not_isGivenUp (by simp), fun steps _ => ?_⟩
    simp only [evaluate, answer?, withSteps_mk, hresult]
    exact ⟨rfl, trivial⟩
  | ok name =>
    obtain ⟨f, u, hb, hgenerator⟩ := Generator.anonymous_ok h.ready.registry hresult
    obtain ⟨hok, hcommits⟩ := h.commit_builds t hb hgenerator rfl
    have hsound : t.commit.session.engine.program.Sound := by
      rw [hcommits.engine]
      refine Engine.sound_withBodies hp fun f' hf' => ?_
      rw [List.mem_singleton.mp hf']
      exact (hb.improves generator.options.level).sound
    obtain ⟨n, called, hown, hinvoke⟩ := t.commit.session.exists_invoke hsound name
    have hcommit : ∀ steps,
        commit ⟨(generator.anonymous a).generator, { engine with steps }, printCode, stats⟩ =
          ⟨.ok (), t.commit.session.withSteps steps, t.commit.events⟩ := fun steps =>
      (commit_withSteps t steps).trans (by rw [hok])
    obtain ⟨result, calls⟩ := called
    cases result with
    | ok value =>
      refine ⟨n, t.commit.session.countEvaluated, some ⟨.ok value, calls⟩,
        (by rintro ⟨_, _, hv⟩; cases hv), fun steps hle => ?_⟩
      simp only [evaluate, answer?, withSteps_mk, hresult, hcommit, hinvoke steps hle]
      exact ⟨rfl, trivial⟩
    | error fault =>
      refine ⟨n, t.commit.session.countFailed, some ⟨.error fault, calls⟩, ?_,
        fun steps hle => ?_⟩
      · rintro ⟨limit, _, hv⟩
        cases hv
        exact hown _ rfl limit rfl
      · simp only [evaluate, answer?, withSteps_mk, hresult, hcommit, hinvoke steps hle]
        exact ⟨rfl, trivial⟩

theorem sound_of_commits (hp : s.engine.program.Sound) {registry : Registry} {p : Prototype}
    {body : List Stmt} {result : Option Expr} {f : Func} {u : CodeUnit}
    (hb : s.generator.Builds p body result f u)
    (hs : s.Commits s' registry [s.generator.optimized f]) : s'.engine.program.Sound := by
  rw [hs.engine]
  refine Engine.sound_withBodies hp fun f' hf' => ?_
  rw [List.mem_singleton.mp hf']
  exact (hb.improves s.generator.options.level).sound

theorem Declared.sound {d : Declaration} {accepted : Bool} (hd : s.Declared s' d accepted)
    (hp : s.engine.program.Sound) : s'.engine.program.Sound := by
  cases hd with
  | refused _ hs => rwa [hs.engine]
  | recorded _ hs => rwa [hs.engine]
  | prototype _ hs => rw [hs.engine]; exact hp
  | function _ hb hs => exact sound_of_commits hp hb hs

theorem Evaluated.sound {a : Anonymous} {answer : Option Engine.Called}
    (ha : s.Evaluated s' a answer) (hp : s.engine.program.Sound) : s'.engine.program.Sound := by
  cases ha with
  | refused _ hs => rwa [hs.engine]
  | called hb hs => exact sound_of_commits hp hb hs

theorem Settled.sound_turn (h : s.Settled) (hp : s.engine.program.Sound) (p : Parser) :
    (s.turn p).session.engine.program.Sound := by
  rw [turn_eq]
  cases p.reading with
  | nothing => exact hp
  | broken => exact hp
  | ending => exact hp
  | faulty => exact hp
  | declaration d => exact (h.countForm.declared d).sound hp
  | expression a => exact (h.countForm.evaluated a).sound hp

theorem Settled.turn_withSteps (h : s.Settled) (hp : s.engine.program.Sound) (p : Parser) :
    ∃ (n : Nat) (s' : Session) (q : Parser) (v : Verdict), q.errors = [] ∧
      q.remaining = p.afterwards.remaining ∧ ¬ v.IsGivenUp ∧ ∀ steps, n ≤ steps →
        ((s.withSteps steps).turn p).session = s'.withSteps steps ∧
        ((s.withSteps steps).turn p).parser = q ∧ (s.withSteps steps).verdict p = v := by
  simp only [turn_eq, verdict]
  cases p.reading with
  | nothing =>
    exact ⟨0, s, _, _, rfl, rfl, Verdict.not_isGivenUp (by simp), fun _ _ => ⟨rfl, rfl, rfl⟩⟩
  | broken =>
    exact ⟨0, s.countForm.countFailed, _, _, rfl, rfl, Verdict.not_isGivenUp (by simp),
      fun _ _ => ⟨rfl, rfl, rfl⟩⟩
  | ending =>
    exact ⟨0, s, _, _, rfl, rfl, Verdict.not_isGivenUp (by simp), fun _ _ => ⟨rfl, rfl, rfl⟩⟩
  | faulty =>
    exact ⟨0, s.countForm.countFailed, p.afterwards.reject, _, rfl, rfl,
      Verdict.not_isGivenUp (by simp), fun _ _ => ⟨rfl, rfl, rfl⟩⟩
  | declaration d =>
    have hdeclare := declare_withSteps s.countForm d
    refine ⟨0, (s.countForm.declare d).session,
      if (s.countForm.declare d).result then p.afterwards else p.afterwards.reject,
      .declared (s.countForm.declare d).result, ?_, ?_, Verdict.not_isGivenUp (by simp),
      fun steps _ => ?_⟩
    · split <;> rfl
    · split <;> rfl
    · simp only [show (s.withSteps steps).countForm = s.countForm.withSteps steps from rfl,
        hdeclare steps]
      exact ⟨trivial, trivial, trivial⟩
  | expression a =>
    obtain ⟨n, s', answer, hanswer, hsteps⟩ := h.countForm.evaluate_withSteps hp a
    refine ⟨n, s', p.afterwards.countAnonymous, .evaluated answer, rfl, rfl, hanswer, ?_⟩
    intro steps hle
    obtain ⟨hsession, hsame⟩ := hsteps steps hle
    exact ⟨hsession, rfl, congrArg Verdict.evaluated hsame⟩

theorem Settled.verdicts_withSteps (h : s.Settled) (hp : s.engine.program.Sound) (p : Parser)
    (herrors : p.errors = []) : ∃ n vs, (∀ v ∈ vs, ¬ Verdict.IsGivenUp v) ∧ ∀ steps, n ≤ steps →
      (s.withSteps steps).verdicts p = vs ++ [.ended] := by
  induction hn : p.remaining using Nat.strongRecOn generalizing s p with
  | ind k ih =>
    subst hn
    by_cases hend : p.reading = .ending
    · refine ⟨0, [], fun _ hv => (by cases hv), fun steps _ => ?_⟩
      have hstops : ¬ (s.withSteps steps).GoesOn p := by
        intro hgoes
        have hended := hgoes.1
        rw [turn_eq, hend] at hended
        cases hended
      simp only [verdicts, visits_of_not_goesOn hstops, List.map_cons, List.map_nil, verdict, hend]
      rfl
    · obtain ⟨n, s', q, v, hq, hremaining, hv, hsteps⟩ := h.turn_withSteps hp p
      have hless : q.remaining < p.remaining :=
        hremaining ▸ Parser.remaining_afterwards_lt herrors hend
      have hnext := (hsteps n (Nat.le_refl n)).1
      have hs' : s'.Settled := by
        have := (h.withSteps n).turn p
        rw [hnext] at this
        exact ⟨this.ready, this.layout⟩
      have hp' : s'.engine.program.Sound := by
        have := (h.withSteps n).sound_turn hp p
        rw [hnext] at this
        exact this
      obtain ⟨n', vs, hvs, hrest⟩ := ih q.remaining hless hs' hp' q hq rfl
      refine ⟨max n n', v :: vs, List.forall_mem_cons.mpr ⟨hv, hvs⟩, fun steps hle => ?_⟩
      obtain ⟨hsession, hparser, hverdict⟩ := hsteps steps (by omega)
      have hgoes : (s.withSteps steps).GoesOn p := by
        refine ⟨?_, by rw [hparser]; exact hless⟩
        rw [turn_eq]
        cases hr : p.reading with
        | ending => exact absurd hr hend
        | _ => rfl
      rw [verdicts, visits_of_goesOn hgoes, List.map_cons, hverdict, hsession, hparser]
      exact congrArg (List.cons v) (hrest steps (by omega))

end Session

/-- A call of code that generators have made, with any arguments, ends after finitely many steps,
whatever the functions expect of each other and however deep calls may nest. So a session over any
engine that holds such code reads its input to the end, and never gives up an evaluation, if only
the limit on steps is high enough. -/
theorem generated_terminates :
    (∀ p : Program, p.Generated → ∀ name args, ∃ n outcome, ∀ fuel, n ≤ fuel →
      p.call fuel name args = some outcome) ∧
    ∀ engine : Engine, engine.program.Generated → ∀ options printCode stream,
      ∃ n vs, (∀ v ∈ vs, ¬ Verdict.IsGivenUp v) ∧ ∀ steps, n ≤ steps →
        Session.verdicts ⟨.start engine.layout options, { engine with steps }, printCode, {}⟩
          (.ofStream stream) = vs ++ [.ended] := by
  refine ⟨?_, ?_⟩
  · intro p hp name args
    obtain ⟨n, outcome, _, h⟩ := hp.sound.call name args
    exact ⟨n, outcome, h⟩
  · intro engine hengine options printCode stream
    exact (Session.Settled.start engine options printCode {}).verdicts_withSteps hengine.sound
      (.ofStream stream) rfl

theorem generated_factorialProgram : factorialProgram.Generated := by
  intro name f hf
  obtain rfl : factorialCode = f := by
    simp only [factorialProgram, Table.get?_insert] at hf
    split at hf
    · exact Option.some.inj hf
    · cases hf
  have hbodies : afterFactorial.unit.bodies = [factorialCode] := by decide +kernel
  exact ⟨afterFactorial, arises_afterFactorial, hbodies ▸ List.mem_singleton.mpr rfl⟩

def mistaken : TokenStream where
  pending := [.typeWord .double, .name "f", .openParen, .typeWord .double, .name "x", .closeParen,
    .semicolon, .name "f", .openParen, .int "2", .closeParen, .semicolon].map (⟨·, .nowhere⟩)
  ending := .nowhere

theorem generated_terminates_factorial :
    factorialProgram.Generated ∧
    (∃ n outcome, ∀ fuel, n ≤ fuel →
      factorialProgram.call fuel "f" [.i32 (-1)] = some outcome) ∧
    ∃ n vs, (∀ v ∈ vs, ¬ Verdict.IsGivenUp v) ∧ ∀ steps, n ≤ steps →
      Session.verdicts ⟨.start .host { level := .o1 }, { program := factorialProgram, steps },
        false, {}⟩ (.ofStream mistaken) = vs ++ [.ended] := by
  refine ⟨generated_factorialProgram, ?_, ?_⟩
  · exact generated_terminates.1 factorialProgram generated_factorialProgram "f" [.i32 (-1)]
  · exact generated_terminates.2 { program := factorialProgram } generated_factorialProgram _ _ _

end FormCompiler
