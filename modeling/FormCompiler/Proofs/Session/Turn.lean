import FormCompiler.Session

/-!
What a session makes of the forms it reads, one verdict for each turn. All that a session shows and
counts comes from its verdicts.
-/

namespace FormCompiler

/-- What becomes of a form. An expression that is not accepted has no answer. -/
inductive Verdict
  | skipped
  | refused
  | ended
  | declared (accepted : Bool)
  | evaluated (answer : Option Engine.Called)

/-- What a parser reads: nothing of interest, something that is no form, the end, a form with
errors, a declaration, or an expression, which is then wrapped. -/
inductive Reading
  | nothing
  | broken
  | ending
  | faulty
  | declaration (decl : Declaration)
  | expression (anon : Anonymous)

namespace Parser

def afterwards (p : Parser) : Parser := p.next.parser.takeErrors.2

def reading (p : Parser) : Reading :=
  let errors := p.next.parser.errors
  match p.next.result with
  | none => if errors.isEmpty then .nothing else .broken
  | some form =>
    if form.isEnd then .ending
    else if errors.isEmpty then
      match form with
      | .declaration d => .declaration d
      | .anonymous a => .expression a
      | .expression e => .expression (.wrap e p.afterwards.counter)
    else .faulty

end Parser

def Event.isOutput : Event → Bool
  | .note _ => false
  | .printed _ | .written _ => true

def Engine.Called.output (c : Engine.Called) : List Event :=
  let written := c.calls.filterMap fun h =>
    if h.output = "" then none else some (Event.written h.output)
  match c.result with
  | .ok value => written ++ [.printed s!"Evaluated to {value.text}\n"]
  | .error _ => written

def Verdict.output : Verdict → List Event
  | .evaluated (some called) => called.output
  | .skipped | .refused | .ended | .declared _ | .evaluated none => []

def Stats.after (s : Stats) : Verdict → Stats
  | .skipped | .ended => s
  | .declared true => { s with forms := s.forms + 1 }
  | .evaluated (some ⟨.ok _, _⟩) => { s with forms := s.forms + 1, evaluated := s.evaluated + 1 }
  | .refused | .declared false | .evaluated (some ⟨.error _, _⟩) | .evaluated none =>
    { s with forms := s.forms + 1, failed := s.failed + 1 }

namespace Session

def answer? (s : Session) (a : Anonymous) : Option Engine.Called :=
  let lowered := s.generator.anonymous a
  match lowered.result with
  | .error _ => none
  | .ok name =>
    let committed := { s with generator := lowered.generator }.commit
    match committed.result with
    | .error _ => none
    | .ok () => some (committed.session.invoke name)

def verdict (s : Session) (p : Parser) : Verdict :=
  match p.reading with
  | .nothing => .skipped
  | .broken | .faulty => .refused
  | .ending => .ended
  | .declaration d => .declared (s.countForm.declare d).result
  | .expression a => .evaluated (s.countForm.answer? a)

def visits (s : Session) (p : Parser) : List (Session × Parser) :=
  let t := s.turn p
  (s, p) ::
    if _h : t.ended = false ∧ t.parser.remaining < p.remaining then
      visits t.session t.parser
    else []
termination_by p.remaining
decreasing_by exact _h.2

def verdicts (s : Session) (p : Parser) : List Verdict := (s.visits p).map fun v => v.1.verdict v.2

variable (s : Session) (p : Parser)

@[simp] theorem filter_notes (ns : List Note) : (notes ns).filter Event.isOutput = [] := by
  induction ns with
  | nil => rfl
  | cons n ns ih => exact ih

theorem filter_reports (es : List ParseError) :
    (es.map fun e => report e.message).filter Event.isOutput = [] := by
  induction es with
  | nil => rfl
  | cons e es ih => exact ih

@[simp] theorem filter_commit : s.commit.events.filter Event.isOutput = [] := by
  simp only [commit, List.filter_append, filter_notes, List.nil_append, List.append_nil]
  cases s.printCode <;> rfl

theorem declare_output (d : Declaration) : (s.declare d).events.filter Event.isOutput = [] := by
  simp only [declare]
  split
  · simp [report, Event.isOutput]
  · simp
  · split
    · simp [Event.isOutput]
    · simp [report, Event.isOutput]

theorem declare_stats (d : Declaration) :
    (s.countForm.declare d).session.stats =
      s.stats.after (.declared (s.countForm.declare d).result) := by
  simp only [declare]
  split
  · rfl
  · rfl
  · split
    · rfl
    · rfl

theorem evaluate_output (a : Anonymous) :
    (s.evaluate a).events.filter Event.isOutput = (Verdict.evaluated (s.answer? a)).output := by
  have hwritten : ∀ calls : List HostCall, (calls.filterMap fun c =>
      if c.output = "" then none else some (Event.written c.output)).filter Event.isOutput =
        calls.filterMap fun c => if c.output = "" then none else some (Event.written c.output) := by
    intro calls
    rw [List.filter_eq_self]
    intro e he
    obtain ⟨c, _, hc⟩ := List.mem_filterMap.mp he
    split at hc
    · cases hc
    · cases hc
      rfl
  simp only [evaluate, answer?]
  cases (s.generator.anonymous a).result with
  | error e => simp [report, Event.isOutput, Verdict.output]
  | ok name =>
    simp only
    generalize { s with generator := (s.generator.anonymous a).generator } = t
    cases t.commit.result with
    | error fault => simp [report, Event.isOutput, Verdict.output]
    | ok u =>
      simp only [Verdict.output, Engine.Called.output]
      cases (t.commit.session.invoke name).result with
      | ok value => simp [hwritten, Event.isOutput]
      | error fault => simp [hwritten, report, Event.isOutput]

theorem evaluate_stats (a : Anonymous) :
    (s.countForm.evaluate a).session.stats =
      s.stats.after (.evaluated (s.countForm.answer? a)) := by
  simp only [evaluate, answer?]
  cases (s.countForm.generator.anonymous a).result with
  | error e => rfl
  | ok name =>
    simp only
    have hstats : { s.countForm with
        generator := (s.countForm.generator.anonymous a).generator }.commit.session.stats =
          s.countForm.stats := rfl
    revert hstats
    generalize { s.countForm with
      generator := (s.countForm.generator.anonymous a).generator } = t
    intro hstats
    cases t.commit.result with
    | error fault => simp only [countFailed, hstats]; rfl
    | ok u =>
      simp only
      generalize t.commit.session.invoke name = called
      obtain ⟨result, calls⟩ := called
      cases result with
      | ok value => simp only [countEvaluated, hstats]; rfl
      | error fault => simp only [countFailed, hstats]; rfl

def noted (p : Parser) : List Event :=
  notes p.next.notes ++ p.next.parser.errors.map fun e => report e.message

theorem turn_eq : s.turn p =
    match p.reading with
    | .nothing => ⟨s, p.afterwards, noted p, false⟩
    | .broken => ⟨s.countForm.countFailed, p.afterwards, noted p, false⟩
    | .ending => ⟨s, p.afterwards, noted p, true⟩
    | .faulty => ⟨s.countForm.countFailed, p.afterwards.reject, noted p, false⟩
    | .declaration d =>
      let r := s.countForm.declare d
      ⟨r.session, if r.result then p.afterwards else p.afterwards.reject, noted p ++ r.events,
        false⟩
    | .expression a =>
      let r := s.countForm.evaluate a
      ⟨r.session, p.afterwards.countAnonymous, noted p ++ r.events, false⟩ := by
  simp only [turn, Parser.reading, noted, Parser.afterwards, Parser.takeErrors]
  by_cases hempty : p.next.parser.errors.isEmpty = true
  · cases p.next.result with
    | none => simp only [hempty, if_true]
    | some form =>
      simp only [hempty, Bool.not_true, Bool.false_eq_true, if_false, if_true]
      cases form.isEnd with
      | true => rfl
      | false => cases form <;> rfl
  · cases p.next.result with
    | none => simp only [hempty, Bool.false_eq_true, if_false]
    | some form => cases hend : form.isEnd <;> simp [hend, hempty]

theorem filter_noted : (noted p).filter Event.isOutput = [] := by
  simp [noted, filter_reports]

theorem turn_output : (s.turn p).events.filter Event.isOutput = (s.verdict p).output := by
  rw [turn_eq, verdict]
  cases p.reading with
  | nothing => exact filter_noted p
  | broken => exact filter_noted p
  | ending => exact filter_noted p
  | faulty => exact filter_noted p
  | declaration d =>
    simp only [List.filter_append, filter_noted, List.nil_append]
    exact declare_output s.countForm d
  | expression a =>
    simp only [List.filter_append, filter_noted, List.nil_append]
    exact evaluate_output s.countForm a

theorem turn_stats : (s.turn p).session.stats = s.stats.after (s.verdict p) := by
  rw [turn_eq, verdict]
  cases p.reading with
  | nothing => rfl
  | broken => rfl
  | ending => rfl
  | faulty => rfl
  | declaration d => exact declare_stats s d
  | expression a => exact evaluate_stats s a

def GoesOn : Prop :=
  (s.turn p).ended = false ∧ (s.turn p).parser.remaining < p.remaining

variable {s p} in
theorem visits_of_goesOn (h : s.GoesOn p) :
    s.visits p = (s, p) :: (s.turn p).session.visits (s.turn p).parser := by
  rw [visits]
  exact congrArg (List.cons _) (dif_pos h)

variable {s p} in
theorem visits_of_not_goesOn (h : ¬ s.GoesOn p) : s.visits p = [(s, p)] := by
  rw [visits]
  exact congrArg (List.cons _) (dif_neg h)

theorem turns_output (seen : Array Event) :
    (s.turns p seen).2.2.toList.filter Event.isOutput =
      seen.toList.filter Event.isOutput ++ (s.verdicts p).flatMap Verdict.output := by
  fun_induction turns s p seen with
  | case1 s p seen t seen' h ih =>
    have hseen : seen'.toList = seen.toList ++ (s.turn p).events := by simp [seen', t]
    rw [ih, verdicts, verdicts, visits_of_goesOn h, List.map_cons, List.flatMap_cons,
      ← turn_output, hseen, List.filter_append, List.append_assoc]
  | case2 s p seen t seen' h =>
    have hseen : seen'.toList = seen.toList ++ (s.turn p).events := by simp [seen', t]
    rw [verdicts, visits_of_not_goesOn h, List.map_singleton, List.flatMap_singleton,
      ← turn_output]
    simp only [hseen, List.filter_append]

theorem turns_stats (seen : Array Event) :
    (s.turns p seen).1.stats = (s.verdicts p).foldl Stats.after s.stats := by
  fun_induction turns s p seen with
  | case1 s p seen t seen' h ih =>
    rw [ih, verdicts, verdicts, visits_of_goesOn h, List.map_cons, List.foldl_cons, ← turn_stats]
  | case2 s p seen t seen' h =>
    rw [verdicts, visits_of_not_goesOn h, List.map_singleton, List.foldl_cons, List.foldl_nil,
      ← turn_stats]

def visitsOf (text : String) (o : Options) : List (Session × Parser) :=
  (start o).visits (.ofStream (.ofSource (.ofText text)))

def verdictsOf (text : String) (o : Options) : List Verdict :=
  (visitsOf text o).map fun v => v.1.verdict v.2

theorem run_output (stream : TokenStream) :
    (s.run stream).events.filter Event.isOutput =
      (s.verdicts (.ofStream stream)).flatMap Verdict.output := by
  have h := turns_output s (.ofStream stream) #[]
  simp only [run, List.filter_cons, Event.isOutput, Bool.false_eq_true, if_false,
    List.filter_append, h]
  simp

theorem runText_output (text : String) (o : Options) :
    (runText text o).events.filter Event.isOutput =
      (verdictsOf text o).flatMap Verdict.output :=
  run_output (start o) (.ofSource (.ofText text))

theorem runText_stats (text : String) (o : Options) :
    (runText text o).session.stats = (verdictsOf text o).foldl Stats.after {} :=
  turns_stats (start o) (.ofStream (.ofSource (.ofText text))) #[]

end Session

end FormCompiler
