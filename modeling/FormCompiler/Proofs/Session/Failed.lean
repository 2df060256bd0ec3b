import FormCompiler.Proofs.Session.Alike

/-!
A form that fails is forgotten. Whether it cannot be read, cannot be turned into code or fails while
it is run, the session goes on as if its tokens had never been there.
-/

namespace FormCompiler

def Event.isPrinted : Event → Bool
  | .printed _ => true
  | .note _ | .written _ => false

inductive Verdict.Failed : Verdict → Prop
  | refused : Failed .refused
  | declared : Failed (.declared false)
  | unanswered : Failed (.evaluated none)
  | faulty {fault : Fault} {calls : List HostCall} :
      Failed (.evaluated (some ⟨.error fault, calls⟩))

structure Stats.Ahead (s t : Stats) : Prop where
  forms : s.forms = t.forms + 1
  failed : s.failed = t.failed + 1
  evaluated : s.evaluated = t.evaluated

namespace Verdict

variable {v v' : Verdict} {s t : Stats}

theorem failed_of_counted (h : (s.after v).failed = s.failed + 1) : v.Failed := by
  cases v with
  | skipped => simp [Stats.after] at h
  | ended => simp [Stats.after] at h
  | refused => exact .refused
  | declared accepted =>
    cases accepted with
    | true => simp [Stats.after] at h
    | false => exact .declared
  | evaluated answer =>
    cases answer with
    | none => exact .unanswered
    | some called =>
      obtain ⟨result, calls⟩ := called
      cases result with
      | ok value => simp [Stats.after] at h
      | error fault => exact .faulty

theorem Failed.ne_ended (h : v.Failed) : v ≠ .ended := by
  rintro rfl
  cases h

theorem Failed.ahead (h : v.Failed) (s : Stats) : (s.after v).Ahead s := by
  cases h <;> exact ⟨rfl, rfl, rfl⟩

theorem Failed.output (h : v.Failed) : v.output.filter Event.isPrinted = [] := by
  cases h with
  | refused => rfl
  | declared => rfl
  | unanswered => rfl
  | faulty =>
    rw [List.filter_eq_nil_iff]
    intro e he
    obtain ⟨c, _, hc⟩ := List.mem_filterMap.mp he
    split at hc
    · cases hc
    · cases hc
      exact Bool.false_ne_true

theorem Alike.output (h : v.Alike v') : v'.output = v.output := by
  cases h with
  | same => rfl
  | evaluated hc =>
    obtain ⟨hresult, hcalls⟩ := hc
    rename_i c c'
    obtain ⟨r, calls⟩ := c
    obtain ⟨r', calls'⟩ := c'
    cases hcalls
    cases hresult with
    | ok value => rfl
    | error fault fault' => rfl

theorem Alike.after (h : v.Alike v') (s : Stats) : s.after v' = s.after v := by
  cases h with
  | same => rfl
  | @evaluated c c' hc =>
    obtain ⟨r, calls⟩ := c
    obtain ⟨r', calls'⟩ := c'
    obtain ⟨hresult, _⟩ := hc
    cases hresult with
    | ok value => rfl
    | error fault fault' => rfl

end Verdict

namespace Stats.Ahead

variable {s t : Stats}

theorem after (h : s.Ahead t) (v : Verdict) : (s.after v).Ahead (t.after v) := by
  obtain ⟨hforms, hfailed, hevaluated⟩ := h
  have hcounted : Ahead { s with forms := s.forms + 1 } { t with forms := t.forms + 1 } :=
    ⟨congrArg (· + 1) hforms, hfailed, hevaluated⟩
  have hfailing : Ahead { s with forms := s.forms + 1, failed := s.failed + 1 }
      { t with forms := t.forms + 1, failed := t.failed + 1 } :=
    ⟨congrArg (· + 1) hforms, congrArg (· + 1) hfailed, hevaluated⟩
  cases v with
  | skipped => exact ⟨hforms, hfailed, hevaluated⟩
  | ended => exact ⟨hforms, hfailed, hevaluated⟩
  | refused => exact hfailing
  | declared accepted =>
    cases accepted with
    | true => exact hcounted
    | false => exact hfailing
  | evaluated answer =>
    cases answer with
    | none => exact hfailing
    | some called =>
      obtain ⟨result, calls⟩ := called
      cases result with
      | ok value => exact ⟨congrArg (· + 1) hforms, hfailed, congrArg (· + 1) hevaluated⟩
      | error fault => exact hfailing

theorem foldl (h : s.Ahead t) {vs vs' : List Verdict} (hvs : List.Forall₂ Verdict.Alike vs vs') :
    (vs.foldl Stats.after s).Ahead (vs'.foldl Stats.after t) := by
  induction hvs generalizing s t with
  | nil => exact h
  | cons hv _ ih =>
    rw [List.foldl_cons, List.foldl_cons, hv.after]
    exact ih (h.after _)

end Stats.Ahead

theorem Verdict.flatMap_output {vs vs' : List Verdict} (h : List.Forall₂ Verdict.Alike vs vs') :
    vs'.flatMap Verdict.output = vs.flatMap Verdict.output := by
  induction h with
  | nil => rfl
  | cons hv _ ih => rw [List.flatMap_cons, List.flatMap_cons, hv.output, ih]

namespace Session

variable {s s' t : Session} {p q : Parser}

theorem Alike.commits_reserved (h : s.Alike t) {f : Func}
    (hs : s.Commits s' s.generator.registry [f]) (hname : ¬ Unreserved f.name) : s'.Alike t where
  settled := h.settled.commits h.settled.ready.registry hs
  settled' := h.settled'
  registry := by rw [hs.generator]; exact h.registry
  options := by rw [hs.generator]; exact h.options
  steps := by rw [hs.engine]; exact h.steps
  program := by
    have hcode : ∀ other, Unreserved other →
        s'.engine.program.code.get? other = s.engine.program.code.get? other := by
      intro other hother
      refine (hs.code_get? other).trans (if_neg ?_)
      rintro rfl
      exact hname hother
    rw [hs.engine] at hcode ⊢
    refine ⟨h.program.host, h.program.depth, fun other hother => ?_, fun other g hother hg => ?_⟩
    · rw [hcode other hother, h.program.code other hother]
    · rw [hcode other hother] at hg
      exact h.program.calls other g hother hg

theorem InStep.failed (h : InStep s p s p) (hf : (s.verdict p).Failed) :
    (s.turn p).session.Alike s ∧ (s.turn p).parser.symbols.checkpoint = p.symbols.checkpoint := by
  have herrors := h.parsers.errors
  have hspelled := Parser.reading_spelled herrors h.spelled
  have hcount := h.sessions.countForm
  have hback : s.countForm.Unmoved s := ⟨rfl, rfl⟩
  have hentries : (∀ d, p.reading ≠ .declaration d) →
      p.afterwards.symbols.checkpoint = p.symbols.checkpoint := fun hd =>
    congrArg (SymbolTable.mk · []) (Parser.symbols_afterwards herrors hd)
  rw [turn_eq]
  unfold verdict at hf
  cases hr : p.reading with
  | nothing => rw [hr] at hf; cases hf
  | ending => rw [hr] at hf; cases hf
  | faulty => rw [hr] at hspelled; cases hspelled
  | broken =>
    exact ⟨h.sessions.unmoved ⟨rfl, rfl⟩ ⟨rfl, rfl⟩,
      hentries fun d hd => (by rw [hr] at hd; cases hd)⟩
  | declaration d =>
    simp only [hr] at hf
    have hd := h.sessions.settled.countForm.declared d
    generalize hresult : (s.countForm.declare d).result = accepted at hf hd
    cases hf with
    | declared =>
      cases hd with
      | refused _ hs =>
        refine ⟨hcount.unmoved hs hback, ?_⟩
        simp only [hresult, Bool.false_eq_true, if_false]
        exact (congrArg SymbolTable.checkpoint (Parser.rollback_afterwards herrors)).trans rfl
  | expression a =>
    refine ⟨?_, hentries fun d hd => (by rw [hr] at hd; cases hd)⟩
    rw [hr] at hspelled
    cases hspelled with
    | @expression e _ =>
      have ha := h.sessions.settled.countForm.evaluated (.wrap e p.counter)
      generalize s.countForm.answer? (.wrap e p.counter) = answer at ha
      cases ha with
      | refused _ hs => exact hcount.unmoved hs hback
      | @called f u hb hs =>
        refine (hcount.commits_reserved hs ?_).unmoved ⟨rfl, rfl⟩ hback
        rw [hb.name_optimized]
        exact not_unreserved_nameOf _

theorem inStep_start (o : Options) {stream : TokenStream} (h : stream.Spelled Unreserved) :
    InStep (start o) (.ofStream stream) (start o) (.ofStream stream) := by
  have hsettled : (start o).Settled :=
    .start (.ofDepth o.depth) ⟨o.level, o.unsignedCompare, o.allowRedefinition⟩ o.printCode {}
  refine ⟨⟨hsettled, hsettled, rfl, rfl, rfl, rfl, rfl, fun _ _ => rfl, ?_⟩, ⟨rfl, rfl, rfl⟩,
    h.cursor⟩
  intro name f _ hf
  cases hf

theorem InStep.reads (h : InStep s p s p) {vs : List Verdict} {p' : Parser}
    (hr : Reads s p vs s' p') : InStep s' p' s' p' := by
  induction hr with
  | nil => exact h
  | cons _ _ ih => exact ih h.turn.2.2

theorem InStep.resume (h : InStep s p s p) (hf : (s.verdict p).Failed) (herrors : q.errors = [])
    {form : List Token} (hq : p = q.extend (form ++ p.afterwards.cursor.stream.pending))
    (hform : form ++ p.afterwards.cursor.stream.pending = p.cursor.stream.pending) :
    InStep (s.turn p).session (s.turn p).parser s
      (q.extend p.afterwards.cursor.stream.pending) := by
  obtain ⟨halike, hsymbols⟩ := h.failed hf
  have hcursor : p.cursor = q.cursor.extend (form ++ p.afterwards.cursor.stream.pending) :=
    congrArg Parser.cursor hq
  have hempty : q.cursor.stream.pending = [] := by
    have hpending := congrArg (·.stream.pending) hcursor
    rw [hform] at hpending
    exact List.append_left_eq_self.mp hpending.symm
  have hstream : (q.extend p.afterwards.cursor.stream.pending).cursor.stream =
      p.afterwards.cursor.stream := by
    refine Eq.trans ?_ p.leads_afterwards.after.stream.symm
    change { q.cursor.stream with
      pending := q.cursor.stream.pending ++ p.afterwards.cursor.stream.pending } = _
    rw [hempty, hcursor]
    rfl
  refine ⟨halike, ⟨?_, errors_turn s p, herrors⟩, spelled_turn s h.spelled⟩
  unfold Parser.begin Cursor.advance
  rw [hsymbols, cursor_turn, hstream]
  exact congrArg (Place.mk · _) (congrArg (·.symbols.checkpoint) hq).symm

/-- The second session has done all that the first one has, but for one form that failed. -/
structure Finished.Forgets (whole rest : Finished) : Prop where
  printed : rest.events.filter Event.isPrinted = whole.events.filter Event.isPrinted
  symbols : rest.parser.symbols = whole.parser.symbols
  registry : rest.session.generator.registry = whole.session.generator.registry
  code : ∀ name, Unreserved name → rest.session.code.get? name = whole.session.code.get? name
  stats : whole.session.stats.Ahead rest.session.stats

theorem run_printed (s : Session) (stream : TokenStream) :
    (s.run stream).events.filter Event.isPrinted =
      ((s.verdicts (.ofStream stream)).flatMap Verdict.output).filter Event.isPrinted := by
  rw [← run_output, List.filter_filter]
  congr 1
  funext e
  cases e <;> rfl

/-- Two sessions come to the same place, the first one with one more form, that failed. -/
theorem forgets_of_reads {o : Options} {stream stream' : TokenStream} {vs : List Verdict}
    (hreads : Reads (start o) (.ofStream stream) vs s p)
    (hreads' : Reads (start o) (.ofStream stream') vs s q) (hgo : s.GoesOn p)
    (hf : (s.verdict p).Failed)
    (hnext : InStep (s.turn p).session (s.turn p).parser s q) :
    ((start o).run stream).Forgets ((start o).run stream') := by
  obtain ⟨seen, hturns⟩ := hreads.turns #[]
  obtain ⟨seen', hturns'⟩ := hreads'.turns #[]
  rw [turns_of_goesOn hgo] at hturns
  obtain ⟨hverdicts, hlast, hsymbols⟩ := hnext.turns (seen ++ (s.turn p).events) seen'
  rw [← hturns, ← hturns'] at hlast hsymbols
  have hall : (start o).verdicts (.ofStream stream) =
      vs ++ s.verdict p :: (s.turn p).session.verdicts (s.turn p).parser := by
    rw [hreads.verdicts]
    congr 1
    rw [verdicts, visits_of_goesOn hgo]
    rfl
  have hrest := hreads'.verdicts
  refine ⟨?_, hsymbols, hlast.registry, hlast.program.code, ?_⟩
  · rw [run_printed, run_printed, hall, hrest, List.flatMap_append, List.flatMap_append,
      List.flatMap_cons, List.filter_append, List.filter_append, List.filter_append, hf.output,
      Verdict.flatMap_output hverdicts, List.nil_append]
  · change ((start o).turns (.ofStream stream) #[]).1.stats.Ahead
      ((start o).turns (.ofStream stream') #[]).1.stats
    rw [turns_stats, turns_stats, hall, hrest, List.foldl_append, List.foldl_append,
      List.foldl_cons]
    exact (hf.ahead _).foldl hverdicts

/-- The tokens of a form that the session counts as failed can be left out: the session over the
other tokens prints the same, ends with the same names, known functions and committed code, that of
wrapped expressions apart, and counts one form less, one that failed. The names of wrapped
expressions must not stand among the tokens, and in a text they never do. -/
theorem run_forgets (o : Options) {stream : TokenStream} (hstream : stream.Spelled Unreserved)
    {s : Session} {p : Parser} (hv : (s, p) ∈ (start o).visits (.ofStream stream))
    (hfailed : (s.turn p).session.stats.failed = s.stats.failed + 1) :
    ∃ before form after, form ≠ [] ∧ stream.pending = before ++ (form ++ after) ∧
      p.cursor.stream.pending = form ++ after ∧ p.next.parser.cursor.stream.pending = after ∧
      ((start o).run stream).Forgets
        ((start o).run { stream with pending := before ++ after }) := by
  obtain ⟨vs, hreads⟩ := exists_reads hv
  have hstep := (inStep_start o hstream).reads hreads
  have herrors := hstep.parsers.errors
  have hf : (s.verdict p).Failed := Verdict.failed_of_counted (turn_stats s p ▸ hfailed)
  have hgo := (goesOn_iff s herrors).mpr hf.ne_ended
  obtain ⟨before, hbefore⟩ := hreads.suffix
  obtain ⟨form, hform⟩ := p.leads_afterwards.after.suffix
  have hne : form ≠ [] := by
    rintro rfl
    have hless := hgo.2
    unfold Parser.remaining at hless
    rw [cursor_turn, ← hform, List.nil_append] at hless
    exact Nat.lt_irrefl _ hless
  have hstart : Parser.ofStream stream = (Parser.ofStream { stream with pending := before }).extend
      (form ++ p.afterwards.cursor.stream.pending) := by
    rw [hform]
    change _ = Parser.ofStream { stream with pending := before ++ p.cursor.stream.pending }
    rw [hbefore]
    rfl
  have hmore : form ++ p.afterwards.cursor.stream.pending ≠ [] :=
    fun he => hne (List.append_eq_nil_iff.mp he).1
  obtain ⟨q, herrors', hq, hreads'⟩ :=
    (hstart ▸ hreads).extend rfl hmore (hform ▸ List.suffix_refl _)
  refine ⟨before, form, p.afterwards.cursor.stream.pending, hne, ?_, hform.symm, rfl, ?_⟩
  · rw [hform]
    exact hbefore.symm
  · exact forgets_of_reads hreads (hreads' _) hgo hf (hstep.resume hf herrors' hq hform)

def quotient : String :=
  "int f(int n) \x7b return 6 / n; \x7d f(0); " ++
    "int g() \x7b return f(2) + f(3); \x7d g(); f(1) + g();"

theorem run_forgets_quotient :
    ∃ s p, (s, p) ∈ visitsOf quotient {} ∧
      (s.turn p).session.stats.failed = s.stats.failed + 1 ∧
      ∃ before form after, form ≠ [] ∧
        (TokenStream.ofSource (.ofText quotient)).pending = before ++ (form ++ after) ∧
        p.cursor.stream.pending = form ++ after ∧ p.next.parser.cursor.stream.pending = after ∧
        ((start {}).run (.ofSource (.ofText quotient))).Forgets ((start {}).run
          { TokenStream.ofSource (.ofText quotient) with pending := before ++ after }) := by
  have hrun : ∃ v ∈ (visitsOf quotient {})[1]?,
      (v.1.turn v.2).session.stats.failed = v.1.stats.failed + 1 := by decide +kernel
  obtain ⟨⟨s, p⟩, hv, hfailed⟩ := hrun
  have hnames : (TokenStream.ofSource (.ofText quotient)).Spelled Unreserved :=
    (TokenStream.spelled_ofSource _).mono fun _ h => h.unreserved
  have hmem : (s, p) ∈ visitsOf quotient {} := List.mem_of_getElem? hv
  exact ⟨s, p, hmem, hfailed, run_forgets {} hnames hmem hfailed⟩

end Session

end FormCompiler
