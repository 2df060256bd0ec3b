import FormCompiler.Proofs.Session.Accept
import Mathlib.Data.List.Forall2

/-!
Two sessions over one text that differ in their level only. They take the same turns and accept the
same forms, and as long as no phi takes doubles the values that the session without passes gives are
given at every level.
-/

namespace FormCompiler

theorem Generator.atLevel_self {g : Generator} {level : OptLevel} (h : g.options.level = level) :
    g.atLevel level = g := by
  subst h
  rfl

namespace Session

def code (s : Session) : Table Func := s.engine.program.code

structure Matches (level : OptLevel) (s t : Session) : Prop where
  ready : s.generator.Ready
  lowest : s.generator.options.level = .o0
  generator : t.generator = s.generator.atLevel level
  layout : s.generator.unit.layout = s.engine.layout
  engine : t.engine =
    { s.engine with program := { s.engine.program with code := t.engine.program.code } }
  code : ∀ name, s.code.get? name = none ∧ t.code.get? name = none ∨
    ∃ f g, s.code.get? name = some f ∧ t.code.get? name = some g ∧ f.name = name ∧ f.Improves g

def Plain (s : Session) : Prop := ∀ f ∈ s.code.values, f.Plain

instance (s : Session) : Decidable s.Plain :=
  inferInstanceAs (Decidable (∀ f ∈ s.code.values, f.Plain))

theorem matches_start (o : Options) (level : OptLevel) :
    (start { o with level := .o0 }).Matches level (start { o with level }) :=
  ⟨⟨fun name s hs => (by cases hs), fun _ => rfl⟩, rfl, rfl, rfl, rfl, fun _ => .inl ⟨rfl, rfl⟩⟩

variable {level : OptLevel} {s t s' t' : Session}

theorem Adopts.code {g : Generator} {f : Func} (h : s.Adopts s' g level (some f)) (name : String) :
    s'.code.get? name = if (Pass.runAll level.passes f).func.name = name then
      some (Pass.runAll level.passes f).func else s.code.get? name := by
  rw [Session.code, h.engine]
  exact Table.get?_insert _ _ _ _

namespace Matches

theorem of_eq (h : s.Matches level t) (hs : s'.generator = s.generator) (hs' : s'.engine = s.engine)
    (ht : t'.generator = t.generator) (ht' : t'.engine = t.engine) : s'.Matches level t' := by
  refine ⟨hs ▸ h.ready, hs ▸ h.lowest, ?_, ?_, ?_, ?_⟩
  · rw [hs, ht, h.generator]
  · rw [hs, hs', h.layout]
  · rw [hs', ht']
    exact h.engine
  · unfold Session.code
    rw [hs', ht']
    exact h.code

theorem adopt (h : s.Matches level t) {g : Generator} (hready : g.Ready)
    (hlayout : g.unit.layout = s.generator.unit.layout) (hoptions : g.options = s.generator.options)
    {f? : Option Func} (hsound : ∀ f, f? = some f → ∃ w, f.Sound w)
    (hs : s.Adopts s' g .o0 f?) (ht : t.Adopts t' g level f?) : s'.Matches level t' := by
  have hlowest : g.options.level = .o0 := by rw [hoptions, h.lowest]
  have hs' : s'.generator = g := hs.generator.trans (Generator.atLevel_self hlowest)
  refine ⟨hs' ▸ hready, hs' ▸ hlowest, ?_, ?_, ?_, ?_⟩
  · rw [ht.generator, hs']
  · rw [hs', hlayout, h.layout, hs.engine]
    rfl
  · rw [ht.engine, hs.engine, h.engine]
    rfl
  · intro name
    cases f? with
    | none =>
      rw [Session.code, Session.code, hs.engine, ht.engine]
      exact h.code name
    | some f =>
      obtain ⟨w, hw⟩ := hsound f rfl
      have hi : f.Improves (Pass.runAll level.passes f).func :=
        Pass.correct_runAll level.passes f w hw
      have hname : (Pass.runAll level.passes f).func.name = f.name :=
        congrArg Signature.name hi.derives.signature
      have hlow : (Pass.runAll OptLevel.o0.passes f).func = f := rfl
      rw [hs.code name, ht.code name, hname, hlow]
      by_cases he : f.name = name
      · rw [if_pos he, if_pos he]
        exact .inr ⟨f, _, rfl, rfl, he, hi⟩
      · rw [if_neg he, if_neg he]
        exact h.code name

theorem declare (h : s.Matches level t) (d : Declaration) :
    (t.declare d).result = (s.declare d).result ∧
      (s.declare d).session.Matches level (t.declare d).session := by
  have hs : s.generator = s.generator.atLevel .o0 := (Generator.atLevel_self h.lowest).symm
  have hl : s.generator.unit.layout = t.engine.layout := by
    rw [h.engine]
    exact h.layout
  rcases declare_levels h.ready d with
    hrefused | ⟨g, f?, hready, hlayout, hoptions, hsound, hadopts⟩
  · obtain ⟨hresult, hgenerator, hengine⟩ := hrefused .o0 s hs
    obtain ⟨hresult', hgenerator', hengine'⟩ := hrefused level t h.generator
    exact ⟨hresult'.trans hresult.symm, h.of_eq hgenerator hengine hgenerator' hengine'⟩
  · obtain ⟨hresult, ha⟩ := hadopts .o0 s hs h.layout
    obtain ⟨hresult', ha'⟩ := hadopts level t h.generator hl
    exact ⟨hresult'.trans hresult.symm, h.adopt hready hlayout hoptions hsound ha ha'⟩

theorem evaluate (h : s.Matches level t) (a : Anonymous) :
    (s.evaluate a).session.Matches level (t.evaluate a).session ∧
      (s.answer? a = none ∧ t.answer? a = none ∨
        s.answer? a = some ((s.evaluate a).session.invoke a.proto.name) ∧
        t.answer? a = some ((t.evaluate a).session.invoke a.proto.name)) := by
  have hs : s.generator = s.generator.atLevel .o0 := (Generator.atLevel_self h.lowest).symm
  have hl : s.generator.unit.layout = t.engine.layout := by
    rw [h.engine]
    exact h.layout
  rcases evaluate_levels h.ready a with
    hrefused | ⟨g, f, hready, hlayout, hoptions, hsound, _, hadopts⟩
  · obtain ⟨hanswer, hgenerator, hengine⟩ := hrefused .o0 s hs
    obtain ⟨hanswer', hgenerator', hengine'⟩ := hrefused level t h.generator
    exact ⟨h.of_eq hgenerator hengine hgenerator' hengine', .inl ⟨hanswer, hanswer'⟩⟩
  · obtain ⟨hanswer, ha⟩ := hadopts .o0 s hs h.layout
    obtain ⟨hanswer', ha'⟩ := hadopts level t h.generator hl
    refine ⟨h.adopt hready hlayout hoptions ?_ ha ha', .inr ⟨hanswer, hanswer'⟩⟩
    intro f' hf'
    cases hf'
    exact hsound

theorem turn (h : s.Matches level t) (p : Parser) :
    (t.turn p).parser = (s.turn p).parser ∧ (t.turn p).ended = (s.turn p).ended ∧
      (s.turn p).session.Matches level (t.turn p).session := by
  have hcount : s.countForm.Matches level t.countForm := h.of_eq rfl rfl rfl rfl
  rw [turn_eq, turn_eq]
  cases p.reading with
  | nothing => exact ⟨rfl, rfl, h⟩
  | broken => exact ⟨rfl, rfl, h.of_eq rfl rfl rfl rfl⟩
  | ending => exact ⟨rfl, rfl, h⟩
  | faulty => exact ⟨rfl, rfl, h.of_eq rfl rfl rfl rfl⟩
  | declaration d =>
    obtain ⟨hresult, hmatches⟩ := hcount.declare d
    refine ⟨?_, rfl, hmatches⟩
    simp only [hresult]
  | expression a => exact ⟨rfl, rfl, (hcount.evaluate a).1⟩

theorem visits (h : s.Matches level t) (p : Parser) :
    List.Forall₂ (fun v v' => v'.2 = v.2 ∧ v.1.Matches level v'.1) (s.visits p) (t.visits p) := by
  induction s, p using Session.visits.induct generalizing t with
  | case1 s p u =>
    rename_i ih
    obtain ⟨hparser, hended, hmatches⟩ := h.turn p
    have hsame : t.GoesOn p ↔ s.GoesOn p := by
      rw [GoesOn, GoesOn, hparser, hended]
    by_cases hgo : s.GoesOn p
    · rw [visits_of_goesOn hgo, visits_of_goesOn (hsame.mpr hgo), hparser]
      exact .cons ⟨rfl, h⟩ (ih hgo hmatches)
    · rw [visits_of_not_goesOn hgo, visits_of_not_goesOn fun hgo' => hgo (hsame.mp hgo')]
      exact .cons ⟨rfl, h⟩ .nil

theorem refines (h : s.Matches level t) (hplain : s.Plain) :
    s.engine.program.Refines t.engine.program := by
  refine ⟨?_, ?_, ?_⟩
  · rw [h.engine]
  · rw [h.engine]
  · intro name
    rcases h.code name with hnone | ⟨f, g, hf, hg, hname, hi⟩
    · exact .inl hnone
    · exact .inr ⟨f, g, hf, hg, hname, hi.refines (hplain f (Table.mem_values_of_get? hf))⟩

end Matches

def Drops (s t : Session) (name : String) : Prop :=
  ∃ m, s.engine.program.Comes name [] m ∧ Machine.Drops t.engine.program m

def Echoes (c c' : Engine.Called) (dropped : Prop) : Prop :=
  c' = c ∨ ∃ fault, c.result = .error fault ∧
    (fault.isProper = false ∨ (∃ function, fault = .divisionByZero function) ∧ dropped)

end Session

theorem Machine.Drops.halted {p q : Program} {m : Machine} {outcome : Outcome} (h : m.Drops q)
    (hm : m.step p = .halted outcome) :
    ∃ function, outcome.result = .error (.divisionByZero function) := by
  obtain ⟨_, _, ha, _, _⟩ := h
  rw [step_cons, ha] at hm
  cases hm
  exact ⟨_, rfl⟩

namespace Session

variable {level : OptLevel} {s t : Session}

theorem Matches.call (h : s.Matches level t) (hplain : s.Plain) (name : String) :
    Echoes (s.engine.call name []) (t.engine.call name []) (s.Drops t name) := by
  have hsteps : t.engine.steps = s.engine.steps := by rw [h.engine]
  have hnone : Engine.constants name [] = .ok [] := rfl
  simp only [Engine.call, hnone, hsteps]
  cases hrun : s.engine.program.call s.engine.steps name [] with
  | none => exact .inr ⟨_, rfl, .inl rfl⟩
  | some outcome =>
    rcases (h.refines hplain).call hrun with hsame | ⟨function, detail, hm⟩ | ⟨m, hc, hstep, hd⟩
    · rw [hsame]
      exact .inl rfl
    · simp only [hm]
      exact .inr ⟨_, rfl, .inl rfl⟩
    · obtain ⟨function, hf⟩ := hd.halted hstep
      simp only [hf]
      exact .inr ⟨_, rfl, .inr ⟨⟨function, rfl⟩, m, hc, hd⟩⟩

theorem Matches.lookup? (h : s.Matches level t) (name : String) :
    t.engine.lookup? name = s.engine.lookup? name ∧
      ∀ signature, s.engine.lookup? name = some signature → signature.name = name := by
  have hhost : t.engine.program.host = s.engine.program.host := by rw [h.engine]
  unfold Engine.lookup?
  rcases h.code name with ⟨hs, ht⟩ | ⟨f, g, hs, ht, hname, hi⟩
  · unfold Session.code at hs ht
    rw [hs, ht, hhost]
    refine ⟨rfl, ?_⟩
    intro signature hsignature
    obtain ⟨f, _, rfl⟩ := Option.map_eq_some_iff.mp hsignature
    rfl
  · unfold Session.code at hs ht
    rw [hs, ht]
    refine ⟨congrArg some hi.derives.signature, ?_⟩
    intro signature hsignature
    cases hsignature
    exact hname

theorem Matches.invoke (h : s.Matches level t) (hplain : s.Plain) (name : String) :
    Echoes (s.invoke name) (t.invoke name) (s.Drops t name) := by
  obtain ⟨hlookup, hname⟩ := h.lookup? name
  unfold Session.invoke
  rw [hlookup]
  cases hl : s.engine.lookup? name with
  | none => exact .inl rfl
  | some signature =>
    simp only [Engine.callAs, hname signature hl]
    split
    · exact .inl rfl
    · exact h.call hplain name

/-- The expression that is read comes to an integer division by zero which the code of the second
session is without. -/
def Loses (v v' : Session × Parser) : Prop :=
  ∃ a, v.2.reading = .expression a ∧
    (v.1.turn v.2).session.Drops (v'.1.turn v'.2).session a.proto.name

def Agrees (v v' : Session × Parser) : Prop :=
  v'.1.verdict v'.2 = v.1.verdict v.2 ∨
    ∃ c c' fault, v.1.verdict v.2 = .evaluated (some c) ∧ v'.1.verdict v'.2 = .evaluated (some c') ∧
      c.result = .error fault ∧
      (fault.isProper = false ∨ (∃ function, fault = .divisionByZero function) ∧ Loses v v')

theorem Matches.agrees (h : s.Matches level t) (p : Parser) (hplain : (s.turn p).session.Plain) :
    Agrees (s, p) (t, p) := by
  have hcount : s.countForm.Matches level t.countForm := h.of_eq rfl rfl rfl rfl
  unfold Agrees Loses
  simp only
  rw [turn_eq, turn_eq] at *
  unfold Session.verdict
  cases hread : p.reading with
  | nothing => exact .inl rfl
  | broken => exact .inl rfl
  | ending => exact .inl rfl
  | faulty => exact .inl rfl
  | declaration d =>
    obtain ⟨hresult, _⟩ := hcount.declare d
    exact .inl (by simp only [hresult])
  | expression a =>
    rw [hread] at hplain
    obtain ⟨hmatches, ⟨hs, ht⟩ | ⟨hs, ht⟩⟩ := hcount.evaluate a
    · exact .inl (by simp only [hs, ht])
    · simp only [hs, ht]
      rcases hmatches.invoke hplain a.proto.name with he | ⟨fault, hfault, hfree⟩
      · exact .inl (by rw [he])
      · refine .inr ⟨_, _, fault, rfl, rfl, hfault, ?_⟩
        exact hfree.imp_right (And.imp_right fun hdrops => ⟨a, rfl, hdrops⟩)

theorem visitsOf_agrees (text : String) (o : Options) (level : OptLevel)
    (hplain : ∀ v ∈ visitsOf text { o with level := .o0 }, (v.1.turn v.2).session.Plain) :
    List.Forall₂ Agrees (visitsOf text { o with level := .o0 })
      (visitsOf text { o with level }) := by
  have hvisits := (matches_start o level).visits (.ofStream (.ofSource (.ofText text)))
  apply ((List.forall₂_and_left _ _).mpr ⟨hplain, hvisits⟩).imp
  rintro ⟨s, p⟩ ⟨t, q⟩ ⟨hp, hq, hmatches⟩
  cases hq
  exact hmatches.agrees p hp

end Session

/-- What may become of a form at another level: the same, unless the form has failed while it was
run. -/
inductive Verdict.Keeps : Verdict → Verdict → Prop
  | same {v : Verdict} : Keeps v v
  | failed {c c' : Engine.Called} {fault : Fault} : c.result = .error fault →
      Keeps (.evaluated (some c)) (.evaluated (some c'))

def Verdict.isProper : Verdict → Bool
  | .evaluated (some ⟨.error fault, _⟩) => fault.isProper
  | .evaluated (some ⟨.ok _, _⟩) | .evaluated none => true
  | .skipped | .refused | .ended | .declared _ => true

namespace Session

theorem Agrees.keeps {v v' : Session × Parser} (h : Agrees v v') :
    (v.1.verdict v.2).Keeps (v'.1.verdict v'.2) := by
  rcases h with he | ⟨c, c', fault, hc, hc', hfault, _⟩
  · rw [he]
    exact .same
  · rw [hc, hc']
    exact .failed hfault

theorem Agrees.eq {v v' : Session × Parser} (h : Agrees v v')
    (hproper : (v.1.verdict v.2).isProper = true) :
    v'.1.verdict v'.2 = v.1.verdict v.2 ∨
      (∃ c function, v.1.verdict v.2 = .evaluated (some c) ∧
        c.result = .error (.divisionByZero function)) ∧ Loses v v' := by
  rcases h with
    he | ⟨⟨result, calls⟩, c', fault, hc, _, hfault, himproper | ⟨⟨function, rfl⟩, hloses⟩⟩
  · exact .inl he
  · cases hfault
    rw [hc] at hproper
    cases hproper.symm.trans himproper
  · exact .inr ⟨⟨_, function, hc, hfault⟩, hloses⟩

/-- Whatever the text, the session without passes and the one at any level accept and refuse the
same declarations, and expressions that have a value in the first have it in the second, after the
same calls of host functions, provided that no phi of the code takes doubles. -/
theorem verdictsOf_keeps (text : String) (o : Options) (level : OptLevel)
    (hplain : ∀ v ∈ visitsOf text { o with level := .o0 }, (v.1.turn v.2).session.Plain) :
    List.Forall₂ Verdict.Keeps (verdictsOf text { o with level := .o0 })
      (verdictsOf text { o with level }) := by
  rw [verdictsOf, verdictsOf, List.forall₂_map_left_iff, List.forall₂_map_right_iff]
  apply (visitsOf_agrees text o level hplain).imp
  intro v v' h
  exact h.keeps

def branching : String :=
  "int f(int n) \x7b return if (6 / n) n else 0; \x7d " ++
    "int g(int n) \x7b return (9 - n) / 2; \x7d f(0); g(3);"

theorem verdictsOf_keeps_branching :
    (∀ v ∈ visitsOf branching { level := .o0 }, (v.1.turn v.2).session.Plain) ∧
      List.Forall₂ Verdict.Keeps (verdictsOf branching { level := .o0 })
        (verdictsOf branching { level := .o2 }) := by
  have hplain : ∀ v ∈ visitsOf branching { level := .o0 }, (v.1.turn v.2).session.Plain := by
    decide +kernel
  exact ⟨hplain, verdictsOf_keeps branching {} .o2 hplain⟩

/-- Expressions that fail without passes fail alike at every level, provided that no phi of the code
takes doubles, unless they fail on an integer division that the passes have left out. Where none is
left out, the sessions show and count the same. -/
theorem visitsOf_fails (text : String) (o : Options) (level : OptLevel)
    (hplain : ∀ v ∈ visitsOf text { o with level := .o0 }, (v.1.turn v.2).session.Plain) :
    List.Forall₂ (fun v v' => ∀ c fault, v.1.verdict v.2 = .evaluated (some c) →
        c.result = .error fault → fault.isProper = true →
        v'.1.verdict v'.2 = .evaluated (some c) ∨
          (∃ function, fault = .divisionByZero function) ∧ Loses v v')
      (visitsOf text { o with level := .o0 }) (visitsOf text { o with level }) ∧
    (List.Forall₂ (fun v v' => (v.1.verdict v.2).isProper = true ∧ ¬ Loses v v')
        (visitsOf text { o with level := .o0 }) (visitsOf text { o with level }) →
      (runText text { o with level }).events.filter Event.isOutput =
        (runText text { o with level := .o0 }).events.filter Event.isOutput ∧
      (runText text { o with level }).session.stats =
        (runText text { o with level := .o0 }).session.stats) := by
  have hagrees := visitsOf_agrees text o level hplain
  constructor
  · apply hagrees.imp
    rintro v v' h ⟨result, calls⟩ fault hc hfault hproper
    cases hfault
    rcases h.eq (by rw [hc]; exact hproper) with he | ⟨⟨c, function, hc', hf⟩, hloses⟩
    · exact .inl (he.trans hc)
    · cases hc.symm.trans hc'
      cases hf
      exact .inr ⟨⟨function, rfl⟩, hloses⟩
  · intro hclean
    have hsame : verdictsOf text { o with level := .o0 } = verdictsOf text { o with level } := by
      rw [← List.forall₂_eq_eq_eq, verdictsOf, verdictsOf, List.forall₂_map_left_iff,
        List.forall₂_map_right_iff]
      refine List.forall₂_iff_zip.mpr ⟨hagrees.length_eq, ?_⟩
      intro v v' hmem
      obtain ⟨hproper, hkept⟩ := List.forall₂_zip hclean hmem
      rcases (List.forall₂_zip hagrees hmem).eq hproper with he | ⟨_, hloses⟩
      · exact he.symm
      · exact absurd hloses hkept
    rw [runText_output, runText_output, runText_stats, runText_stats, hsame]
    exact ⟨rfl, rfl⟩

def idle : String := "int f() \x7b 1 / 0; return 2; \x7d f();"

theorem visitsOf_fails_idle :
    (∀ v ∈ visitsOf idle { level := .o0 }, (v.1.turn v.2).session.Plain) ∧
      ∃ v ∈ visitsOf idle { level := .o0 }, ∃ v' ∈ visitsOf idle { level := .o1 }, Loses v v' := by
  have hplain : ∀ v ∈ visitsOf idle { level := .o0 }, (v.1.turn v.2).session.Plain := by
    decide +kernel
  have hproper : ∀ v ∈ visitsOf idle { level := .o0 }, (v.1.verdict v.2).isProper = true := by
    decide +kernel
  refine ⟨hplain, ?_⟩
  by_contra hnone
  obtain ⟨hfails, hshown⟩ := visitsOf_fails idle {} .o1 hplain
  have hstats := (hshown (List.forall₂_iff_zip.mpr ⟨hfails.length_eq, ?_⟩)).2
  · revert hstats
    decide +kernel
  · intro v v' hmem
    obtain ⟨hv, hv'⟩ := List.of_mem_zip hmem
    exact ⟨hproper v hv, fun hloses => hnone ⟨v, hv, v', hv', hloses⟩⟩

theorem runText_idle_stats :
    (runText idle { level := .o0 }).session.stats = ⟨2, 0, 1⟩ ∧
      (runText idle { level := .o1 }).session.stats = ⟨2, 1, 0⟩ := by
  decide +kernel

end Session

end FormCompiler
