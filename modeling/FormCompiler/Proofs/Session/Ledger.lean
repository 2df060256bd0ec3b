import FormCompiler.Proofs.Decimal.Figures
import FormCompiler.Proofs.Session.Visits

namespace FormCompiler

def Event.printed? : Event → Option String
  | .printed text => some text
  | .note _ | .written _ => none

def Value.line (v : Value) : String := s!"Evaluated to {v.text}"

theorem Value.newline_not_mem_line (v : Value) : '\n' ∉ v.line.toList := by
  change '\n' ∉ ("Evaluated to " ++ v.text).toList
  rw [String.toList_append, List.mem_append, not_or]
  exact ⟨by decide, v.newline_not_mem_text⟩

namespace Verdict

def value? : Verdict → Option Value
  | .evaluated (some ⟨.ok value, _⟩) => some value
  | .evaluated (some ⟨.error _, _⟩) | .evaluated none => none
  | .skipped | .refused | .ended | .declared _ => none

def accepts : Verdict → Bool
  | .declared accepted => accepted
  | .skipped | .refused | .ended | .evaluated _ => false

theorem printed_output (v : Verdict) :
    v.output.filterMap Event.printed? = v.value?.toList.map (·.line ++ "\n") := by
  have hwritten (calls : List HostCall) :
      (calls.filterMap fun h => if h.output = "" then none else
        some (Event.written h.output)).filterMap Event.printed? = [] := by
    rw [List.filterMap_eq_nil_iff]
    intro e he
    obtain ⟨h, _, hh⟩ := List.mem_filterMap.mp he
    split at hh
    · cases hh
    · cases hh
      rfl
  cases v with
  | evaluated answer =>
    cases answer with
    | none => rfl
    | some called =>
      obtain ⟨result, calls⟩ := called
      cases result with
      | error fault => exact hwritten calls
      | ok value =>
        simp only [output, Engine.Called.output, List.filterMap_append, hwritten]
        rfl
  | _ => rfl

theorem printed_flatMap (vs : List Verdict) :
    (vs.flatMap output).filterMap Event.printed? = (vs.filterMap value?).map (·.line ++ "\n") := by
  induction vs with
  | nil => rfl
  | cons v vs ih =>
    rw [List.flatMap_cons, List.filterMap_append, printed_output, ih, List.filterMap_cons]
    cases v.value? <;> rfl

end Verdict

namespace Stats

def plus (s : Stats) (evaluated failed accepted : Nat) : Stats where
  forms := s.forms + (evaluated + failed + accepted)
  evaluated := s.evaluated + evaluated
  failed := s.failed + failed

theorem plus_plus (s : Stats) (e f a e' f' a' : Nat) :
    (s.plus e f a).plus e' f' a' = s.plus (e + e') (f + f') (a + a') := by
  simp only [plus, mk.injEq]
  omega

/-- A form gives a value, is accepted, fails or is not counted, and only one of these. -/
theorem exists_after (s : Stats) (v : Verdict) :
    ∃ failed, s.after v = s.plus v.value?.toList.length failed v.accepts.toNat := by
  cases v with
  | skipped => exact ⟨0, rfl⟩
  | ended => exact ⟨0, rfl⟩
  | refused => exact ⟨1, rfl⟩
  | declared accepted => cases accepted with
    | true => exact ⟨0, rfl⟩
    | false => exact ⟨1, rfl⟩
  | evaluated answer =>
    cases answer with
    | none => exact ⟨1, rfl⟩
    | some called =>
      obtain ⟨result, calls⟩ := called
      cases result with
      | ok value => exact ⟨0, rfl⟩
      | error fault => exact ⟨1, rfl⟩

theorem exists_foldl (s : Stats) (vs : List Verdict) :
    ∃ failed, vs.foldl after s =
      s.plus (vs.filterMap Verdict.value?).length failed (vs.countP Verdict.accepts) := by
  induction vs generalizing s with
  | nil => exact ⟨0, rfl⟩
  | cons v vs ih =>
    obtain ⟨failed, hv⟩ := s.exists_after v
    obtain ⟨failed', hvs⟩ := ih (s.after v)
    refine ⟨failed + failed', ?_⟩
    rw [List.foldl_cons, hvs, hv, plus_plus]
    congr 1
    · rw [List.filterMap_cons]
      cases v.value? with
      | none => exact Nat.zero_add _
      | some value => exact Nat.add_comm 1 _
    · rw [List.countP_cons]
      cases v.accepts with
      | false => exact Nat.zero_add _
      | true => exact Nat.add_comm 1 _

end Stats

theorem Declaration.Spelled.name {W : String → Prop} {d : Declaration} (h : d.Spelled W) :
    W d.name := by
  cases h <;> assumption

namespace Reading

def expression? : Reading → Option Anonymous
  | .expression a => some a
  | .nothing | .broken | .ending | .faulty | .declaration _ => none

def name? : Reading → Option String
  | .declaration d => some d.name
  | .expression a => some a.proto.name
  | .nothing | .broken | .ending | .faulty => none

end Reading

namespace Session

variable {s s' : Session} {p p' : Parser}

def readings (s : Session) (p : Parser) : List Reading := (s.visits p).map fun v => v.2.reading

def expressions (s : Session) (p : Parser) : List Anonymous :=
  (s.readings p).filterMap Reading.expression?

theorem expressions_of_goesOn (h : s.GoesOn p) :
    s.expressions p =
      p.reading.expression?.toList ++ (s.turn p).session.expressions (s.turn p).parser := by
  rw [expressions, readings, visits_of_goesOn h, List.map_cons, List.filterMap_cons]
  cases p.reading.expression? <;> rfl

theorem expressions_of_not_goesOn (h : ¬ s.GoesOn p) :
    s.expressions p = p.reading.expression?.toList := by
  rw [expressions, readings, visits_of_not_goesOn h, List.map_singleton, List.filterMap_cons]
  cases p.reading.expression? <;> rfl

theorem exists_of_mem_expressions {a : Anonymous} (h : a ∈ s.expressions p) :
    ∃ v ∈ s.visits p, v.2.reading = .expression a := by
  obtain ⟨r, hr, ha⟩ := List.mem_filterMap.mp h
  obtain ⟨v, hv, rfl⟩ := List.mem_map.mp hr
  refine ⟨v, hv, ?_⟩
  cases hreading : v.2.reading with
  | expression b =>
    rw [hreading] at ha
    cases ha
    rfl
  | _ =>
    rw [hreading] at ha
    cases ha

theorem name_expression (h : p.errors = []) {a : Anonymous} (ha : p.reading = .expression a) :
    a.proto.name = Anonymous.nameOf p.counter := by
  have hspelled := Parser.reading_spelled h (Reader.spelled_trivial _)
  rw [ha] at hspelled
  cases hspelled
  rfl

theorem counter_turn (s : Session) (h : p.errors = []) :
    (s.turn p).parser.counter = p.counter + p.reading.expression?.toList.length := by
  have hcounter := Parser.counter_afterwards h
  rw [turn_eq]
  cases p.reading with
  | expression a => exact congrArg (· + 1) hcounter
  | declaration d =>
    simp only
    split <;> exact hcounter
  | _ => exact hcounter

theorem counter_turns (h : p.errors = []) (seen : Array Event) :
    (s.turns p seen).2.1.counter = p.counter + (s.expressions p).length := by
  fun_induction turns s p seen with
  | case1 s p seen t seen' hgo ih =>
    rw [ih (errors_turn s p), expressions_of_goesOn hgo, List.length_append, ← Nat.add_assoc]
    exact congrArg (· + _) (counter_turn s h)
  | case2 s p seen t seen' hgo =>
    rw [expressions_of_not_goesOn hgo]
    exact counter_turn s h

theorem names_expressions (h : p.errors = []) :
    (s.expressions p).map (·.proto.name) =
      (List.range' p.counter (s.expressions p).length).map Anonymous.nameOf := by
  have hfirst (s : Session) {p : Parser} (h : p.errors = []) :
      p.reading.expression?.toList.map (·.proto.name) =
        (List.range' p.counter p.reading.expression?.toList.length).map Anonymous.nameOf := by
    cases hr : p.reading with
    | expression a => exact congrArg (List.cons · []) (name_expression h hr)
    | _ => rfl
  induction s, p using Session.visits.induct with
  | case1 s p u =>
    rename_i ih
    by_cases hgo : s.GoesOn p
    · rw [expressions_of_goesOn hgo, List.map_append, List.length_append, ← List.range'_append_1,
        List.map_append, hfirst s h, ih hgo (errors_turn s p), counter_turn s h]
    · rw [expressions_of_not_goesOn hgo]
      exact hfirst s h

theorem Declared.code {d : Declaration} {accepted : Bool} (hd : s.Declared s' d accepted)
    {name : String} (hname : d.name ≠ name) : s'.code.get? name = s.code.get? name := by
  cases hd with
  | refused _ hs => rw [Session.code, hs.engine]; rfl
  | recorded _ hs => rw [Session.code, hs.engine]; rfl
  | prototype _ hs => rw [Session.code, hs.engine]; rfl
  | function _ hb hs => exact (hs.code_get? name).trans (if_neg (hb.name_optimized ▸ hname))

theorem Evaluated.code {a : Anonymous} {answer : Option Engine.Called}
    (ha : s.Evaluated s' a answer) {name : String} (hname : a.proto.name ≠ name) :
    s'.code.get? name = s.code.get? name := by
  cases ha with
  | refused _ hs => rw [Session.code, hs.engine]; rfl
  | called hb hs => exact (hs.code_get? name).trans (if_neg (hb.name_optimized ▸ hname))

theorem Settled.code_turn (h : s.Settled) {name : String} (hname : p.reading.name? ≠ some name) :
    (s.turn p).session.code.get? name = s.code.get? name := by
  rw [turn_eq]
  cases hr : p.reading with
  | declaration d =>
    rw [hr] at hname
    exact (h.countForm.declared d).code fun he => hname (congrArg some he)
  | expression a =>
    rw [hr] at hname
    exact (h.countForm.evaluated a).code fun he => hname (congrArg some he)
  | _ => rfl

structure Between (s : Session) (p : Parser) : Prop where
  settled : s.Settled
  errors : p.errors = []
  spelled : p.cursor.Spelled IsWord

namespace Between

theorem turn (h : s.Between p) : (s.turn p).session.Between (s.turn p).parser :=
  ⟨h.settled.turn p, errors_turn s p, spelled_turn s h.spelled⟩

theorem of_mem_visits (h : s.Between p) {v : Session × Parser} (hv : v ∈ s.visits p) :
    v.1.Between v.2 := by
  obtain ⟨i, hi⟩ := List.mem_iff_getElem?.mp hv
  exact visits_induction (P := fun _ s p => s.Between p) h (fun _ _ _ _ hb => hb.turn) hi

theorem spelled_ne (h : s.Between p) (number : Nat) :
    p.cursor.Spelled (· ≠ Anonymous.nameOf number) := fun t ht name hname he =>
  Anonymous.not_isWord_nameOf number (he ▸ h.spelled t ht name hname)

theorem name?_ne (h : s.Between p) {number : Nat} (hn : (s.turn p).parser.counter ≤ number) :
    p.reading.name? ≠ some (Anonymous.nameOf number) := by
  rw [counter_turn s h.errors] at hn
  cases hr : p.reading with
  | declaration d =>
    have hspelled := Parser.reading_spelled h.errors (h.spelled_ne number)
    rw [hr] at hspelled
    cases hspelled with
    | declaration hd => exact fun he => hd.name (Option.some.inj he)
  | expression a =>
    rw [hr] at hn
    rw [Reading.name?, name_expression h.errors hr]
    intro he
    rw [← Anonymous.nameOf_inj (Option.some.inj he)] at hn
    exact absurd hn (Nat.not_succ_le_self _)
  | _ => exact Option.some_ne_none _ |>.symm

theorem earlier (h : s.Between p) {i : Nat} {v : Session × Parser} (hv : (s.visits p)[i]? = some v)
    {j : Nat} (hj : j < i) {w : Session × Parser} (hw : (s.visits p)[j]? = some w) {number : Nat}
    (hn : v.2.counter ≤ number) : w.2.reading.name? ≠ some (Anonymous.nameOf number) := by
  refine visits_induction (P := fun i _ p' => ∀ j < i, ∀ w, (s.visits p)[j]? = some w →
    ∀ number, p'.counter ≤ number → w.2.reading.name? ≠ some (Anonymous.nameOf number))
    (fun j hj => absurd hj (Nat.not_lt_zero j)) ?_ hv j hj w hw number hn
  intro i s' p' hv ih j hj w hw number hn
  have hb : s'.Between p' := h.of_mem_visits (List.mem_of_getElem? hv)
  rcases Nat.lt_succ_iff_lt_or_eq.mp hj with hj | rfl
  · refine ih j hj w hw number (Nat.le_trans ?_ hn)
    rw [counter_turn s' hb.errors]
    exact Nat.le_add_right _ _
  · cases hv.symm.trans hw
    exact hb.name?_ne hn

end Between

def Finished.output (done : Finished) : String := String.join (done.events.filterMap Event.printed?)

/-- How a session that went on from `s` and read what `p` had before it stands when it is done. -/
structure Accounts (s : Session) (p : Parser) (done : Finished) : Prop where
  /-- There is a line for each value, and a form is counted for each value, failure and accepted
  declaration. -/
  stats : ∃ (lines : List String) (failed : Nat),
    done.output = String.join (lines.map (· ++ "\n")) ∧
    (∀ line ∈ lines, '\n' ∉ line.toList) ∧
    done.session.stats = s.stats.plus lines.length failed ((s.verdicts p).countP Verdict.accepts)
  counter : done.parser.counter = p.counter + (s.expressions p).length
  names : (s.expressions p).map (·.proto.name) =
    (List.range' p.counter (s.expressions p).length).map Anonymous.nameOf
  distinct : ((s.expressions p).map (·.proto.name)).Nodup
  /-- Neither a token nor a name in a declaration is the name of an expression. -/
  unspoken : ∀ a ∈ s.expressions p, ∀ t ∈ p.cursor.stream.pending, t.kind ≠ .name a.proto.name
  undeclared : ∀ a ∈ s.expressions p, ∀ d, .declaration d ∈ s.readings p →
    d.Spelled (· ≠ a.proto.name)
  /-- What is committed is committed under the name of its form. -/
  own : ∀ v ∈ s.visits p, ∀ name, v.2.reading.name? ≠ some name →
    (v.1.turn v.2).session.code.get? name = v.1.code.get? name
  /-- An expression leaves alone what forms before it have brought. -/
  kept : ∀ (i j : Nat) (v w : Session × Parser), (s.visits p)[i]? = some v →
    (s.visits p)[j]? = some w → j < i → ∀ a name, v.2.reading = .expression a →
    w.2.reading.name? = some name →
    (v.1.turn v.2).session.code.get? name = v.1.code.get? name

theorem Between.accounts (h : s.Between p) {seen : Array Event} {done : Finished}
    (hsession : done.session = (s.turns p seen).1) (hparser : done.parser = (s.turns p seen).2.1)
    (hevents : done.events.filter Event.isOutput = (s.verdicts p).flatMap Verdict.output) :
    s.Accounts p done where
  stats := by
    obtain ⟨failed, hstats⟩ := s.stats.exists_foldl (s.verdicts p)
    refine ⟨((s.verdicts p).filterMap Verdict.value?).map Value.line, failed, ?_, ?_, ?_⟩
    · have hprinted : done.events.filterMap Event.printed? =
          (done.events.filter Event.isOutput).filterMap Event.printed? := by
        rw [List.filterMap_filter]
        congr 1
        funext e
        cases e <;> rfl
      rw [Finished.output, hprinted, hevents, Verdict.printed_flatMap, List.map_map]
      rfl
    · intro line hline
      obtain ⟨v, _, rfl⟩ := List.mem_map.mp hline
      exact v.newline_not_mem_line
    · rw [hsession, turns_stats, hstats, List.length_map]
  counter := by rw [hparser, counter_turns h.errors]
  names := names_expressions h.errors
  distinct := by
    rw [names_expressions h.errors]
    exact List.pairwise_map.mpr ((List.nodup_range' 1).imp fun hne he =>
      hne (Anonymous.nameOf_inj he))
  unspoken := by
    intro a ha t ht hkind
    obtain ⟨v, hv, hr⟩ := exists_of_mem_expressions ha
    rw [name_expression (h.of_mem_visits hv).errors hr] at hkind
    exact h.spelled_ne _ t (List.mem_cons_of_mem _ ht) _ hkind rfl
  undeclared := by
    intro a ha d hd
    obtain ⟨v, hv, hr⟩ := exists_of_mem_expressions ha
    obtain ⟨w, hw, hd⟩ := List.mem_map.mp hd
    rw [name_expression (h.of_mem_visits hv).errors hr]
    have hb := h.of_mem_visits hw
    have hspelled := Parser.reading_spelled hb.errors (hb.spelled_ne v.2.counter)
    rw [hd] at hspelled
    cases hspelled with
    | declaration hd => exact hd
  own := fun v hv name hname => (h.of_mem_visits hv).settled.code_turn hname
  kept := by
    intro i j v w hi hj hlt a name hr hname
    have hb := h.of_mem_visits (List.mem_of_getElem? hi)
    refine hb.settled.code_turn fun he => ?_
    rw [hr, Reading.name?, name_expression hb.errors hr] at he
    exact h.earlier hi hlt hj (Nat.le_refl _) (hname.trans he.symm)

theorem Between.turns (h : s.Between p) (seen : Array Event) :
    (s.turns p seen).1.Between (s.turns p seen).2.1 := by
  fun_induction Session.turns s p seen with
  | case1 s p seen t seen' hgo ih => exact ih h.turn
  | case2 s p seen t seen' hgo => exact h.turn

theorem Settled.between (h : s.Settled) (source : Source) :
    s.Between (.ofStream (.ofSource source)) :=
  ⟨h, rfl, (TokenStream.spelled_ofSource source).cursor⟩

theorem Settled.run (h : s.Settled) (source : Source) :
    (s.run (.ofSource source)).session.Settled :=
  ((h.between source).turns #[]).settled

/-- Over any text, a session prints as many lines as it counts values; it counts a form for each
value, each failure and each accepted declaration; its parser numbers the expressions that are read,
whatever becomes of them; and as the names they get are different from each other and from all names
in the text, no body that the text brings is committed over by one of them. -/
theorem run_accounts (h : s.Settled) (source : Source) :
    s.Accounts (.ofStream (.ofSource source)) (s.run (.ofSource source)) :=
  (h.between source).accounts rfl rfl (run_output s _)

def medley : String :=
  "include 3; 1 +; int f(int n) \x7b return 6 / n; \x7d f(0); " ++
    "int f(int n) \x7b return n; \x7d f(2); 7;"

def seasoned : Session := ((start {}).run (.ofSource (.ofText "1; 2;"))).session

theorem run_accounts_seasoned :
    seasoned.Settled ∧ seasoned.stats = { forms := 2, evaluated := 2 } ∧
      seasoned.Accounts (.ofStream (.ofSource (.ofText medley)))
        (seasoned.run (.ofSource (.ofText medley))) ∧
      (seasoned.run (.ofSource (.ofText medley))).session.stats = seasoned.stats.plus 2 3 1 ∧
      (seasoned.run (.ofSource (.ofText medley))).parser.counter = 3 := by
  have hsettled : seasoned.Settled := (Settled.start _ _ _ _).run _
  have hbefore : seasoned.stats = { forms := 2, evaluated := 2 } := by decide +kernel
  have hafter :
      (seasoned.run (.ofSource (.ofText medley))).session.stats = seasoned.stats.plus 2 3 1 ∧
        (seasoned.run (.ofSource (.ofText medley))).parser.counter = 3 := by
    decide +kernel
  exact ⟨hsettled, hbefore, run_accounts hsettled (.ofText medley), hafter⟩

end Session

end FormCompiler
