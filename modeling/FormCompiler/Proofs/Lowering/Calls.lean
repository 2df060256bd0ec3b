import FormCompiler.Proofs.Check
import FormCompiler.Proofs.Lowering.Correct

namespace FormCompiler

theorem Foretells.ofExcept_eq {p : Program} {rest : List (Frame Const)} {frame : Frame Const}
    {calls : List HostCall} {ε α : Type} {fault : ε → Fault} {r : Except ε α}
    {post : α → Frame Const → Prop}
    (h : Foretells p rest frame calls (Eval.ofExcept fault r) post) :
    Foretells p rest frame calls (Eval.ofExcept fault r) fun a frame' =>
      r = .ok a ∧ post a frame' := by
  cases r with
  | ok a =>
    obtain ⟨frame', hpost, hreach⟩ := h
    exact ⟨frame', ⟨rfl, hpost⟩, hreach⟩
  | error e => exact h

theorem LowerScope.Agrees.insert {x : LowerScope} {y : EvalScope} {b : Builder}
    {frame : Frame Const} {o : Operand} {c : Const} (h : x.Agrees y b frame)
    (ho : frame.find? id o = some c) (ht : b.func.operandType? o = some c.type) (name : String) :
    LowerScope.Agrees { x with names := x.names.insert name o } (y.bind name c) b frame := by
  refine ⟨⟨h.fits.known, h.fits.unsignedCompare, ?_⟩, h.function, ?_⟩
  · intro other o' ho'
    by_cases he : name = other
    · simp only [Table.get?_insert, if_pos he, Option.some.injEq] at ho'
      subst ho'
      exact ⟨c, by simp [EvalScope.bind, he], ht⟩
    · simp only [Table.get?_insert, if_neg he] at ho'
      obtain ⟨c', hc', ht'⟩ := h.fits.names other o' ho'
      exact ⟨c', by simp [EvalScope.bind, he, hc'], ht'⟩
  · intro other o' c' ho' hc'
    by_cases he : name = other
    · simp only [EvalScope.bind, Table.get?_insert, if_pos he, Option.some.injEq] at ho' hc'
      subst ho' hc'
      exact ho
    · simp only [EvalScope.bind, Table.get?_insert, if_neg he] at ho' hc'
      exact h.values other o' c' ho' hc'

section Body

variable {known : String → Option Signature} {unsignedCompare : Bool} {returns : NativeType}
  {names : Table Operand} {body : List Stmt} {result : Option Expr} {b b' : Builder}

theorem LoweredBody.extends (h : LoweredBody known unsignedCompare returns names body result b b')
    {block : Block} (hb : b.Open block) :
    b.func.Extends b'.func ∧ (b.func.Numbered → b'.func.Numbered) := by
  induction h generalizing block with
  | result he hc =>
    have h₁ := he.grows hb
    have h₂ := h₁.trans (hc.grows h₁.isOpen.choose_spec)
    refine ⟨h₂.func.trans (h₂.isOpen.choose_spec.extends_terminate _), ?_⟩
    intro hn
    exact Builder.Numbered.of_modify (h₂.numbered hn) (fun _ => rfl)
  | nothing =>
    refine ⟨hb.extends_terminate _, ?_⟩
    intro hn
    exact Builder.Numbered.of_modify hn (fun _ => rfl)
  | expression he _ ih =>
    have h₁ := he.grows hb
    obtain ⟨hext, hnum⟩ := ih h₁.isOpen.choose_spec
    exact ⟨h₁.func.trans hext, fun hn => hnum (h₁.numbered hn)⟩
  | variableAs hc _ ih =>
    have h₁ := hc.grows hb
    obtain ⟨hext, hnum⟩ := ih h₁.isOpen.choose_spec
    exact ⟨h₁.func.trans hext, fun hn => hnum (h₁.numbered hn)⟩
  | variableOf _ _ ih => exact ih hb

variable {p : Program} {rest : List (Frame Const)} {frame : Frame Const} {calls : List HostCall}
  {y : EvalScope}

theorem LoweredBody.foretold
    (h : LoweredBody known unsignedCompare returns names body result b b')
    (hvoid : result = none → returns ≠ .void) (ha : Answers p rest y.call) (hat : frame.At b)
    (hf : b'.func.Extends frame.func)
    (hx : LowerScope.Agrees ⟨known, names, unsignedCompare⟩ y b frame) :
    Foretells p rest frame calls (evalBody returns y body result) fun c frame' =>
      frame'.action = .returns (some c) ∧ frame'.returnTo = frame.returnTo := by
  induction h generalizing y frame calls with
  | @result names e o o' b b₁ b₂ he hc =>
    obtain ⟨_, hopen, _⟩ := hat.pc
    have h₁ := he.grows hopen
    have h₂ := hc.grows h₁.isOpen.choose_spec
    have hf₂ := (h₂.isOpen.choose_spec.extends_terminate _).trans hf
    have ih : (LowerTask.expr e).Foretold p rest _ y b [o] b₁ := fun _ _ => he.foretold ha
    rw [evalBody]
    refine .mono (ih.converted he hc hat hf₂ hx) ?_
    rintro c frame₂ ⟨hcomes, ho⟩
    obtain ⟨label, hleave⟩ := hcomes.isAt.action_terminate (hcomes.extends hf)
    simp only [Frame.leave, (frame₂.get_eq_ok id).mpr ho] at hleave
    exact ⟨hleave, hcomes.keeps.returnTo⟩
  | nothing =>
    rw [evalBody]
    cases hz : returns.zero? with
    | none =>
      cases returns with
      | void => exact absurd rfl (hvoid rfl)
      | _ => cases hz
    | some zero =>
      obtain ⟨label, hleave⟩ := hat.action_terminate hf
      rw [hz] at hleave
      exact .pure ⟨hleave, rfl⟩
  | @expression names e body result o b b₁ b₂ he hbody ih =>
    obtain ⟨_, hopen, _⟩ := hat.pc
    have h₁ := he.grows hopen
    have hext := (hbody.extends h₁.isOpen.choose_spec).1
    rw [evalBody]
    refine .bind (foretells_expr.mp (he.foretold ha hat (hext.trans hf) hx)) ?_
    rintro a frame₁ calls₁ ⟨hcomes₁, _⟩
    have hx₁ := hx.mono h₁.func hcomes₁.keeps
    refine .mono (ih hvoid ha hcomes₁.isAt (hcomes₁.extends hf) hx₁) ?_
    rintro c frame₂ ⟨haction, hreturn⟩
    exact ⟨haction, hreturn.trans hcomes₁.keeps.returnTo⟩
  | @variableAs names type name init _ body result o b b₁ b₂ hc hbody ih =>
    obtain ⟨_, hopen, _⟩ := hat.pc
    have h₁ := hc.grows hopen
    have hext := (hbody.extends h₁.isOpen.choose_spec).1
    have htype : b.func.operandType? (.const init.const) = some init.const.type := rfl
    rw [evalBody, EvalScope.arith, hx.function]
    refine .bind (hc.foretold hat (hext.trans hf) rfl htype).ofExcept_eq ?_
    rintro c frame₁ calls₁ ⟨hconvert, hcomes₁, ho⟩
    have ho' : b₁.func.operandType? o = some c.type := by
      rw [hc.operandType? htype, Const.convert_type hconvert]
    have hx₁ := (hx.mono h₁.func hcomes₁.keeps).insert ho ho' name
    refine .mono (ih (y := y.bind name c) hvoid ha hcomes₁.isAt (hcomes₁.extends hf) hx₁) ?_
    rintro c frame₂ ⟨haction, hreturn⟩
    exact ⟨haction, hreturn.trans hcomes₁.keeps.returnTo⟩
  | @variableOf names type name _ body result zero b b' hz hbody ih =>
    rw [evalBody, hz]
    exact ih (y := y.bind name zero) hvoid ha hat hf (hx.insert rfl rfl name)

end Body

def Signature.paramNames (s : Signature) : Table Operand :=
  s.params.zipIdx.foldl (fun names e => names.insert e.1.1 (.param e.2)) ∅

theorem Signature.paramNames_get? {s : Signature} {name : String} {o : Operand}
    (h : s.paramNames.get? name = some o) :
    ∃ index, o = .param index ∧ index < s.params.length := by
  have hfolded : ∀ (es : List ((String × NativeType) × Nat)) (names : Table Operand),
      (∀ e ∈ es, e.2 < s.params.length) →
      (∀ name o, names.get? name = some o → ∃ index, o = .param index ∧ index < s.params.length) →
      ∀ name o,
        (es.foldl (fun names e => names.insert e.1.1 (.param e.2)) names).get? name = some o →
        ∃ index, o = .param index ∧ index < s.params.length := by
    intro es
    induction es with
    | nil => exact fun _ _ hn => hn
    | cons e es ih =>
      intro names hes hn
      obtain ⟨he, hes⟩ := List.forall_mem_cons.mp hes
      apply ih _ hes
      intro name o ho
      rw [Table.get?_insert] at ho
      split at ho
      · exact ⟨e.2, (Option.some.inj ho).symm, he⟩
      · exact hn name o ho
  refine hfolded s.params.zipIdx ∅ ?_ (fun _ _ ho => (by cases ho)) name o h
  intro e he
  simpa using List.snd_lt_of_mem_zipIdx he

theorem Machine.checkArgs_blur {f : Func} {args : List Const} {fault : Fault}
    (h : checkArgs f args = .error fault) : fault.blur = fault := by
  unfold checkArgs at h
  split at h
  next => cases h; rfl
  next =>
    obtain ⟨e, _, he⟩ := exists_of_forM_eq_error h
    by_cases ht : e.1.type = e.2.2
    · simp only [ht, if_true] at he
      cases he
    · simp only [ht, if_false] at he
      cases he
      rfl

theorem Signature.agrees_params {s : Signature} {f : Func} {args : List Const}
    {returnTo : Option Nat} (hf : f.signature = s) (hargs : args.map Const.type = s.paramTypes)
    (known : String → Option Signature) (unsignedCompare : Bool)
    (call : String → List Const → Eval Const) :
    LowerScope.Agrees ⟨known, s.paramNames, unsignedCompare⟩
      ⟨s.name, known, unsignedCompare, call, s.bindArgs args⟩ (.start s)
      (Frame.start f args returnTo) := by
  have hfolded : ∀ (params : List (String × NativeType)) (rest : List Const) (n : Nat)
      (names : Table Operand) (vars : Table Const),
      s.params.drop n = params → args.drop n = rest →
      LowerScope.Agrees ⟨known, names, unsignedCompare⟩
        ⟨s.name, known, unsignedCompare, call, vars⟩ (.start s) (Frame.start f args returnTo) →
      LowerScope.Agrees
        ⟨known, (params.zipIdx n).foldl (fun names e => names.insert e.1.1 (.param e.2)) names,
          unsignedCompare⟩
        ⟨s.name, known, unsignedCompare, call,
          (params.zip rest).foldl (fun vars e => vars.insert e.1.1 e.2) vars⟩
        (.start s) (Frame.start f args returnTo) := by
    intro params
    induction params with
    | nil => intro rest n names vars _ _ h; exact h
    | cons param params ih =>
      intro rest n names vars hparams hrest h
      have htypes : s.paramTypes.drop n = rest.map Const.type := by
        rw [← hargs, ← List.map_drop, hrest]
      cases rest with
      | nil =>
        rw [Signature.paramTypes, ← List.map_drop, hparams] at htypes
        cases htypes
      | cons arg rest =>
        have harg : args[n]? = some arg := by
          rw [← List.head?_drop, hrest]
          rfl
        have htype : s.paramTypes[n]? = some arg.type := by
          rw [← List.head?_drop, htypes]
          rfl
        refine ih rest (n + 1) _ _ ?_ ?_ (h.insert (o := .param n) harg htype param.1)
        · rw [← List.drop_drop, hparams]
          rfl
        · rw [← List.drop_drop, hrest]
          rfl
  refine hfolded s.params args 0 ∅ ∅ rfl rfl ⟨⟨rfl, rfl, ?_⟩, ?_, ?_⟩
  · intro name o ho
    cases ho
  · simp [Frame.start, Func.name, hf]
  · intro name o c ho _
    cases ho

structure Definition.Compiles (d : Definition) (unsignedCompare : Bool) (f : Func) : Prop where
  returns : d.result = none → d.signature.returns ≠ .void
  lowered : ∃ b, f = b.func ∧ LoweredBody d.known unsignedCompare d.signature.returns
    d.signature.paramNames d.body d.result (.start d.signature) b

theorem Builder.open_start (s : Signature) :
    (Builder.start s).Open { id := 0, label := "entry" } := ⟨rfl, rfl⟩

theorem Builder.numbered_start (s : Signature) : (Builder.start s).func.Numbered := by
  intro i b hb
  cases i with
  | zero => cases hb; rfl
  | succ i => simp [Builder.start] at hb

namespace Definition.Compiles

variable {d : Definition} {unsignedCompare : Bool} {f : Func}

theorem signature (h : d.Compiles unsignedCompare f) : f.signature = d.signature := by
  obtain ⟨b, rfl, hb⟩ := h.lowered
  exact (hb.extends (Builder.open_start _)).1.signature

theorem foretold (h : d.Compiles unsignedCompare f) {p : Program} {stack : List (Frame Const)}
    {call : String → List Const → Eval Const} {args : List Const} {returnTo : Option Nat}
    {calls : List HostCall} (ha : Answers p stack call)
    (hargs : args.map Const.type = d.signature.paramTypes) :
    Foretells p stack (Frame.start f args returnTo) calls (d.eval unsignedCompare call args)
      fun c frame' => frame'.action = .returns (some c) ∧ frame'.returnTo = returnTo := by
  have hs := h.signature
  obtain ⟨b, rfl, hb⟩ := h.lowered
  have hnum := (hb.extends (Builder.open_start _)).2 (Builder.numbered_start _)
  exact hb.foretold h.returns ha ⟨hnum, rfl, _, Builder.open_start _, rfl⟩ .refl
    (Signature.agrees_params hs hargs _ _ _)

end Definition.Compiles

theorem HostTable.doubles_blur {name : String} {args : List Value} {fault : Fault}
    (h : doubles name args = .error fault) : fault.blur = fault := by
  induction args with
  | nil => cases h
  | cons arg args ih =>
    cases arg with
    | void => cases h; rfl
    | of c =>
      cases c with
      | i1 value => cases h; rfl
      | i32 value => cases h; rfl
      | f64 x =>
        simp only [doubles] at h
        cases hd : doubles name args with
        | ok xs => rw [hd] at h; cases h
        | error fault' => rw [hd] at h; cases h; exact ih hd

theorem HostTable.call_blur {t : HostTable} {name : String} {args : List Value} {fault : Fault}
    (h : t.call name args = .error fault) : fault.blur = fault := by
  unfold HostTable.call at h
  cases ht : t.get? name with
  | none => rw [ht] at h; cases h; rfl
  | some host =>
    simp only [ht] at h
    split at h
    next => cases h; rfl
    next =>
      cases hd : doubles name args with
      | ok xs => rw [hd] at h; cases h
      | error fault' => rw [hd] at h; cases h; exact doubles_blur hd

def Outcome.ofEval : EStateM.Result Fault (List HostCall) Const → Outcome
  | .ok c calls => ⟨.ok (some c), calls⟩
  | .error fault calls => ⟨.error fault, calls⟩

def Outcome.blur (o : Outcome) : Outcome := { o with result := o.result.mapError Fault.blur }

def Engine.Called.blur (c : Engine.Called) : Engine.Called :=
  { c with result := c.result.mapError Fault.blur }

theorem Engine.constants_blur {name : String} {args : List Value} {fault : Fault}
    (h : Engine.constants name args = .error fault) : fault.blur = fault := by
  induction args with
  | nil => cases h
  | cons arg args ih =>
    simp only [Engine.constants, List.mapM_cons] at h ih
    cases arg with
    | void => cases h; rfl
    | of c =>
      simp only [bind, Except.bind] at h
      split at h
      next fault' he => cases h; exact ih he
      next => cases h

structure Meaning.Compiles (m : Meaning) (p : Program) : Prop where
  host : p.host = m.host
  depth : p.depth = m.depth
  code : ∀ name d, m.sources.get? name = some d →
    ∃ f, p.code.get? name = some f ∧ d.Compiles m.unsignedCompare f
  missing : ∀ name, m.sources.get? name = none → p.code.get? name = none

namespace Meaning.Compiles

variable {m : Meaning} {p : Program} {rest : List (Frame Const)} {frame next : Frame Const}
  {calls : List HostCall} {dst : Nat} {callee : String} {args : List Const}

theorem answer_foretold (hm : m.Compiles p) {enter : Definition → List Const → Eval Const}
    (haction : frame.action = .calls next dst callee args)
    (henter : ∀ d f, p.code.get? callee = some f → d.Compiles m.unsignedCompare f →
      args.map Const.type = d.signature.paramTypes →
      Foretells p rest frame calls (enter d args) fun c frame' => frame' = next.set dst c) :
    Foretells p rest frame calls (m.answer enter callee args)
      fun c frame' => frame' = next.set dst c := by
  have hstep : Machine.step p ⟨frame :: rest, calls⟩ =
      (⟨next :: rest, calls⟩ : Machine).call p dst callee args := by
    rw [Machine.step_cons, haction]
    rfl
  unfold answer
  cases hd : m.sources.get? callee with
  | none =>
    rw [Machine.call, hm.missing callee hd, hm.host] at hstep
    unfold callHost
    cases hh : m.host.call callee (args.map Value.of) with
    | ok h =>
      rw [hh] at hstep
      exact ⟨_, rfl, .of_step hstep⟩
    | error fault =>
      rw [hh] at hstep
      exact ⟨fault, HostTable.call_blur hh, .of_step hstep⟩
  | some d =>
    obtain ⟨f, hf, hc⟩ := hm.code callee d hd
    simp only [Machine.call, hf, Machine.enter] at hstep
    have hcheck : Machine.checkArgs { signature := d.signature } args =
        Machine.checkArgs f args := by
      simp [Machine.checkArgs, Func.name, hc.signature]
    simp only [hcheck]
    cases hargs : Machine.checkArgs f args with
    | ok u =>
      rw [Machine.checkArgs_eq_ok, hc.signature] at hargs
      exact henter d f hf hc hargs
    | error fault =>
      rw [hargs] at hstep
      exact ⟨fault, Machine.checkArgs_blur hargs, .of_step hstep⟩

theorem answers (hm : m.Compiles p) (n : Nat) (hdepth : rest.length + 1 + n = p.depth) :
    Answers p rest (m.call n) := by
  induction n generalizing rest with
  | zero =>
    intro frame calls next dst callee args haction
    rw [call]
    refine hm.answer_foretold haction ?_
    intro d f hf hc hargs
    have hstep : Machine.step p ⟨frame :: rest, calls⟩ =
        .halted ⟨.error (.tooDeep d.signature.name m.depth), calls⟩ := by
      rw [← hc.signature] at hargs ⊢
      rw [Machine.step_cons, haction, ← hm.depth]
      simp only [Machine.carryOut, Machine.call, hf, Machine.enter,
        Machine.checkArgs_eq_ok.mpr hargs]
      have hlt : ¬ (next :: rest).length < p.depth := by simp only [List.length_cons]; omega
      simp only [bind, Except.bind, hlt, if_false]
      rfl
    exact ⟨_, rfl, .of_step hstep⟩
  | succ n ih =>
    intro frame calls next dst callee args haction
    rw [call]
    refine hm.answer_foretold haction ?_
    intro d f hf hc hargs
    have hstep : Machine.step p ⟨frame :: rest, calls⟩ =
        .running ⟨Frame.start f args (some dst) :: next :: rest, calls⟩ := by
      rw [← hc.signature] at hargs
      rw [Machine.step_cons, haction]
      simp only [Machine.carryOut, Machine.call, hf, Machine.enter,
        Machine.checkArgs_eq_ok.mpr hargs]
      have hlt : (next :: rest).length < p.depth := by simp only [List.length_cons]; omega
      simp only [bind, Except.bind, hlt, if_true]
      rfl
    have hrest : (next :: rest).length + 1 + n = p.depth := by simp only [List.length_cons]; omega
    have hbody : Foretells p (next :: rest) (Frame.start f args (some dst)) calls _ _ :=
      hc.foretold (ih hrest) hargs
    simp only [Foretells] at hbody ⊢
    cases he : d.eval m.unsignedCompare (m.call n) args calls with
    | ok c calls' =>
      simp only [he] at hbody ⊢
      obtain ⟨frame', ⟨hreturns, hreturnTo⟩, hreach⟩ := hbody
      have hreturn : Machine.step p ⟨frame' :: next :: rest, calls'⟩ =
          .running ⟨next.set dst c :: rest, calls'⟩ := by
        rw [Machine.step_cons, hreturns]
        simp only [Machine.carryOut, Machine.return?, hreturnTo]
        rfl
      exact ⟨_, rfl, (Machine.Reaches.of_step hstep).trans (hreach.trans (.of_step hreturn))⟩
    | error fault calls' =>
      simp only [he] at hbody ⊢
      obtain ⟨fault', hblur, hends⟩ := hbody
      exact ⟨fault', hblur, (Machine.Reaches.of_step hstep).ends hends⟩

theorem run_start (hm : m.Compiles p) {d : Definition} {f : Func} {n : Nat}
    (hc : d.Compiles m.unsignedCompare f) (hargs : args.map Const.type = d.signature.paramTypes)
    (hdepth : n + 1 = p.depth) :
    ∃ k outcome, (∀ fuel, k ≤ fuel →
      Machine.run p fuel ⟨[Frame.start f args none], []⟩ = some outcome) ∧
      outcome.blur = Outcome.ofEval (d.eval m.unsignedCompare (m.call n) args []) := by
  have hanswers : Answers p [] (m.call n) := hm.answers n (by simp only [List.length_nil]; omega)
  have hbody : Foretells p [] (Frame.start f args none) [] _ _ := hc.foretold hanswers hargs
  have hruns : ∀ outcome, Machine.Ends p ⟨[Frame.start f args none], []⟩ outcome →
      ∃ k, ∀ fuel, k ≤ fuel →
        Machine.run p fuel ⟨[Frame.start f args none], []⟩ = some outcome := by
    intro outcome hends
    obtain ⟨k, hk⟩ := hends
    refine ⟨k, fun fuel hfuel => ?_⟩
    rw [← hk (fuel - k), Nat.add_sub_cancel' hfuel]
  simp only [Foretells] at hbody
  cases he : d.eval m.unsignedCompare (m.call n) args [] with
  | ok c calls' =>
    simp only [he] at hbody
    obtain ⟨frame', ⟨hreturns, _⟩, hreach⟩ := hbody
    have hreturn : Machine.step p ⟨[frame'], calls'⟩ = .halted ⟨.ok (some c), calls'⟩ := by
      rw [Machine.step_cons, hreturns]
      rfl
    obtain ⟨k, hk⟩ := hruns _ (hreach.ends (.of_step hreturn))
    exact ⟨k, _, hk, rfl⟩
  | error fault calls' =>
    simp only [he] at hbody
    obtain ⟨fault', hblur, hends⟩ := hbody
    obtain ⟨k, hk⟩ := hruns _ hends
    refine ⟨k, _, hk, ?_⟩
    simp [Outcome.blur, Outcome.ofEval, mapError_error, hblur]

theorem call_eq_answer (m : Meaning) (n : Nat) : m.call n = m.answer (fun d args =>
    match n with
    | 0 => throw (.tooDeep d.signature.name m.depth)
    | n + 1 => d.eval m.unsignedCompare (m.call n) args) := by
  cases n <;> rfl

theorem call_blur (hm : m.Compiles p) (name : String) (args : List Const) :
    ∃ k, ∀ fuel, k ≤ fuel →
      (p.call fuel name args).map Outcome.blur =
        some (Outcome.ofEval (m.call m.depth name args [])) := by
  rw [call_eq_answer]
  unfold answer Program.call
  cases hd : m.sources.get? name with
  | none =>
    refine ⟨0, fun fuel _ => ?_⟩
    simp only [hm.missing name hd, hm.host, callHost]
    cases hh : m.host.call name (args.map Value.of) with
    | ok h => rfl
    | error fault =>
      have hblur := HostTable.call_blur hh
      simp only [Option.map_some, Outcome.blur, mapError_error, hblur]
      rfl
  | some d =>
    obtain ⟨f, hf, hc⟩ := hm.code name d hd
    have hcheck : Machine.checkArgs { signature := d.signature } args =
        Machine.checkArgs f args := by
      simp [Machine.checkArgs, Func.name, hc.signature]
    simp only [hf, hcheck, Machine.enter]
    cases hargs : Machine.checkArgs f args with
    | error fault =>
      refine ⟨0, fun fuel _ => ?_⟩
      have hblur := Machine.checkArgs_blur hargs
      simp only [bind, Except.bind, Option.map_some, Outcome.blur, mapError_error, hblur]
      rfl
    | ok u =>
      rw [Machine.checkArgs_eq_ok, hc.signature] at hargs
      have hdepth := hm.depth
      cases hn : m.depth with
      | zero =>
        refine ⟨0, fun fuel _ => ?_⟩
        have hname : f.name = d.signature.name := by rw [Func.name, hc.signature]
        simp only [bind, Except.bind, hdepth, hn, hname]
        rfl
      | succ n =>
        obtain ⟨k, outcome, hrun, hblur⟩ := hm.run_start hc hargs (by rw [hdepth, hn])
        refine ⟨k, fun fuel hfuel => ?_⟩
        have hlt : ([] : List (Frame Const)).length < p.depth := by rw [hdepth, hn]; simp
        simp only [bind, Except.bind, hlt, if_true]
        change (Machine.run p fuel ⟨[Frame.start f args none], []⟩).map Outcome.blur = _
        rw [hrun fuel hfuel, Option.map_some, hblur]
        rfl

theorem engine_call (hm : m.Compiles p) (layout : DataLayout) (name : String)
    (args : List Value) :
    ∃ n, ∀ steps, n ≤ steps →
      ((⟨layout, p, steps⟩ : Engine).call name args).blur = m.called name args := by
  unfold Engine.call called
  cases hc : Engine.constants name args with
  | error fault =>
    refine ⟨0, fun steps _ => ?_⟩
    have hblur := Engine.constants_blur hc
    simp only [Engine.Called.blur, mapError_error, hblur]
  | ok args =>
    obtain ⟨n, hn⟩ := hm.call_blur name args
    refine ⟨n, fun steps hsteps => ?_⟩
    have h := hn steps hsteps
    simp only
    cases ho : p.call steps name args with
    | none => rw [ho] at h; cases h
    | some outcome =>
      rw [ho, Option.map_some, Option.some.injEq] at h
      simp only
      cases he : m.call m.depth name args [] with
      | ok c calls =>
        rw [he] at h
        obtain ⟨result, outcomeCalls⟩ := outcome
        cases result with
        | ok result => cases h; rfl
        | error fault => cases h
      | error fault calls =>
        rw [he] at h
        obtain ⟨result, outcomeCalls⟩ := outcome
        cases result with
        | ok result => cases h
        | error fault => cases h; rfl

end Meaning.Compiles

end FormCompiler
