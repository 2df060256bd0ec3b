import FormCompiler.Proofs.Machine.BigStep
import FormCompiler.Proofs.Machine.Halting

/-!
The stack of the machine is the recursion of calls: the machine comes to an end exactly if the call
evaluates to it, whatever frames wait below.
-/

namespace FormCompiler

namespace Machine

variable {p : Program} {m m' : Machine} {frame next last : Frame Const}
  {base rest stack : List (Frame Const)} {log log' : List HostCall} {o outcome : Outcome}
  {n dst : Nat} {callee name : String} {args : List Const} {r : Option Const} {fault : Fault}

theorem exists_run_iff :
    (∃ k, m.run p k = some outcome) ↔
      ∃ m', Steps p [] m m' ∧ m'.step p = .halted outcome := by
  constructor
  · rintro ⟨k, h⟩
    induction k generalizing m with
    | zero => cases h
    | succ k ih =>
      rw [run] at h
      cases hs : m.step p with
      | running next =>
        rw [hs] at h
        obtain ⟨m', hsteps, hend⟩ := ih h
        exact ⟨m', (Steps.of_step hs List.nil_suffix).trans hsteps, hend⟩
      | halted last =>
        rw [hs] at h
        cases h
        exact ⟨m, .refl, hs⟩
  · rintro ⟨m', hsteps, hend⟩
    induction hsteps using Relation.ReflTransGen.head_induction_on with
    | refl => exact ⟨1, by rw [run, hend]⟩
    | head hstep _ ih =>
      obtain ⟨k, hk⟩ := ih
      exact ⟨k + 1, by rw [run, hstep.1]; exact hk⟩

theorem Steps.of_goes (h : frame.action = .goes next) :
    Steps p rest ⟨frame :: rest, log⟩ ⟨next :: rest, log⟩ :=
  .of_step (by rw [step_cons, h]; rfl) (List.suffix_cons next rest)

theorem step_calls (h : frame.action = .calls next dst callee args) :
    (⟨frame :: rest, log⟩ : Machine).step p =
      (⟨next :: rest, log⟩ : Machine).call p dst callee args := by
  rw [step_cons, h]
  rfl

theorem step_returns {caller : Frame Const} (h : last.action = .returns r)
    (hto : last.returnTo = some dst) :
    (⟨last :: caller :: rest, log⟩ : Machine).step p =
      .running ⟨caller.receive dst r :: rest, log⟩ := by
  rw [step_cons, h]
  change return? last (caller :: rest) log r = _
  unfold return?
  rw [hto]
  cases r <;> rfl

inductive Arrives (p : Program) (frame : Frame Const) (rest : List (Frame Const))
    (log : List HostCall) : Outcome → Prop
  | returns {last : Frame Const} {r : Option Const} {log' : List HostCall} :
      last.returnTo = frame.returnTo → last.action = .returns r →
      Steps p rest ⟨frame :: rest, log⟩ ⟨last :: rest, log'⟩ →
      Arrives p frame rest log ⟨.ok r, log'⟩
  | fails {m : Machine} {fault : Fault} {log' : List HostCall} :
      Steps p rest ⟨frame :: rest, log⟩ m → m.step p = .halted ⟨.error fault, log'⟩ →
      Arrives p frame rest log ⟨.error fault, log'⟩

namespace Arrives

theorem of_steps (h : Steps p rest ⟨frame :: rest, log⟩ ⟨next :: rest, log'⟩)
    (hto : next.returnTo = frame.returnTo) (ha : Arrives p next rest log' o) :
    Arrives p frame rest log o := by
  cases ha with
  | returns hlast hr hs => exact .returns (hlast.trans hto) hr (h.trans hs)
  | fails hs hend => exact .fails (h.trans hs) hend

theorem of_goes (h : frame.action = .goes next) (ha : Arrives p next rest log o) :
    Arrives p frame rest log o := .of_steps (.of_goes h) (Frame.goes_keeps h).2 ha

theorem of_returns (h : frame.action = .returns r) : Arrives p frame rest log ⟨.ok r, log⟩ :=
  .returns rfl h .refl

theorem of_fails (h : frame.action = .fails fault) :
    Arrives p frame rest log ⟨.error fault, log⟩ := .fails .refl (by rw [step_cons, h]; rfl)

end Arrives

/-- A call of `name` over the frames of `stack` is answered at once, or by the frame that is put on
them. -/
inductive Answers (p : Program) (stack : List (Frame Const)) (name : String) (args : List Const)
    (log : List HostCall) : Outcome → Prop
  | host {h : HostCall} : p.code.get? name = none →
      p.host.call name (args.map Value.of) = .ok h →
      Answers p stack name args log ⟨.ok (some (.f64 h.result)), h :: log⟩
  | hostFault {fault : Fault} : p.code.get? name = none →
      p.host.call name (args.map Value.of) = .error fault →
      Answers p stack name args log ⟨.error fault, log⟩
  | refused {f : Func} {fault : Fault} : p.code.get? name = some f →
      (∀ back, enter p ⟨stack, log⟩ f args back = .error fault) →
      Answers p stack name args log ⟨.error fault, log⟩
  | entered {f : Func} {o : Outcome} : p.code.get? name = some f →
      (∀ back, enter p ⟨stack, log⟩ f args back = .ok ⟨Frame.start f args back :: stack, log⟩) →
      (∀ back, Arrives p (Frame.start f args back) stack log o) → Answers p stack name args log o

theorem Answers.steps (h : Answers p (next :: rest) callee args log ⟨.ok r, log'⟩)
    (ha : frame.action = .calls next dst callee args) :
    Steps p rest ⟨frame :: rest, log⟩ ⟨next.receive dst r :: rest, log'⟩ := by
  have hstep : step p ⟨frame :: rest, log⟩ = _ := step_calls ha
  cases h with
  | host hn hh =>
    exact .of_step (hstep.trans (call_host hn hh)) (List.suffix_cons _ rest)
  | @entered f _ hf he harrives =>
    cases harrives (some dst) with
    | returns hto hr hs =>
      have hentered : (⟨frame :: rest, log⟩ : Machine).step p =
          .running ⟨Frame.start f args (some dst) :: next :: rest, log⟩ := by
        rw [hstep, call_of_some hf, he]
        rfl
      have hbase : rest <:+ next :: rest := List.suffix_cons next rest
      calc Steps p rest ⟨frame :: rest, log⟩ ⟨Frame.start f args (some dst) :: next :: rest, log⟩ :=
            .of_step hentered (hbase.trans (List.suffix_cons _ _))
        Steps p rest _ ⟨_ :: next :: rest, log'⟩ := hs.below hbase
        Steps p rest _ ⟨next.receive dst r :: rest, log'⟩ :=
            .of_step (step_returns hr hto) (List.suffix_cons _ rest)

theorem Answers.fails (h : Answers p (next :: rest) callee args log ⟨.error fault, log'⟩)
    (ha : frame.action = .calls next dst callee args) :
    Arrives p frame rest log ⟨.error fault, log'⟩ := by
  have hstep : step p ⟨frame :: rest, log⟩ = _ := step_calls ha
  cases h with
  | hostFault hn hh => exact .fails .refl (hstep.trans (call_hostFault hn hh))
  | refused hf he =>
    refine .fails .refl (hstep.trans ?_)
    rw [call_of_some hf, he]
    rfl
  | @entered f _ hf he harrives =>
    cases harrives (some dst) with
    | fails hs hend =>
      have hbase : rest <:+ next :: rest := List.suffix_cons next rest
      refine .fails ((Steps.of_step ?_ (hbase.trans (List.suffix_cons _ _))).trans
        (hs.below hbase)) hend
      rw [hstep, call_of_some hf, he]
      rfl

def Performs (p : Program) (n : Nat) : Task → List HostCall → Outcome → Prop
  | .call name args, log, o => ∀ stack, n = p.depth - stack.length → Answers p stack name args log o
  | .block a id, log, o => ∀ frame rest, n = p.depth - (rest.length + 1) → frame.activation = a →
      frame.block = id → frame.pc = 0 → Arrives p frame rest log o
  | .code a b is, log, o => ∀ frame rest, n = p.depth - (rest.length + 1) → frame.activation = a →
      frame.func.block? frame.block = some b → b.instructions.drop frame.pc = is →
      Arrives p frame rest log o

namespace Performs

variable {f : Func} {a : Activation} {b : Block} {i : Instruction} {is : List Instruction}
  {operands : List Operand} {returns : NativeType} {condition : Operand} {whenTrue whenFalse : Nat}

theorem enter (hf : p.code.get? name = some f) (hc : checkArgs f args = .ok ())
    (hblock : Performs p n (.block { func := f, args } 0) log o) :
    Performs p (n + 1) (.call name args) log o := by
  intro stack hd
  have hroom : stack.length < p.depth := by omega
  refine .entered hf (enter_entered hc hroom) fun back => ?_
  exact hblock _ stack (by omega) (Frame.activation_start f args back) rfl rfl

theorem computes {c : Const} (hc : a.compute? i = some (.ok c))
    (hrest : Performs p n (.code (a.set i.dst c) b is) log o) :
    Performs p n (.code a b (i :: is)) log o := by
  rintro frame rest hd rfl hb hdrop
  have hs := Frame.stands_of_drop hb hdrop
  obtain ⟨hi, hv⟩ := Frame.compute?_eq_some.mp hc
  refine .of_goes (Frame.action_computes hs hi hv) ?_
  exact hrest _ rest hd (frame.activation_set i.dst c) hb (Frame.drop_next hdrop)

theorem calls (hi : i.op = .call callee operands returns) (ha : operands.mapM a.get = .ok args)
    (hcall : Performs p n (.call callee args) log ⟨.ok r, log'⟩)
    (hrest : Performs p n (.code (a.receive i.dst r) b is) log' o) :
    Performs p n (.code a b (i :: is)) log o := by
  rintro frame rest hd rfl hb hdrop
  rw [Frame.activation_get] at ha
  have hcalls := Frame.action_calls (Frame.stands_of_drop hb hdrop) hi ha
  refine .of_steps ((hcall (frame.next :: rest) hd).steps hcalls) ?_ ?_
  · cases r <;> rfl
  · refine hrest _ rest hd (frame.activation_receive i.dst r) ?_ ?_
    · cases r <;> exact hb
    · cases r <;> exact Frame.drop_next hdrop

theorem callFault (hi : i.op = .call callee operands returns)
    (ha : operands.mapM a.get = .ok args)
    (hcall : Performs p n (.call callee args) log ⟨.error fault, log'⟩) :
    Performs p n (.code a b (i :: is)) log ⟨.error fault, log'⟩ := by
  rintro frame rest hd rfl hb hdrop
  rw [Frame.activation_get] at ha
  have hcalls := Frame.action_calls (Frame.stands_of_drop hb hdrop) hi ha
  exact (hcall (frame.next :: rest) hd).fails hcalls

theorem jump {target : Nat} (ht : b.terminator = some (.br target))
    (hblock : Performs p n (.block (a.leave b) target) log o) :
    Performs p n (.code a b []) log o := by
  rintro frame rest hd rfl hb hdrop
  have hs := Frame.stands_of_drop hb hdrop
  refine .of_goes (Frame.action_jumps hs ht .br) ?_
  exact hblock _ rest hd (Frame.activation_jump hb target) rfl rfl

theorem branch {taken : Bool} (ht : b.terminator = some (.condBr condition whenTrue whenFalse))
    (ho : a.get condition = .ok (.i1 taken))
    (hblock : Performs p n (.block (a.leave b) (if taken then whenTrue else whenFalse)) log o) :
    Performs p n (.code a b []) log o := by
  rintro frame rest hd rfl hb hdrop
  have hs := Frame.stands_of_drop hb hdrop
  rw [Frame.activation_get, Frame.get_eq_ok] at ho
  cases taken with
  | true =>
    refine .of_goes (Frame.action_jumps hs ht (.whenTrue ho)) ?_
    exact hblock _ rest hd (Frame.activation_jump hb whenTrue) rfl rfl
  | false =>
    refine .of_goes (Frame.action_jumps hs ht (.whenFalse ho)) ?_
    exact hblock _ rest hd (Frame.activation_jump hb whenFalse) rfl rfl

theorem branchFault (ht : b.terminator = some (.condBr condition whenTrue whenFalse))
    (ho : a.get condition = .error fault) :
    Performs p n (.code a b []) log ⟨.error fault, log⟩ := by
  rintro frame rest - rfl hb hdrop
  rw [Frame.activation_get] at ho
  apply Arrives.of_fails
  rw [Frame.action_leave (Frame.stands_of_drop hb hdrop), ht]
  simp only [Frame.leave, ho]

theorem branchOn {c : Const} (ht : b.terminator = some (.condBr condition whenTrue whenFalse))
    (ho : a.get condition = .ok c) (hc : c.type ≠ .i1) :
    Performs p n (.code a b []) log ⟨.error (.misfit a.func.name (.branchOn c)), log⟩ := by
  rintro frame rest - rfl hb hdrop
  rw [Frame.activation_get] at ho
  apply Arrives.of_fails
  rw [Frame.action_leave (Frame.stands_of_drop hb hdrop), ht]
  cases c with
  | i1 taken => exact absurd rfl hc
  | i32 k => simp only [Frame.leave, ho]; rfl
  | f64 x => simp only [Frame.leave, ho]; rfl

end Performs

end Machine

open Machine

/-- Whatever a task evaluates to, the machine comes to it: by induction on the evaluation, for all
stacks of the height that the depth left stands for. -/
theorem Evaluates.performs {p : Program} {n : Nat} {task : Task} {log : List HostCall} {o : Outcome}
    (h : Evaluates p n task log o) : Performs p n task log o := by
  induction h with
  | host hn hh => exact fun stack _ => .host hn hh
  | hostFault hn hh => exact fun stack _ => .hostFault hn hh
  | unfit hf hc => exact fun stack _ => .refused hf (enter_unfit hc)
  | @tooDeep name args log f hf hc =>
    intro stack hd
    have hfull : p.depth ≤ stack.length := by omega
    exact .refused hf (enter_full hc hfull)
  | enter hf hc _ ih => exact Performs.enter hf hc ih
  | missing hn =>
    rintro frame rest - rfl rfl -
    apply Arrives.of_fails
    rw [Frame.action, show frame.func.block? frame.block = none from hn]
    rfl
  | block hb _ ih =>
    rintro frame rest hd rfl rfl hpc
    exact ih frame rest hd rfl hb (by rw [hpc, List.drop_zero])
  | computes hc _ ih => exact Performs.computes hc ih
  | computeFault hc =>
    rintro frame rest - rfl hb hdrop
    obtain ⟨hi, hv⟩ := Frame.compute?_eq_some.mp hc
    exact .of_fails (Frame.action_computeFault (Frame.stands_of_drop hb hdrop) hi hv)
  | argFault hi ha =>
    rintro frame rest - rfl hb hdrop
    rw [Frame.activation_get] at ha
    exact .of_fails (Frame.action_argFault (Frame.stands_of_drop hb hdrop) hi ha)
  | calls hi ha _ _ ihc ih => exact Performs.calls hi ha ihc ih
  | callFault hi ha _ ihc => exact Performs.callFault hi ha ihc
  | unended ht =>
    rintro frame rest - rfl hb hdrop
    apply Arrives.of_fails
    rw [Frame.action_leave (Frame.stands_of_drop hb hdrop), ht]
    rfl
  | void ht =>
    rintro frame rest - rfl hb hdrop
    exact .of_returns (Frame.action_ends (Frame.stands_of_drop hb hdrop) ht .void)
  | returns ht ho =>
    rintro frame rest - rfl hb hdrop
    rw [Frame.activation_get, Frame.get_eq_ok] at ho
    exact .of_returns (Frame.action_ends (Frame.stands_of_drop hb hdrop) ht (.value ho))
  | returnFault ht ho =>
    rintro frame rest - rfl hb hdrop
    rw [Frame.activation_get] at ho
    apply Arrives.of_fails
    rw [Frame.action_leave (Frame.stands_of_drop hb hdrop), ht]
    simp only [Frame.leave, ho]
  | jump ht _ ih => exact Performs.jump ht ih
  | branch ht ho _ ih => exact Performs.branch ht ho ih
  | branchFault ht ho => exact Performs.branchFault ht ho
  | branchOn ht ho hc => exact Performs.branchOn ht ho hc

namespace Machine

variable {p : Program} {frame last next : Frame Const} {rest : List (Frame Const)}
  {log log' : List HostCall} {o outcome : Outcome} {k j dst : Nat} {r : Option Const}

inductive EndsBy (p : Program) (k : Nat) (frame : Frame Const) (rest : List (Frame Const))
    (outcome : Outcome) : Outcome → Prop
  | failed {fault : Fault} : outcome.result = .error fault → EndsBy p k frame rest outcome outcome
  | returned {last : Frame Const} {r : Option Const} {log' : List HostCall} {j : Nat} : j ≤ k →
      last.returnTo = frame.returnTo → last.action = .returns r →
      (⟨last :: rest, log'⟩ : Machine).run p j = some outcome →
      EndsBy p k frame rest outcome ⟨.ok r, log'⟩

theorem EndsBy.of_later (h : EndsBy p j next rest outcome o) (hj : j ≤ k)
    (hto : next.returnTo = frame.returnTo) : EndsBy p k frame rest outcome o := by
  cases h with
  | failed he => exact .failed he
  | returned hi hlast hr hrun => exact .returned (Nat.le_trans hi hj) (hlast.trans hto) hr hrun

theorem run_returns {caller : Frame Const} (h : last.action = .returns r)
    (hto : last.returnTo = some dst)
    (hrun : (⟨last :: caller :: rest, log⟩ : Machine).run p j = some outcome) :
    ∃ i < j, (⟨caller.receive dst r :: rest, log⟩ : Machine).run p i = some outcome := by
  cases j with
  | zero => cases hrun
  | succ i =>
    rw [run, step_returns h hto] at hrun
    exact ⟨i, Nat.lt_succ_self i, hrun⟩

/-- If a run ends, its innermost call evaluates to what the run goes on with: by induction on the
number of its steps. -/
theorem exists_evaluates (h : (⟨frame :: rest, log⟩ : Machine).run p k = some outcome) :
    ∃ o, Evaluates p (p.depth - (rest.length + 1)) frame.task log o ∧
      EndsBy p k frame rest outcome o := by
  induction k using Nat.strongRecOn generalizing frame rest log with
  | ind k ih =>
    obtain ⟨j, rfl⟩ : ∃ j, k = j + 1 := by
      cases k with
      | zero => cases h
      | succ j => exact ⟨j, rfl⟩
    have hj : j < j + 1 := Nat.lt_succ_self j
    rw [run, step_cons] at h
    cases ha : frame.action with
    | goes next =>
      rw [ha] at h
      obtain ⟨o, he, hend⟩ := ih j hj h
      exact ⟨o, .of_goes ha he, hend.of_later (Nat.le_of_lt hj) (Frame.goes_keeps ha).2⟩
    | fails fault =>
      rw [ha] at h
      cases h
      exact ⟨_, .of_fails ha, .failed rfl⟩
    | returns r =>
      refine ⟨_, .of_returns ha, .returned (Nat.le_refl _) rfl ha ?_⟩
      rw [run, step_cons]
      exact h
    | calls next dst callee args =>
      rw [ha] at h
      simp only [carryOut] at h
      -- the caller goes on in fewer steps, whatever it has received
      have hresume : ∀ {i : Nat} {r : Option Const} {log' : List HostCall}, i < j + 1 →
          Evaluates p (p.depth - (rest.length + 1)) (.call callee args) log ⟨.ok r, log'⟩ →
          (⟨next.receive dst r :: rest, log'⟩ : Machine).run p i = some outcome →
          ∃ o, Evaluates p (p.depth - (rest.length + 1)) frame.task log o ∧
            EndsBy p (j + 1) frame rest outcome o := by
        intro i r log' hi hc hrun
        obtain ⟨o, he, hend⟩ := ih i hi hrun
        refine ⟨o, .of_calls ha hc he, hend.of_later (Nat.le_of_lt hi) ?_⟩
        rw [← (Frame.calls_keeps ha).2]
        cases r <;> rfl
      cases begins p (next :: rest).length callee args with
      | host hn hh =>
        rw [call_host hn hh] at h
        exact hresume hj (.host hn hh) h
      | hostFault hn hh =>
        rw [call_hostFault hn hh] at h
        cases h
        exact ⟨_, .of_calls_error ha (.hostFault hn hh), .failed rfl⟩
      | unfit hf hc =>
        rw [call_unfit hf hc] at h
        cases h
        exact ⟨_, .of_calls_error ha (.unfit hf hc), .failed rfl⟩
      | full hf hc hd =>
        rw [call_full hf hc hd] at h
        cases h
        have hn : p.depth - (rest.length + 1) = 0 := Nat.sub_eq_zero_of_le hd
        have hcall : Evaluates p 0 (.call callee args) log _ := .tooDeep hf hc
        rw [← hn] at hcall
        exact ⟨_, .of_calls_error ha hcall, .failed rfl⟩
      | entered hf hc hd =>
        rw [call_entered hf hc hd] at h
        obtain ⟨o, he, hend⟩ := ih j hj h
        have hn : p.depth - (rest.length + 1) = p.depth - (rest.length + 1 + 1) + 1 := by
          rw [List.length_cons] at hd
          omega
        have hcall := Evaluates.enter hf hc (Evaluates.start_iff.mpr he)
        rw [List.length_cons, ← hn] at hcall
        cases hend with
        | failed hfault =>
          obtain ⟨result, calls⟩ := outcome
          cases hfault
          exact ⟨_, .of_calls_error ha hcall, .failed rfl⟩
        | returned hi hto hr hrun =>
          obtain ⟨i, hlt, hrun⟩ := run_returns hr hto hrun
          exact hresume (by omega) hcall hrun

theorem step_last (h : last.action = .returns r) :
    (⟨[last], log⟩ : Machine).step p = .halted ⟨.ok r, log⟩ := by
  rw [step_cons, h]
  rfl

end Machine

theorem Program.call_iff_evaluates {p : Program} {name : String} {args : List Const} {o : Outcome} :
    (∃ fuel, p.call fuel name args = some o) ↔ Evaluates p p.depth (.call name args) [] o := by
  constructor
  · rintro ⟨fuel, h⟩
    cases begins p 0 name args with
    | host hn hh =>
      cases (Program.call_host hn hh).symm.trans h
      exact .host hn hh
    | hostFault hn hh =>
      cases (Program.call_hostFault hn hh).symm.trans h
      exact .hostFault hn hh
    | unfit hf hc =>
      cases (Program.call_unfit hf hc).symm.trans h
      exact .unfit hf hc
    | full hf hc hd =>
      cases (Program.call_full hf hc hd).symm.trans h
      have hcall : Evaluates p 0 (.call name args) [] _ := .tooDeep hf hc
      rwa [← Nat.le_zero.mp hd] at hcall
    | entered hf hc hd =>
      rw [Program.call_entered hf hc hd] at h
      obtain ⟨o', he, hend⟩ := exists_evaluates h
      have hcall := Evaluates.enter hf hc (Evaluates.start_iff.mpr he)
      rw [List.length_nil, Nat.zero_add, Nat.sub_add_cancel hd] at hcall
      cases hend with
      | failed => exact hcall
      | @returned last r log' j _ _ hr hrun =>
        cases j with
        | zero => cases hrun
        | succ j =>
          rw [run, step_last hr] at hrun
          cases hrun
          exact hcall
  · intro h
    have hanswers : Answers p [] name args [] o := h.performs [] rfl
    cases hanswers with
    | host hn hh => exact ⟨0, call_host hn hh⟩
    | hostFault hn hh => exact ⟨0, call_hostFault hn hh⟩
    | refused hf he =>
      refine ⟨0, ?_⟩
      unfold Program.call
      rw [hf]
      simp only
      rw [he]
    | @entered f _ hf he harrives =>
      unfold Program.call
      simp only [hf]
      rw [he]
      apply exists_run_iff.mpr
      cases harrives none with
      | returns _ hr hs => exact ⟨_, hs, step_last hr⟩
      | fails hs hend => exact ⟨_, hs, hend⟩

end FormCompiler
