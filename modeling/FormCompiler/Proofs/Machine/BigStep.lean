import FormCompiler.Proofs.Machine.Moves

namespace FormCompiler

structure Activation where
  func : Func
  args : List Const
  values : Nat → Option Const := fun _ => none
  previous : Option Nat := none

namespace Activation

def find? (a : Activation) : Operand → Option Const
  | .const c => some c
  | .param index => a.args[index]?
  | .value id => a.values id

def get (a : Activation) (o : Operand) : Except Fault Const :=
  match a.find? o with
  | some c => .ok c
  | none => .error (.misfit a.func.name (.noValue o))

def set (a : Activation) (id : Nat) (c : Const) : Activation :=
  { a with values := fun v => if v = id then some c else a.values v }

def receive (a : Activation) (dst : Nat) : Option Const → Activation
  | some c => a.set dst c
  | none => a

def leave (a : Activation) (b : Block) : Activation := { a with previous := some b.id }

def compute? (a : Activation) (i : Instruction) : Option (Except Fault Const) :=
  match i.op with
  | .compute c => some (c.run a.get (ArithError.at a.func.name i.dst))
  | .phi _ incoming => some <|
    match incoming.find? fun e => some e.2 == a.previous with
    | some (o, _) => a.get o
    | none => .error (.misfit a.func.name .missingEdge)
  | .call .. => none

end Activation

inductive Task
  | call (name : String) (args : List Const)
  | block (a : Activation) (id : Nat)
  | code (a : Activation) (b : Block) (rest : List Instruction)

/-- Evaluates a task in which calls may nest `n` deep; `log` holds the calls of host functions
before it. -/
inductive Evaluates (p : Program) : Nat → Task → List HostCall → Outcome → Prop
  -- a call; where no code has the name the host answers, whatever depth is left
  | host {n name args log h} : p.code.get? name = none →
      p.host.call name (args.map Value.of) = .ok h →
      Evaluates p n (.call name args) log ⟨.ok (some (.f64 h.result)), h :: log⟩
  | hostFault {n name args log fault} : p.code.get? name = none →
      p.host.call name (args.map Value.of) = .error fault →
      Evaluates p n (.call name args) log ⟨.error fault, log⟩
  | unfit {n name args log f fault} : p.code.get? name = some f →
      Machine.checkArgs f args = .error fault →
      Evaluates p n (.call name args) log ⟨.error fault, log⟩
  | tooDeep {name args log f} : p.code.get? name = some f → Machine.checkArgs f args = .ok () →
      Evaluates p 0 (.call name args) log ⟨.error (.tooDeep f.name p.depth), log⟩
  | enter {n name args log f o} : p.code.get? name = some f → Machine.checkArgs f args = .ok () →
      Evaluates p n (.block { func := f, args } 0) log o →
      Evaluates p (n + 1) (.call name args) log o
  -- a block
  | missing {n a id log} : a.func.block? id = none →
      Evaluates p n (.block a id) log ⟨.error (.misfit a.func.name (.missingBlock id)), log⟩
  | block {n a id log b o} : a.func.block? id = some b →
      Evaluates p n (.code a b b.instructions) log o → Evaluates p n (.block a id) log o
  -- an instruction and those after it
  | computes {n a b i rest log c o} : a.compute? i = some (.ok c) →
      Evaluates p n (.code (a.set i.dst c) b rest) log o →
      Evaluates p n (.code a b (i :: rest)) log o
  | computeFault {n a b i rest log fault} : a.compute? i = some (.error fault) →
      Evaluates p n (.code a b (i :: rest)) log ⟨.error fault, log⟩
  | argFault {n a b i rest log callee operands returns fault} :
      i.op = .call callee operands returns → operands.mapM a.get = .error fault →
      Evaluates p n (.code a b (i :: rest)) log ⟨.error fault, log⟩
  | calls {n a b i rest log log' callee operands returns args r o} :
      i.op = .call callee operands returns → operands.mapM a.get = .ok args →
      Evaluates p n (.call callee args) log ⟨.ok r, log'⟩ →
      Evaluates p n (.code (a.receive i.dst r) b rest) log' o →
      Evaluates p n (.code a b (i :: rest)) log o
  | callFault {n a b i rest log log' callee operands returns args fault} :
      i.op = .call callee operands returns → operands.mapM a.get = .ok args →
      Evaluates p n (.call callee args) log ⟨.error fault, log'⟩ →
      Evaluates p n (.code a b (i :: rest)) log ⟨.error fault, log'⟩
  -- the end of a block
  | unended {n a b log} : b.terminator = none → Evaluates p n (.code a b []) log
      ⟨.error (.misfit a.func.name (.missingTerminator b.label)), log⟩
  | void {n a b log} : b.terminator = some (.ret none) →
      Evaluates p n (.code a b []) log ⟨.ok none, log⟩
  | returns {n a b log o c} : b.terminator = some (.ret (some o)) → a.get o = .ok c →
      Evaluates p n (.code a b []) log ⟨.ok (some c), log⟩
  | returnFault {n a b log o fault} : b.terminator = some (.ret (some o)) →
      a.get o = .error fault → Evaluates p n (.code a b []) log ⟨.error fault, log⟩
  | jump {n a b log target o} : b.terminator = some (.br target) →
      Evaluates p n (.block (a.leave b) target) log o → Evaluates p n (.code a b []) log o
  | branch {n a b log condition whenTrue whenFalse taken o} :
      b.terminator = some (.condBr condition whenTrue whenFalse) →
      a.get condition = .ok (.i1 taken) →
      Evaluates p n (.block (a.leave b) (if taken then whenTrue else whenFalse)) log o →
      Evaluates p n (.code a b []) log o
  | branchFault {n a b log condition whenTrue whenFalse fault} :
      b.terminator = some (.condBr condition whenTrue whenFalse) →
      a.get condition = .error fault → Evaluates p n (.code a b []) log ⟨.error fault, log⟩
  | branchOn {n a b log condition whenTrue whenFalse c} :
      b.terminator = some (.condBr condition whenTrue whenFalse) →
      a.get condition = .ok c → c.type ≠ .i1 →
      Evaluates p n (.code a b []) log ⟨.error (.misfit a.func.name (.branchOn c)), log⟩

namespace Frame

variable {frame next : Frame Const} {b : Block} {i : Instruction}

def activation (frame : Frame Const) : Activation :=
  ⟨frame.func, frame.args, fun v => frame.find? id (.value v), frame.previous⟩

def task (frame : Frame Const) : Task :=
  match frame.func.block? frame.block with
  | some b => .code frame.activation b (b.instructions.drop frame.pc)
  | none => .block frame.activation frame.block

def receive (frame : Frame Const) (dst : Nat) : Option Const → Frame Const
  | some c => frame.set dst c
  | none => frame

theorem activation_get (frame : Frame Const) : frame.activation.get = frame.get id := by
  funext o
  have hfind : frame.activation.find? o = frame.find? id o := by cases o <;> rfl
  simp only [Activation.get, get, hfind]
  cases frame.find? id o <;> rfl

theorem activation_start (f : Func) (args : List Const) (returnTo : Option Nat) :
    (start f args returnTo).activation = { func := f, args } := by
  simp only [activation, find?_start]
  rfl

theorem activation_set (frame : Frame Const) (dst : Nat) (c : Const) :
    (frame.next.set dst c).activation = frame.activation.set dst c := by
  simp only [activation, Activation.set, find?_set, find?_next]
  rfl

theorem activation_receive (frame : Frame Const) (dst : Nat) (r : Option Const) :
    (frame.next.receive dst r).activation = frame.activation.receive dst r := by
  cases r with
  | none => rfl
  | some c => exact frame.activation_set dst c

theorem id_of_block? {f : Func} {id : Nat} (h : f.block? id = some b) : b.id = id := by
  rw [Func.block?] at h
  simpa using List.find?_some h

theorem activation_jump (h : frame.func.block? frame.block = some b) (target : Nat) :
    (frame.jump target).activation = frame.activation.leave b := by
  simp only [activation, Activation.leave, find?_jump, id_of_block? h]
  rfl

theorem compute?_eq (hi : i.op.isCall = false) :
    frame.activation.compute? i = some (Machine.value frame i.dst i.op) := by
  obtain ⟨dst, op⟩ := i
  cases op with
  | call => cases hi
  | compute c =>
    rw [value_compute, ← activation_get]
    rfl
  | phi type incoming =>
    simp only [Activation.compute?, Machine.value, activation_get]
    rfl

theorem compute?_eq_some {r : Except Fault Const} :
    frame.activation.compute? i = some r ↔
      i.op.isCall = false ∧ Machine.value frame i.dst i.op = r := by
  cases hi : i.op.isCall with
  | true =>
    obtain ⟨dst, op⟩ := i
    cases op with
    | call callee args returns => simp [Activation.compute?]
    | compute c => cases hi
    | phi type incoming => cases hi
  | false => simp [compute?_eq hi]

theorem Stands.task_some (h : frame.Stands b (some i)) :
    frame.task = .code frame.activation b (i :: b.instructions.drop (frame.pc + 1)) := by
  obtain ⟨hpc, hi⟩ := List.getElem?_eq_some_iff.mp h.pc
  simp only [task, h.block]
  rw [List.drop_eq_getElem_cons hpc, hi]

theorem Stands.task_none (h : frame.Stands b none) : frame.task = .code frame.activation b [] := by
  simp only [task, h.block]
  rw [List.drop_eq_nil_of_le (List.getElem?_eq_none_iff.mp h.pc)]

theorem stands_of_drop {rest : List Instruction} (h : frame.func.block? frame.block = some b)
    (hd : b.instructions.drop frame.pc = rest) : frame.Stands b rest.head? :=
  ⟨h, by rw [← hd, List.head?_drop]⟩

theorem drop_next {rest : List Instruction} (h : b.instructions.drop frame.pc = i :: rest) :
    b.instructions.drop (frame.pc + 1) = rest := by
  rw [← List.drop_drop, h]
  rfl

theorem action_computeFault {fault : Fault} (h : frame.Stands b (some i)) (hi : i.op.isCall = false)
    (hv : Machine.value frame i.dst i.op = .error fault) : frame.action = .fails fault := by
  rw [action_perform h, perform_fault hi hv]

theorem action_argFault {callee : String} {operands : List Operand} {returns : NativeType}
    {fault : Fault} (h : frame.Stands b (some i)) (hi : i.op = .call callee operands returns)
    (ha : operands.mapM (frame.get id) = .error fault) : frame.action = .fails fault := by
  rw [action_perform h, perform_argFault hi ha]

end Frame

namespace Evaluates

variable {p : Program} {n : Nat} {frame next : Frame Const} {log : List HostCall} {o : Outcome}

theorem block_iff (h : frame.pc = 0) :
    Evaluates p n (.block frame.activation frame.block) log o ↔ Evaluates p n frame.task log o := by
  unfold Frame.task
  cases hb : frame.func.block? frame.block with
  | none => rfl
  | some b =>
    simp only [h, List.drop_zero]
    refine ⟨?_, .block hb⟩
    intro he
    cases he with
    | missing hn => exact absurd (hn.symm.trans hb) (by simp)
    | block hb' he =>
      cases Option.some.inj (hb'.symm.trans hb)
      exact he

theorem start_iff {f : Func} {args : List Const} {returnTo : Option Nat} :
    Evaluates p n (.block { func := f, args } 0) log o ↔
      Evaluates p n (Frame.start f args returnTo).task log o := by
  rw [← Frame.activation_start f args returnTo]
  exact block_iff rfl

theorem task_next {b : Block} {i : Instruction} (h : frame.Stands b (some i)) (dst : Nat)
    (r : Option Const) : (frame.next.receive dst r).task =
      .code (frame.activation.receive dst r) b (b.instructions.drop (frame.pc + 1)) := by
  have hcode : ∀ resumed : Frame Const, resumed.func = frame.func → resumed.block = frame.block →
      resumed.pc = frame.pc + 1 → resumed.task =
        .code resumed.activation b (b.instructions.drop (frame.pc + 1)) := by
    intro resumed hfunc hblock hpc
    simp only [Frame.task, hfunc, hblock, hpc, h.block]
  rw [← Frame.activation_receive]
  cases r with
  | none => exact hcode _ rfl rfl rfl
  | some c => exact hcode _ rfl rfl rfl

theorem of_goes (h : frame.action = .goes next) (he : Evaluates p n next.task log o) :
    Evaluates p n frame.task log o := by
  have hmoves := frame.moves
  rw [h] at hmoves
  cases hmoves with
  | @computes b i c hs hi hv =>
    rw [hs.task_some]
    have he : Evaluates p n (frame.next.receive i.dst (some c)).task log o := he
    rw [task_next hs] at he
    exact .computes (Frame.compute?_eq_some.mpr ⟨hi, hv⟩) he
  | @jumps b t target hs ht hc =>
    rw [hs.task_none]
    rw [← block_iff rfl, Frame.activation_jump hs.block] at he
    cases hc with
    | br => exact .jump ht he
    | @whenTrue condition _ _ ho =>
      have hget : frame.activation.get condition = .ok (.i1 true) := by
        rw [Frame.activation_get]
        exact (frame.get_eq_ok id).mpr ho
      exact .branch ht hget he
    | @whenFalse condition _ _ ho =>
      have hget : frame.activation.get condition = .ok (.i1 false) := by
        rw [Frame.activation_get]
        exact (frame.get_eq_ok id).mpr ho
      exact .branch ht hget he

theorem of_calls {dst : Nat} {callee : String} {args : List Const} {r : Option Const}
    {log' : List HostCall} (h : frame.action = .calls next dst callee args)
    (hc : Evaluates p n (.call callee args) log ⟨.ok r, log'⟩)
    (he : Evaluates p n (next.receive dst r).task log' o) : Evaluates p n frame.task log o := by
  have hmoves := frame.moves
  rw [h] at hmoves
  cases hmoves with
  | calls hs hi ha =>
    rw [hs.task_some]
    rw [task_next hs] at he
    exact .calls hi (frame.activation_get ▸ ha) hc he

theorem of_calls_error {dst : Nat} {callee : String} {args : List Const} {fault : Fault}
    {log' : List HostCall} (h : frame.action = .calls next dst callee args)
    (hc : Evaluates p n (.call callee args) log ⟨.error fault, log'⟩) :
    Evaluates p n frame.task log ⟨.error fault, log'⟩ := by
  have hmoves := frame.moves
  rw [h] at hmoves
  cases hmoves with
  | calls hs hi ha =>
    rw [hs.task_some]
    exact .callFault hi (frame.activation_get ▸ ha) hc

theorem of_returns {r : Option Const} (h : frame.action = .returns r) :
    Evaluates p n frame.task log ⟨.ok r, log⟩ := by
  have hmoves := frame.moves
  rw [h] at hmoves
  cases hmoves with
  | ends hs ht hr =>
    rw [hs.task_none]
    cases hr with
    | void => exact .void ht
    | value ho =>
      refine .returns ht ?_
      rw [Frame.activation_get]
      exact (frame.get_eq_ok id).mpr ho

theorem of_perform {b : Block} {i : Instruction} {rest : List Instruction} {fault : Fault}
    (h : frame.perform i = .fails fault) :
    Evaluates p n (.code frame.activation b (i :: rest)) log ⟨.error fault, log⟩ := by
  have hvalue (hi : i.op.isCall = false) :
      Evaluates p n (.code frame.activation b (i :: rest)) log ⟨.error fault, log⟩ := by
    cases hr : Machine.value frame i.dst i.op with
    | ok c => cases h.symm.trans (Frame.perform_value hi hr)
    | error fault' =>
      cases h.symm.trans (Frame.perform_fault hi hr)
      exact .computeFault (Frame.compute?_eq_some.mpr ⟨hi, hr⟩)
  cases hop : i.op with
  | compute c => exact hvalue (by rw [hop]; rfl)
  | phi type incoming => exact hvalue (by rw [hop]; rfl)
  | call callee operands returns =>
    cases ha : operands.mapM (frame.get id) with
    | ok args => cases h.symm.trans (Frame.perform_call hop ha)
    | error fault' =>
      cases h.symm.trans (Frame.perform_argFault hop ha)
      exact .argFault hop (frame.activation_get ▸ ha)

theorem of_leave {b : Block} {fault : Fault}
    (h : frame.leave b.label b.terminator = .fails fault) :
    Evaluates p n (.code frame.activation b []) log ⟨.error fault, log⟩ := by
  cases ht : b.terminator with
  | none =>
    rw [ht] at h
    cases h
    exact .unended ht
  | some t =>
    rw [ht] at h
    cases t with
    | br target => cases h
    | ret value =>
      cases value with
      | none => cases h
      | some o =>
        simp only [Frame.leave] at h
        cases ho : frame.get id o with
        | ok c => rw [ho] at h; cases h
        | error fault' =>
          rw [ho] at h
          cases h
          exact .returnFault ht (frame.activation_get ▸ ho)
    | condBr o whenTrue whenFalse =>
      simp only [Frame.leave] at h
      cases ho : frame.get id o with
      | error fault' =>
        rw [ho] at h
        cases h
        exact .branchFault ht (frame.activation_get ▸ ho)
      | ok c =>
        rw [ho] at h
        have hc : frame.activation.get o = .ok c := frame.activation_get ▸ ho
        cases c with
        | i1 taken => cases taken <;> cases h
        | i32 k => cases h; exact .branchOn ht hc (by intro hx; cases hx)
        | f64 x => cases h; exact .branchOn ht hc (by intro hx; cases hx)

theorem of_fails {fault : Fault} (h : frame.action = .fails fault) :
    Evaluates p n frame.task log ⟨.error fault, log⟩ := by
  unfold Frame.action at h
  cases hb : frame.func.block? frame.block with
  | none =>
    rw [hb] at h
    cases h
    simp only [Frame.task, hb]
    exact .missing hb
  | some b =>
    rw [hb] at h
    simp only at h
    cases hi : b.instructions[frame.pc]? with
    | some i =>
      rw [hi] at h
      rw [Frame.Stands.task_some ⟨hb, hi⟩]
      exact of_perform h
    | none =>
      rw [hi] at h
      rw [Frame.Stands.task_none ⟨hb, hi⟩]
      exact of_leave h

end Evaluates

end FormCompiler
