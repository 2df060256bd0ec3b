import FormCompiler.Machine.Basic
import FormCompiler.Proofs.Check
import Mathlib.Logic.Relation

namespace FormCompiler

inductive Action
  | goes (frame : Frame Const)
  | calls (frame : Frame Const) (dst : Nat) (callee : String) (args : List Const)
  | returns (result : Option Const)
  | fails (fault : Fault)

namespace Frame

variable {α : Type}

def start (f : Func) (args : List α) (returnTo : Option Nat) : Frame α :=
  { func := f, args, returnTo }

def next (frame : Frame α) : Frame α := { frame with pc := frame.pc + 1 }

@[simp] theorem find?_const (frame : Frame α) (g : Const → α) (c : Const) :
    frame.find? g (.const c) = some (g c) := rfl

@[simp] theorem find?_param (frame : Frame α) (g : Const → α) (index : Nat) :
    frame.find? g (.param index) = frame.args[index]? := rfl

@[simp] theorem find?_set (frame : Frame α) (g : Const → α) (id j : Nat) (a : α) :
    (frame.set id a).find? g (.value j) =
      if j = id then some a else frame.find? g (.value j) := by
  simp only [find?, set]
  by_cases h : j = id
  · subst h
    rw [if_pos rfl, Array.getElem?_setIfInBounds_self_of_lt (by simp; omega)]
    rfl
  · rw [if_neg h, Array.getElem?_setIfInBounds_ne (Ne.symm h), Array.getElem?_append]
    split
    next => rfl
    next hj =>
      rw [Array.getElem?_eq_none (Nat.le_of_not_lt hj), Array.getElem?_replicate]
      split <;> rfl

theorem find?_set_of_ne (frame : Frame α) (g : Const → α) {id : Nat} {a : α} {o : Operand}
    (h : o ≠ .value id) : (frame.set id a).find? g o = frame.find? g o := by
  cases o with
  | const c => rfl
  | param index => rfl
  | value j =>
    rw [find?_set, if_neg]
    intro he
    exact h (congrArg Operand.value he)

@[simp] theorem find?_next (frame : Frame α) (g : Const → α) (o : Operand) :
    frame.next.find? g o = frame.find? g o := by
  cases o <;> rfl

@[simp] theorem find?_jump (frame : Frame α) (g : Const → α) (target : Nat) (o : Operand) :
    (frame.jump target).find? g o = frame.find? g o := by
  cases o <;> rfl

@[simp] theorem find?_start (f : Func) (args : List α) (returnTo : Option Nat) (g : Const → α)
    (id : Nat) : (start f args returnTo).find? g (.value id) = none := by
  simp [start, find?]

theorem get_eq_ok (frame : Frame α) (g : Const → α) {o : Operand} {a : α} :
    frame.get g o = .ok a ↔ frame.find? g o = some a := by
  unfold get
  cases frame.find? g o <;> simp

theorem get_eq_error (frame : Frame α) (g : Const → α) {o : Operand} {fault : Fault}
    (h : frame.get g o = .error fault) : fault = .misfit frame.func.name (.noValue o) := by
  unfold get at h
  cases hf : frame.find? g o with
  | none => rw [hf] at h; exact (Except.error.inj h).symm
  | some a => rw [hf] at h; cases h

def perform (frame : Frame Const) (i : Instruction) : Action :=
  match i.op with
  | .call callee args _ =>
    match args.mapM (frame.get id) with
    | .ok values => .calls frame.next i.dst callee values
    | .error fault => .fails fault
  | op =>
    match Machine.value frame i.dst op with
    | .ok c => .goes (frame.next.set i.dst c)
    | .error fault => .fails fault

section Perform

variable {frame : Frame Const} {i : Instruction} {fault : Fault}

theorem perform_value {c : Const} (hi : i.op.isCall = false)
    (hv : Machine.value frame i.dst i.op = .ok c) :
    frame.perform i = .goes (frame.next.set i.dst c) := by
  obtain ⟨dst, op⟩ := i
  unfold perform
  cases op with
  | call => cases hi
  | compute | phi =>
    simp only
    rw [hv]

theorem perform_fault (hi : i.op.isCall = false)
    (hv : Machine.value frame i.dst i.op = .error fault) : frame.perform i = .fails fault := by
  obtain ⟨dst, op⟩ := i
  unfold perform
  cases op with
  | call => cases hi
  | compute | phi =>
    simp only
    rw [hv]

theorem perform_call {callee : String} {operands : List Operand} {returns : NativeType}
    {args : List Const} (hi : i.op = .call callee operands returns)
    (ha : operands.mapM (frame.get id) = .ok args) :
    frame.perform i = .calls frame.next i.dst callee args := by
  unfold perform
  simp only [hi]
  rw [ha]

theorem perform_argFault {callee : String} {operands : List Operand} {returns : NativeType}
    (hi : i.op = .call callee operands returns)
    (ha : operands.mapM (frame.get id) = .error fault) : frame.perform i = .fails fault := by
  unfold perform
  simp only [hi]
  rw [ha]

end Perform

def leave (frame : Frame Const) (label : String) : Option Terminator → Action
  | none => .fails (.misfit frame.func.name (.missingTerminator label))
  | some (.ret none) => .returns none
  | some (.ret (some o)) =>
    match frame.get id o with
    | .ok c => .returns (some c)
    | .error fault => .fails fault
  | some (.br target) => .goes (frame.jump target)
  | some (.condBr condition whenTrue whenFalse) =>
    match frame.get id condition with
    | .ok (.i1 true) => .goes (frame.jump whenTrue)
    | .ok (.i1 false) => .goes (frame.jump whenFalse)
    | .ok other => .fails (.misfit frame.func.name (.branchOn other))
    | .error fault => .fails fault

def action (frame : Frame Const) : Action :=
  match frame.func.block? frame.block with
  | none => .fails (.misfit frame.func.name (.missingBlock frame.block))
  | some b =>
    match b.instructions[frame.pc]? with
    | some i => frame.perform i
    | none => frame.leave b.label b.terminator

end Frame

namespace Machine

def carryOut (p : Program) (frame : Frame Const) (rest : List (Frame Const))
    (calls : List HostCall) : Action → Progress
  | .goes next => .running ⟨next :: rest, calls⟩
  | .calls next dst callee args => (⟨next :: rest, calls⟩ : Machine).call p dst callee args
  | .returns result => return? frame rest calls result
  | .fails fault => .halted ⟨.error fault, calls⟩

theorem value_next (frame : Frame Const) (dst : Nat) (op : Operation) :
    value frame.next dst op = value frame dst op := by
  have h : frame.next.get id = frame.get id := by
    funext o
    cases o <;> rfl
  unfold value
  rw [h]
  rfl

theorem instruction_eq (p : Program) (frame : Frame Const) (rest : List (Frame Const))
    (calls : List HostCall) (i : Instruction) :
    instruction p frame rest calls i = carryOut p frame rest calls (frame.perform i) := by
  have h : frame.next.get id = frame.get id := by
    funext o
    cases o <;> rfl
  obtain ⟨dst, op⟩ := i
  cases op with
  | call callee args returns =>
    change proceed ⟨frame.next :: rest, calls⟩ (args.mapM (frame.next.get id)) _ = _
    rw [h]
    simp only [Frame.perform]
    cases args.mapM (frame.get id) <;> rfl
  | compute c =>
    change proceed ⟨frame.next :: rest, calls⟩ (value frame.next dst (.compute c)) _ = _
    rw [value_next]
    simp only [Frame.perform]
    cases value frame dst (.compute c) <;> rfl
  | phi type incoming =>
    change proceed ⟨frame.next :: rest, calls⟩ (value frame.next dst (.phi type incoming)) _ = _
    rw [value_next]
    simp only [Frame.perform]
    cases value frame dst (.phi type incoming) <;> rfl

theorem leave_eq (p : Program) (frame : Frame Const) (rest : List (Frame Const))
    (calls : List HostCall) (b : Block) :
    leave frame rest calls b = carryOut p frame rest calls (frame.leave b.label b.terminator) := by
  unfold leave
  cases b.terminator with
  | none => rfl
  | some t =>
    cases t with
    | ret value =>
      cases value with
      | none => rfl
      | some o =>
        simp only [Frame.leave]
        cases frame.get id o <;> rfl
    | br target => rfl
    | condBr condition whenTrue whenFalse =>
      simp only [Frame.leave]
      cases frame.get id condition with
      | error fault => rfl
      | ok c =>
        cases c with
        | i1 taken => cases taken <;> rfl
        | i32 n => rfl
        | f64 x => rfl

theorem step_cons (p : Program) (frame : Frame Const) (rest : List (Frame Const))
    (calls : List HostCall) :
    step p ⟨frame :: rest, calls⟩ = carryOut p frame rest calls frame.action := by
  simp only [step, Frame.action]
  cases frame.func.block? frame.block with
  | none => rfl
  | some b =>
    cases hi : b.instructions[frame.pc]? with
    | none => simp only [hi]; exact leave_eq p frame rest calls b
    | some i => simp only [hi]; exact instruction_eq p frame rest calls i

theorem checkArgs_eq_ok {f : Func} {args : List Const} :
    checkArgs f args = .ok () ↔ args.map Const.type = f.signature.paramTypes := by
  have hzipped : ∀ (params : List (String × NativeType)) (args : List Const),
      args.length = params.length →
      ((∀ e ∈ args.zip params, e.1.type = e.2.2) ↔
        args.map Const.type = params.map Prod.snd) := by
    intro params
    induction params with
    | nil =>
      intro args hlength
      rw [List.length_eq_zero_iff.mp hlength]
      simp
    | cons param params ih =>
      intro args hlength
      cases args with
      | nil => cases hlength
      | cons arg args =>
        rw [List.zip_cons_cons, List.forall_mem_cons, ih args (Nat.succ.inj hlength)]
        simp
  unfold checkArgs
  split
  next hlength =>
    refine ⟨fun h => (by cases h), ?_⟩
    intro h
    have hl := congrArg List.length h
    simp only [List.length_map, Signature.paramTypes] at hl
    exact absurd hl hlength
  next hlength =>
    rw [forM_eq_ok, Signature.paramTypes, ← hzipped _ _ (Decidable.of_not_not hlength)]
    refine forall₂_congr ?_
    intro e _
    simp

def Reaches (p : Program) (m m' : Machine) : Prop := ∃ n, ∀ k, m.run p (n + k) = m'.run p k

def Ends (p : Program) (m : Machine) (outcome : Outcome) : Prop :=
  ∃ n, ∀ k, m.run p (n + k) = some outcome

variable {p : Program} {m m' m'' : Machine} {outcome : Outcome}

theorem Reaches.refl : Reaches p m m := ⟨0, fun k => by rw [Nat.zero_add]⟩

theorem Reaches.trans (h : Reaches p m m') (h' : Reaches p m' m'') : Reaches p m m'' := by
  obtain ⟨n, h⟩ := h
  obtain ⟨n', h'⟩ := h'
  exact ⟨n + n', fun k => by rw [Nat.add_assoc, h, h']⟩

theorem Reaches.ends (h : Reaches p m m') (h' : Ends p m' outcome) : Ends p m outcome := by
  obtain ⟨n, h⟩ := h
  obtain ⟨n', h'⟩ := h'
  exact ⟨n + n', fun k => by rw [Nat.add_assoc, h, h']⟩

theorem Reaches.of_step (h : m.step p = .running m') : Reaches p m m' :=
  ⟨1, fun k => by rw [Nat.add_comm, run, h]⟩

theorem Ends.of_step (h : m.step p = .halted outcome) : Ends p m outcome :=
  ⟨1, fun k => by rw [Nat.add_comm, run, h]⟩

theorem Reaches.of_goes {frame next : Frame Const} {rest : List (Frame Const)}
    {calls : List HostCall} (h : frame.action = .goes next) :
    Reaches p ⟨frame :: rest, calls⟩ ⟨next :: rest, calls⟩ :=
  .of_step (by rw [step_cons, h]; rfl)

theorem Ends.of_fails {frame : Frame Const} {rest : List (Frame Const)} {calls : List HostCall}
    {fault : Fault} (h : frame.action = .fails fault) :
    Ends p ⟨frame :: rest, calls⟩ ⟨.error fault, calls⟩ :=
  .of_step (by rw [step_cons, h]; rfl)

theorem run_mono {n k : Nat} (h : m.run p n = some outcome) (hk : n ≤ k) :
    m.run p k = some outcome := by
  induction n generalizing m k with
  | zero => cases h
  | succ n ih =>
    obtain ⟨k, rfl⟩ : ∃ k', k = k' + 1 := ⟨k - 1, by omega⟩
    unfold run at h ⊢
    cases hs : m.step p with
    | running m' =>
      rw [hs] at h
      exact ih h (by omega)
    | halted o =>
      rw [hs] at h
      exact h

variable {base base' : List (Frame Const)}

/-- `m` goes to `m'` while the frames of `base` stay as they are at the bottom of the stack. -/
def Steps (p : Program) (base : List (Frame Const)) : Machine → Machine → Prop :=
  Relation.ReflTransGen fun m m' => m.step p = .running m' ∧ base <:+ m'.stack

theorem Steps.refl : Steps p base m m := Relation.ReflTransGen.refl

theorem Steps.trans (h : Steps p base m m') (h' : Steps p base m' m'') :
    Steps p base m m'' := Relation.ReflTransGen.trans h h'

theorem Steps.of_step (h : m.step p = .running m') (hb : base <:+ m'.stack) : Steps p base m m' :=
  Relation.ReflTransGen.single ⟨h, hb⟩

theorem Steps.below (h : Steps p base m m') (hb : base' <:+ base) :
    Steps p base' m m' := Relation.ReflTransGen.mono (fun _ _ hs => ⟨hs.1, hb.trans hs.2⟩) _ _ h

instance : Trans (Steps p base) (Steps p base) (Steps p base) := ⟨Steps.trans⟩

theorem Steps.reaches (h : Steps p base m m') : Reaches p m m' := by
  induction h with
  | refl => exact .refl
  | tail _ hs ih => exact ih.trans (.of_step hs.1)

end Machine

end FormCompiler
