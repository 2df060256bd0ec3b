import FormCompiler.Proofs.Check
import FormCompiler.Proofs.Machine.Action

namespace FormCompiler

namespace Frame

inductive Chooses (frame : Frame Const) : Terminator → Nat → Prop
  | br {target : Nat} : Chooses frame (.br target) target
  | whenTrue {o : Operand} {target other : Nat} : frame.find? id o = some (.i1 true) →
      Chooses frame (.condBr o target other) target
  | whenFalse {o : Operand} {target other : Nat} : frame.find? id o = some (.i1 false) →
      Chooses frame (.condBr o other target) target

inductive Yields (frame : Frame Const) : Option Operand → Option Const → Prop
  | void : Yields frame none none
  | value {o : Operand} {c : Const} : frame.find? id o = some c → Yields frame (some o) (some c)

structure Stands (frame : Frame Const) (b : Block) (i : Option Instruction) : Prop where
  block : frame.func.block? frame.block = some b
  pc : b.instructions[frame.pc]? = i

inductive Moves (frame : Frame Const) : Action → Prop
  | computes {b : Block} {i : Instruction} {c : Const} : frame.Stands b (some i) →
      i.op.isCall = false → Machine.value frame i.dst i.op = .ok c →
      Moves frame (.goes (frame.next.set i.dst c))
  | calls {b : Block} {i : Instruction} {callee : String} {operands : List Operand}
      {returns : NativeType} {args : List Const} : frame.Stands b (some i) →
      i.op = .call callee operands returns → operands.mapM (frame.get id) = .ok args →
      Moves frame (.calls frame.next i.dst callee args)
  | jumps {b : Block} {t : Terminator} {target : Nat} : frame.Stands b none →
      b.terminator = some t → frame.Chooses t target → Moves frame (.goes (frame.jump target))
  | ends {b : Block} {o : Option Operand} {r : Option Const} : frame.Stands b none →
      b.terminator = some (.ret o) → frame.Yields o r → Moves frame (.returns r)
  | divides {b : Block} {i : Instruction} {l r : Operand} : frame.Stands b (some i) →
      i.op = .compute (.int .div l r) →
      Machine.value frame i.dst i.op = .error (.divisionByZero frame.func.name) →
      Moves frame (.fails (.divisionByZero frame.func.name))
  | misfits {detail : Fault.Misfit} : Moves frame (.fails (.misfit frame.func.name detail))

variable {frame : Frame Const} {b : Block} {i : Instruction}

theorem Chooses.mem_successors {t : Terminator} {target : Nat} (h : frame.Chooses t target) :
    target ∈ t.successors := by
  cases h with
  | br => exact List.mem_cons_self
  | whenTrue => exact List.mem_cons_self
  | whenFalse => exact List.mem_cons_of_mem _ List.mem_cons_self

theorem Chooses.mem_block {t : Terminator} {target : Nat} (h : frame.Chooses t target)
    (ht : b.terminator = some t) : target ∈ b.successors := by
  rw [Block.successors, ht]
  exact h.mem_successors

theorem Chooses.congr {frame' : Frame Const} {t : Terminator} {target : Nat}
    (h : frame.Chooses t target) (hfind : ∀ o, frame'.find? id o = frame.find? id o) :
    frame'.Chooses t target := by
  cases h with
  | br => exact .br
  | whenTrue ho => exact .whenTrue ((hfind _).trans ho)
  | whenFalse ho => exact .whenFalse ((hfind _).trans ho)

theorem Yields.congr {frame' : Frame Const} {o : Option Operand} {r : Option Const}
    (h : frame.Yields o r) (hfind : ∀ o, frame'.find? id o = frame.find? id o) :
    frame'.Yields o r := by
  cases h with
  | void => exact .void
  | value ho => exact .value ((hfind _).trans ho)

theorem Stands.unique {c : Block} {i j : Option Instruction} (h : frame.Stands b i)
    (h' : frame.Stands c j) : b = c ∧ i = j := by
  cases h.block.symm.trans h'.block
  exact ⟨rfl, h.pc.symm.trans h'.pc⟩

theorem action_missing (h : frame.func.block? frame.block = none) :
    frame.action = .fails (.misfit frame.func.name (.missingBlock frame.block)) := by
  unfold action
  rw [h]

theorem action_perform (h : frame.Stands b (some i)) : frame.action = frame.perform i := by
  simp only [action, h.block, h.pc]

theorem action_leave (h : frame.Stands b none) :
    frame.action = frame.leave b.label b.terminator := by
  simp only [action, h.block, h.pc]

theorem action_computes {c : Const} (h : frame.Stands b (some i)) (hi : i.op.isCall = false)
    (hv : Machine.value frame i.dst i.op = .ok c) :
    frame.action = .goes (frame.next.set i.dst c) := by
  rw [action_perform h]
  exact perform_value hi hv

theorem action_calls {callee : String} {operands : List Operand} {returns : NativeType}
    {args : List Const} (h : frame.Stands b (some i)) (hi : i.op = .call callee operands returns)
    (ha : operands.mapM (frame.get id) = .ok args) :
    frame.action = .calls frame.next i.dst callee args := by
  rw [action_perform h]
  exact perform_call hi ha

theorem action_jumps {t : Terminator} {target : Nat} (h : frame.Stands b none)
    (ht : b.terminator = some t) (hc : frame.Chooses t target) :
    frame.action = .goes (frame.jump target) := by
  rw [action_leave h, ht]
  cases hc with
  | br => rfl
  | whenTrue ho => simp only [leave, (frame.get_eq_ok id).mpr ho]
  | whenFalse ho => simp only [leave, (frame.get_eq_ok id).mpr ho]

theorem action_ends {o : Option Operand} {r : Option Const} (h : frame.Stands b none)
    (ht : b.terminator = some (.ret o)) (hr : frame.Yields o r) : frame.action = .returns r := by
  rw [action_leave h, ht]
  cases hr with
  | void => rfl
  | value ho => simp only [leave, (frame.get_eq_ok id).mpr ho]

theorem action_divides {l r : Operand} {fault : Fault} (h : frame.Stands b (some i))
    (hi : i.op = .compute (.int .div l r)) (hv : Machine.value frame i.dst i.op = .error fault) :
    frame.action = .fails fault := by
  rw [action_perform h]
  exact perform_fault (by rw [hi]; rfl) hv

end Frame

namespace Const

variable {a b : Const}

theorem int_ne_divisionByZero : a.int ≠ .error .divisionByZero := by
  cases a <;> simp [int]

theorem float_ne_divisionByZero : a.float ≠ .error .divisionByZero := by
  cases a <;> simp [float]

theorem intArith_eq_divisionByZero {op : ArithOp}
    (h : intArith op a b = .error .divisionByZero) : op = .div := by
  rcases bind_eq_error.mp h with h | ⟨x, _, h⟩
  · exact absurd h int_ne_divisionByZero
  · rcases bind_eq_error.mp h with h | ⟨y, _, h⟩
    · exact absurd h int_ne_divisionByZero
    · rcases bind_eq_error.mp h with h | ⟨z, _, h⟩
      · cases op <;> first | rfl | cases h
      · cases h

theorem floatArith_ne_divisionByZero {op : ArithOp} :
    floatArith op a b ≠ .error .divisionByZero := by
  intro h
  rcases bind_eq_error.mp h with h | ⟨x, _, h⟩
  · exact float_ne_divisionByZero h
  · rcases bind_eq_error.mp h with h | ⟨y, _, h⟩
    · exact float_ne_divisionByZero h
    · cases h

theorem intTest_ne_divisionByZero {test : IntTest} : intTest test a b ≠ .error .divisionByZero := by
  intro h
  rcases bind_eq_error.mp h with h | ⟨x, _, h⟩
  · exact int_ne_divisionByZero h
  · rcases bind_eq_error.mp h with h | ⟨y, _, h⟩
    · exact int_ne_divisionByZero h
    · cases h

theorem floatTest_ne_divisionByZero {test : FloatTest} :
    floatTest test a b ≠ .error .divisionByZero := by
  intro h
  rcases bind_eq_error.mp h with h | ⟨x, _, h⟩
  · exact float_ne_divisionByZero h
  · rcases bind_eq_error.mp h with h | ⟨y, _, h⟩
    · exact float_ne_divisionByZero h
    · cases h

theorem cast_ne_divisionByZero {op : CastOp} {target : NativeType} :
    cast op a target ≠ .error .divisionByZero := by
  intro h
  cases op <;> cases a <;> cases target <;> cases h

end Const

def ArithError.at (name : String) (dst : Nat) : ArithError → Fault
  | .divisionByZero => .divisionByZero name
  | .mismatch => .misfit name (.badOperands dst)

theorem ArithError.at_eq_error {name : String} {dst : Nat} {r : Except ArithError Const}
    {fault : Fault} (h : r.mapError (ArithError.at name dst) = .error fault)
    (hr : r ≠ .error .divisionByZero) : ∃ detail, fault = .misfit name detail := by
  cases r with
  | ok => cases h
  | error e =>
    cases e with
    | divisionByZero => exact absurd rfl hr
    | mismatch => exact ⟨_, (Except.error.inj h).symm⟩

theorem Computation.run_eq_error {name : String} {dst : Nat} {get : Operand → Except Fault Const}
    (hget : ∀ o fault, get o = .error fault → ∃ detail, fault = .misfit name detail)
    {c : Computation} {fault : Fault} (h : c.run get (ArithError.at name dst) = .error fault) :
    (∃ detail, fault = .misfit name detail) ∨
      fault = .divisionByZero name ∧ ∃ l r, c = .int .div l r := by
  -- operands are looked at first, and fail alike in all computations of two operands
  have hboth : ∀ {l r : Operand} {f : Const → Const → Except ArithError Const},
      (do let a ← get l; let b ← get r; (f a b).mapError (ArithError.at name dst)) =
        .error fault →
      (∃ detail, fault = .misfit name detail) ∨
        ∃ a b, (f a b).mapError (ArithError.at name dst) = .error fault := by
    intro l r f h
    rcases bind_eq_error.mp h with h | ⟨a, _, h⟩
    · exact .inl (hget _ _ h)
    · rcases bind_eq_error.mp h with h | ⟨b, _, h⟩
      · exact .inl (hget _ _ h)
      · exact .inr ⟨a, b, h⟩
  cases c with
  | int op l r =>
    rcases hboth h with h | ⟨a, b, hab⟩
    · exact .inl h
    · by_cases hdiv : Const.intArith op a b = .error .divisionByZero
      · rw [hdiv] at hab
        have hop := Const.intArith_eq_divisionByZero hdiv
        subst hop
        exact .inr ⟨(Except.error.inj hab).symm, l, r, rfl⟩
      · exact .inl (ArithError.at_eq_error hab hdiv)
  | float op l r =>
    rcases hboth h with h | ⟨a, b, h⟩
    · exact .inl h
    · exact .inl (ArithError.at_eq_error h Const.floatArith_ne_divisionByZero)
  | icmp test l r =>
    rcases hboth h with h | ⟨a, b, h⟩
    · exact .inl h
    · exact .inl (ArithError.at_eq_error h Const.intTest_ne_divisionByZero)
  | fcmp test l r =>
    rcases hboth h with h | ⟨a, b, h⟩
    · exact .inl h
    · exact .inl (ArithError.at_eq_error h Const.floatTest_ne_divisionByZero)
  | cast op value target =>
    rcases bind_eq_error.mp h with h | ⟨a, _, h⟩
    · exact .inl (hget _ _ h)
    · exact .inl (ArithError.at_eq_error h Const.cast_ne_divisionByZero)

namespace Frame

variable {frame : Frame Const} {b : Block} {i : Instruction}

theorem get_misfit {o : Operand} {fault : Fault} (h : frame.get id o = .error fault) :
    ∃ detail, fault = .misfit frame.func.name detail := ⟨_, frame.get_eq_error id h⟩

theorem mapM_get_misfit {os : List Operand} {fault : Fault}
    (h : os.mapM (frame.get id) = .error fault) :
    ∃ detail, fault = .misfit frame.func.name detail := by
  induction os with
  | nil => cases h
  | cons o os ih =>
    rw [List.mapM_cons] at h
    rcases bind_eq_error.mp h with h | ⟨a, _, h⟩
    · exact get_misfit h
    · rcases bind_eq_error.mp h with h | ⟨as, _, h⟩
      · exact ih h
      · cases h

theorem value_compute {dst : Nat} {c : Computation} :
    Machine.value frame dst (.compute c) =
      c.run (frame.get id) (ArithError.at frame.func.name dst) := by
  simp only [Machine.value]
  congr 1

theorem value_misfit {dst : Nat} {op : Operation} {fault : Fault}
    (h : Machine.value frame dst op = .error fault) :
    (∃ detail, fault = .misfit frame.func.name detail) ∨
      fault = .divisionByZero frame.func.name ∧ ∃ l r, op = .compute (.int .div l r) := by
  cases op with
  | call callee args returns => exact .inl ⟨_, (Except.error.inj h).symm⟩
  | compute c =>
    rw [value_compute] at h
    rcases Computation.run_eq_error (fun _ _ => get_misfit) h with hm | ⟨hd, l, r, rfl⟩
    · exact .inl hm
    · exact .inr ⟨hd, l, r, rfl⟩
  | phi type incoming =>
    simp only [Machine.value] at h
    split at h
    · exact .inl (get_misfit h)
    · exact .inl ⟨_, (Except.error.inj h).symm⟩

theorem moves_perform (h : frame.Stands b (some i)) : frame.Moves (frame.perform i) := by
  have hvalue (hcall : i.op.isCall = false) : frame.Moves (frame.perform i) := by
    cases hv : Machine.value frame i.dst i.op with
    | ok c =>
      rw [perform_value hcall hv]
      exact .computes h hcall hv
    | error fault =>
      rw [perform_fault hcall hv]
      rcases value_misfit hv with ⟨detail, rfl⟩ | ⟨rfl, l, r, hop⟩
      · exact .misfits
      · exact .divides h hop hv
  cases hop : i.op with
  | compute c => exact hvalue (by rw [hop]; rfl)
  | phi type incoming => exact hvalue (by rw [hop]; rfl)
  | call callee operands returns =>
    cases ha : operands.mapM (frame.get id) with
    | ok args =>
      rw [perform_call hop ha]
      exact .calls h hop ha
    | error fault =>
      rw [perform_argFault hop ha]
      obtain ⟨detail, rfl⟩ := mapM_get_misfit ha
      exact .misfits

theorem moves_leave (h : frame.Stands b none) : frame.Moves (frame.leave b.label b.terminator) := by
  cases ht : b.terminator with
  | none => exact .misfits
  | some t =>
    cases t with
    | br target => exact .jumps h ht .br
    | ret value =>
      cases value with
      | none => exact .ends h ht .void
      | some o =>
        simp only [leave]
        cases ho : frame.get id o with
        | ok c => exact .ends h ht (.value ((frame.get_eq_ok id).mp ho))
        | error fault =>
          obtain ⟨detail, rfl⟩ := get_misfit ho
          exact .misfits
    | condBr o whenTrue whenFalse =>
      simp only [leave]
      cases ho : frame.get id o with
      | error fault =>
        obtain ⟨detail, rfl⟩ := get_misfit ho
        exact .misfits
      | ok c =>
        have ho := (frame.get_eq_ok id).mp ho
        cases c with
        | i32 n => exact .misfits
        | f64 x => exact .misfits
        | i1 taken =>
          cases taken with
          | true => exact .jumps h ht (.whenTrue ho)
          | false => exact .jumps h ht (.whenFalse ho)

theorem moves (frame : Frame Const) : frame.Moves frame.action := by
  cases hb : frame.func.block? frame.block with
  | none =>
    rw [action_missing hb]
    exact .misfits
  | some b =>
    cases hi : b.instructions[frame.pc]? with
    | some i =>
      have h : frame.Stands b (some i) := ⟨hb, hi⟩
      rw [action_perform h]
      exact moves_perform h
    | none =>
      have h : frame.Stands b none := ⟨hb, hi⟩
      rw [action_leave h]
      exact moves_leave h

end Frame

end FormCompiler
