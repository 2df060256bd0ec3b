import FormCompiler.Proofs.Lowering.Named
import FormCompiler.Proofs.Machine.Simulation
import Mathlib.Data.List.Forall2

namespace FormCompiler

variable {α β : Type}

inductive SameValue : Except Fault α → Except Fault α → Prop
  | ok (a : α) : SameValue (.ok a) (.ok a)
  | error (fault fault' : Fault) : SameValue (.error fault) (.error fault')

namespace SameValue

theorem bind {r r' : Except Fault α} {f f' : α → Except Fault β} (h : SameValue r r')
    (hf : ∀ a, SameValue (f a) (f' a)) : SameValue (r >>= f) (r' >>= f') := by
  cases h with
  | ok a => exact hf a
  | error fault fault' => exact .error fault fault'

theorem map {r r' : Except Fault α} (h : SameValue r r') (f : α → β) :
    SameValue (r.map f) (r'.map f) := by
  cases h with
  | ok a => exact .ok _
  | error fault fault' => exact .error fault fault'

theorem mapM {f f' : α → Except Fault β} (hf : ∀ a, SameValue (f a) (f' a)) (xs : List α) :
    SameValue (xs.mapM f) (xs.mapM f') := by
  induction xs with
  | nil => exact .ok []
  | cons x xs ih =>
    rw [List.mapM_cons, List.mapM_cons]
    exact (hf x).bind fun _ => ih.bind fun _ => .ok _

theorem forM {f f' : α → Except Fault Unit} (hf : ∀ a, SameValue (f a) (f' a)) (xs : List α) :
    SameValue (xs.forM f) (xs.forM f') := by
  induction xs with
  | nil => exact .ok ()
  | cons x xs ih => exact (hf x).bind fun _ => ih

theorem mapError {ε : Type} (r : Except ε α) (f f' : ε → Fault) :
    SameValue (r.mapError f) (r.mapError f') := by
  cases r with
  | ok a => exact .ok a
  | error e => exact .error _ _

end SameValue

theorem Computation.sameValue_run {get get' : Operand → Except Fault Const}
    (hg : ∀ o, SameValue (get o) (get' o)) (fault fault' : ArithError → Fault) (c : Computation) :
    SameValue (c.run get fault) (c.run get' fault') := by
  cases c with
  | int op lhs rhs => exact (hg lhs).bind fun _ => (hg rhs).bind fun _ => .mapError _ _ _
  | float op lhs rhs => exact (hg lhs).bind fun _ => (hg rhs).bind fun _ => .mapError _ _ _
  | icmp test lhs rhs => exact (hg lhs).bind fun _ => (hg rhs).bind fun _ => .mapError _ _ _
  | fcmp test lhs rhs => exact (hg lhs).bind fun _ => (hg rhs).bind fun _ => .mapError _ _ _
  | cast op value target => exact (hg value).bind fun _ => .mapError _ _ _

namespace Frame

def named (frame : Frame Const) (name : String) : Frame Const :=
  { frame with func := frame.func.named name }

def Alike (F G : Frame Const) : Prop := ∃ name, G = F.named name

theorem Alike.set {F G : Frame Const} (h : F.Alike G) (id : Nat) (c : Const) :
    (F.set id c).Alike (G.set id c) := by
  obtain ⟨name, rfl⟩ := h
  exact ⟨name, rfl⟩

theorem Alike.returnTo {F G : Frame Const} (h : F.Alike G) : G.returnTo = F.returnTo := by
  obtain ⟨name, rfl⟩ := h
  rfl

variable (F : Frame Const) (name : String)

theorem sameValue_get (o : Operand) : SameValue (F.get id o) ((F.named name).get id o) := by
  have hfind : (F.named name).find? id o = F.find? id o := by cases o <;> rfl
  unfold get
  rw [hfind]
  cases F.find? id o with
  | some c => exact .ok c
  | none => exact .error _ _

theorem sameValue_value (dst : Nat) (op : Operation) :
    SameValue (Machine.value F dst op) (Machine.value (F.named name) dst op) := by
  cases op with
  | compute c => exact Computation.sameValue_run (F.sameValue_get name) _ _ c
  | phi type incoming =>
    unfold Machine.value
    rw [show (F.named name).previous = F.previous from rfl]
    simp only
    split
    · exact F.sameValue_get name _
    · exact .error _ _
  | call callee args returns => exact .error _ _

end Frame

inductive Action.Alike : Action → Action → Prop
  | goes {F G : Frame Const} : F.Alike G → Alike (.goes F) (.goes G)
  | calls {F G : Frame Const} {dst : Nat} {callee : String} {args : List Const} : F.Alike G →
      Alike (.calls F dst callee args) (.calls G dst callee args)
  | returns (result : Option Const) : Alike (.returns result) (.returns result)
  | fails (fault fault' : Fault) : Alike (.fails fault) (.fails fault')

namespace Frame

theorem perform_named (F : Frame Const) (name : String) (i : Instruction) :
    (F.perform i).Alike ((F.named name).perform i) := by
  have hcomputed (hi : i.op.isCall = false) :
      Action.Alike (F.perform i) ((F.named name).perform i) := by
    have h := F.sameValue_value name i.dst i.op
    generalize hr : Machine.value F i.dst i.op = r at h
    generalize hr' : Machine.value (F.named name) i.dst i.op = r' at h
    cases h with
    | ok c =>
      rw [perform_value hi hr, perform_value hi hr']
      exact .goes ⟨name, rfl⟩
    | error fault fault' =>
      rw [perform_fault hi hr, perform_fault hi hr']
      exact .fails fault fault'
  cases hop : i.op with
  | compute c => exact hcomputed (by rw [hop]; rfl)
  | phi type incoming => exact hcomputed (by rw [hop]; rfl)
  | call callee args returns =>
    have h := SameValue.mapM (F.sameValue_get name) args
    generalize hr : args.mapM (F.get id) = r at h
    generalize hr' : args.mapM ((F.named name).get id) = r' at h
    cases h with
    | ok values =>
      rw [perform_call hop hr, perform_call hop hr']
      exact .calls ⟨name, rfl⟩
    | error fault fault' =>
      rw [perform_argFault hop hr, perform_argFault hop hr']
      exact .fails fault fault'

theorem leave_named (F : Frame Const) (name label : String) (t : Option Terminator) :
    (F.leave label t).Alike ((F.named name).leave label t) := by
  cases t with
  | none => exact .fails _ _
  | some t =>
    cases t with
    | ret value =>
      cases value with
      | none => exact .returns none
      | some o =>
        have h := F.sameValue_get name o
        unfold leave
        simp only
        generalize F.get id o = r, (F.named name).get id o = r' at h
        cases h with
        | ok c => exact .returns (some c)
        | error fault fault' => exact .fails fault fault'
    | br target => exact .goes ⟨name, rfl⟩
    | condBr condition whenTrue whenFalse =>
      have h := F.sameValue_get name condition
      unfold leave
      simp only
      generalize F.get id condition = r, (F.named name).get id condition = r' at h
      cases h with
      | error fault fault' => exact .fails fault fault'
      | ok c =>
        cases c with
        | i1 taken => cases taken <;> exact .goes ⟨name, rfl⟩
        | i32 n => exact .fails _ _
        | f64 x => exact .fails _ _

theorem Alike.action {F G : Frame Const} (h : F.Alike G) : F.action.Alike G.action := by
  obtain ⟨name, rfl⟩ := h
  unfold Frame.action
  rw [show (F.named name).func.block? (F.named name).block = F.func.block? F.block from rfl]
  cases F.func.block? F.block with
  | none => exact .fails _ _
  | some b =>
    simp only [show (F.named name).pc = F.pc from rfl]
    cases b.instructions[F.pc]? with
    | some i => exact F.perform_named name i
    | none => exact F.leave_named name b.label b.terminator

theorem calls_of_action {F F' : Frame Const} {dst : Nat} {callee : String} {args : List Const}
    (h : F.action = .calls F' dst callee args) : F.func.Calls callee := by
  have hm := F.moves
  rw [h] at hm
  cases hm with
  | @calls b i _ operands returns _ hi hop _ =>
    refine ⟨i, ?_, operands, returns, hop⟩
    exact Func.mem_instructions.mpr
      ⟨b, List.mem_of_find?_eq_some hi.block, List.mem_of_getElem? hi.pc⟩

end Frame

structure Program.Alike (W : String → Prop) (p q : Program) : Prop where
  host : q.host = p.host
  depth : q.depth = p.depth
  code : ∀ name, W name → q.code.get? name = p.code.get? name
  calls : ∀ name f, W name → p.code.get? name = some f → f.CallsOnly W

structure Outcome.Alike (o o' : Outcome) : Prop where
  result : SameValue o.result o'.result
  calls : o'.calls = o.calls

namespace Machine

structure Alike (W : String → Prop) (m m' : Machine) : Prop where
  stack : List.Forall₂ Frame.Alike m.stack m'.stack
  calls : m'.calls = m.calls
  callees : ∀ F ∈ m.stack, F.func.CallsOnly W

end Machine

inductive Progress.Alike (W : String → Prop) : Progress → Progress → Prop
  | running {m m' : Machine} : m.Alike W m' → Alike W (.running m) (.running m')
  | halted {o o' : Outcome} : o.Alike o' → Alike W (.halted o) (.halted o')

namespace Machine

variable {W : String → Prop} {p q : Program} {m m' : Machine}

theorem Alike.deliver (h : m.Alike W m') (id : Nat) (c : Const) :
    (m.deliver id c).Alike W (m'.deliver id c) := by
  obtain ⟨stack, calls⟩ := m
  obtain ⟨stack', calls'⟩ := m'
  obtain ⟨hstack, hcalls, hcallees⟩ := h
  cases hstack with
  | nil => exact ⟨.nil, hcalls, hcallees⟩
  | cons hF hrest =>
    obtain ⟨hcallee, hcallees⟩ := List.forall_mem_cons.mp hcallees
    exact ⟨.cons (hF.set id c) hrest, hcalls, List.forall_mem_cons.mpr ⟨hcallee, hcallees⟩⟩

theorem sameValue_checkArgs (f : Func) (name : String) (args : List Const) :
    SameValue (checkArgs f args) (checkArgs (f.named name) args) := by
  unfold checkArgs
  rw [show (f.named name).signature.params = f.signature.params from rfl]
  split
  · exact .error _ _
  · refine .forM (fun e => ?_) _
    simp only
    split
    · exact .ok ()
    · exact .error _ _

theorem Alike.enter (hp : p.Alike W q) (h : m.Alike W m') {f : Func} (hf : f.CallsOnly W)
    (name : String) (args : List Const) (returnTo : Option Nat) :
    Progress.Alike W (m.proceed (m.enter p f args returnTo) .running)
      (m'.proceed (m'.enter q (f.named name) args returnTo) .running) := by
  have hlength := h.stack.length_eq
  have hchecked := sameValue_checkArgs f name args
  unfold Machine.enter
  rw [hp.depth, ← hlength]
  generalize checkArgs f args = r, checkArgs (f.named name) args = r' at hchecked
  cases hchecked with
  | error fault fault' => exact .halted ⟨.error fault fault', h.calls⟩
  | ok u =>
    simp only [bind, Except.bind]
    split
    · exact .running ⟨.cons ⟨name, rfl⟩ h.stack, h.calls, List.forall_mem_cons.mpr ⟨hf, h.callees⟩⟩
    · exact .halted ⟨.error _ _, h.calls⟩

theorem Alike.call (hp : p.Alike W q) (h : m.Alike W m') {callee : String} (hw : W callee)
    (dst : Nat) (args : List Const) :
    Progress.Alike W (m.call p dst callee args) (m'.call q dst callee args) := by
  unfold Machine.call
  rw [hp.code callee hw, hp.host]
  cases hf : p.code.get? callee with
  | some f => exact h.enter hp (hp.calls callee f hw hf) f.name args (some dst)
  | none =>
    simp only
    cases p.host.call callee (args.map Value.of) with
    | error fault => exact .halted ⟨.error fault fault, h.calls⟩
    | ok c =>
      have hcalled : Alike W { m with calls := c :: m.calls } { m' with calls := c :: m'.calls } :=
        ⟨h.stack, congrArg (c :: ·) h.calls, h.callees⟩
      exact .running (hcalled.deliver dst (.f64 c.result))

theorem Alike.step (hp : p.Alike W q) (h : m.Alike W m') :
    Progress.Alike W (m.step p) (m'.step q) := by
  obtain ⟨stack, calls⟩ := m
  obtain ⟨stack', calls'⟩ := m'
  obtain ⟨hstack, hcalls, hcallees⟩ := h
  cases hcalls
  cases hstack with
  | nil => exact .halted ⟨.ok none, rfl⟩
  | @cons F G rest rest' hF hrest =>
    obtain ⟨hcallee, hcallees⟩ := List.forall_mem_cons.mp hcallees
    rw [step_cons, step_cons]
    have haction := hF.action
    cases hm : F.action with
    | goes F' =>
      rw [hm] at haction
      generalize G.action = a at haction
      cases haction with
      | goes hF' =>
        have hfunc : F'.func = F.func := (Frame.goes_keeps hm).1
        exact .running ⟨.cons hF' hrest, rfl, List.forall_mem_cons.mpr ⟨hfunc ▸ hcallee, hcallees⟩⟩
    | calls F' dst callee args =>
      rw [hm] at haction
      generalize G.action = a at haction
      cases haction with
      | calls hF' =>
        have hfunc : F'.func = F.func := (Frame.calls_keeps hm).1
        refine Alike.call hp ?_ (hcallee callee (Frame.calls_of_action hm)) dst args
        exact ⟨.cons hF' hrest, rfl, List.forall_mem_cons.mpr ⟨hfunc ▸ hcallee, hcallees⟩⟩
    | returns result =>
      rw [hm] at haction
      generalize G.action = a at haction
      cases haction
      have hback : Alike W ⟨rest, calls⟩ ⟨rest', calls⟩ := ⟨hrest, rfl, hcallees⟩
      simp only [carryOut, return?, hF.returnTo]
      cases hrest with
      | nil => exact .halted ⟨.ok result, rfl⟩
      | cons _ _ =>
        cases F.returnTo with
        | none => exact .running hback
        | some dst =>
          cases result with
          | none => exact .running hback
          | some c => exact .running (hback.deliver dst c)
    | fails fault =>
      rw [hm] at haction
      generalize G.action = a at haction
      cases haction with
      | fails _ fault' => exact .halted ⟨.error fault fault', rfl⟩

theorem Alike.run (hp : p.Alike W q) (h : m.Alike W m') (fuel : Nat) :
    Option.Rel Outcome.Alike (m.run p fuel) (m'.run q fuel) := by
  induction fuel generalizing m m' with
  | zero => exact .none
  | succ fuel ih =>
    have hstep := h.step hp
    unfold Machine.run
    generalize m.step p = r, m'.step q = r' at hstep
    cases hstep with
    | running h => exact ih h
    | halted h => exact .some h

end Machine

theorem Program.Alike.call {W : String → Prop} {p q : Program} (h : p.Alike W q) {f : Func}
    {name name' : String} (hf : p.code.get? name = some f)
    (hf' : q.code.get? name' = some (f.named name')) (hcalls : f.CallsOnly W) (fuel : Nat)
    (args : List Const) :
    Option.Rel Outcome.Alike (p.call fuel name args) (q.call fuel name' args) := by
  have hempty : Machine.Alike W {} {} := ⟨.nil, rfl, fun _ hF => (by cases hF)⟩
  have henter := hempty.enter h hcalls name' args none
  unfold Program.call
  rw [hf, hf']
  simp only
  cases he : Machine.enter p {} f args none with
  | ok m =>
    rw [he] at henter
    cases he' : Machine.enter q {} (f.named name') args none with
    | ok m' =>
      rw [he'] at henter
      cases henter with
      | running hm => exact hm.run h fuel
    | error fault => rw [he'] at henter; cases henter
  | error fault =>
    rw [he] at henter
    cases he' : Machine.enter q {} (f.named name') args none with
    | ok m' => rw [he'] at henter; cases henter
    | error fault' => exact .some ⟨.error fault fault', rfl⟩

end FormCompiler
