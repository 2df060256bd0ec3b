import FormCompiler.Proofs.Machine.Halting

namespace FormCompiler

def Fault.IsOwn (fault : Fault) : Prop := ∀ limit, fault ≠ .tooLong limit

variable {α β ε : Type}

def OwnFaults (r : Except Fault α) : Prop := ∀ fault, r = .error fault → fault.IsOwn

namespace OwnFaults

theorem ok (a : α) : OwnFaults (.ok a) := fun _ h => (by cases h)

theorem error {fault : Fault} (h : fault.IsOwn) : OwnFaults (.error fault : Except Fault α) :=
  fun _ he => Except.error.inj he ▸ h

theorem bind {r : Except Fault α} {f : α → Except Fault β} (hr : OwnFaults r)
    (hf : ∀ a, OwnFaults (f a)) : OwnFaults (r >>= f) := by
  intro fault h
  rcases bind_eq_error.mp h with h | ⟨a, _, h⟩
  · exact hr fault h
  · exact hf a fault h

theorem mapM {f : α → Except Fault β} (hf : ∀ a, OwnFaults (f a)) (xs : List α) :
    OwnFaults (xs.mapM f) := by
  induction xs with
  | nil => exact ok []
  | cons x xs ih =>
    rw [List.mapM_cons]
    exact (hf x).bind fun _ => ih.bind fun _ => ok _

theorem mapError {r : Except ε α} {f : ε → Fault} (hf : ∀ e, (f e).IsOwn) :
    OwnFaults (r.mapError f) := by
  cases r with
  | ok a => exact ok a
  | error e => exact error (hf e)

theorem map {r : Except Fault α} {f : α → β} (hr : OwnFaults r) : OwnFaults (r.map f) := by
  cases r with
  | ok a => exact ok _
  | error fault => exact error (hr fault rfl)

end OwnFaults

theorem Fault.isOwn_misfit (name : String) (detail : Fault.Misfit) :
    (Fault.misfit name detail).IsOwn := fun _ h => (by cases h)

theorem Frame.own_get (frame : Frame Const) (o : Operand) : OwnFaults (frame.get id o) :=
  fun fault h => by
    rw [frame.get_eq_error id h]
    exact Fault.isOwn_misfit _ _

theorem Computation.own_run {get : Operand → Except Fault Const} {fault : ArithError → Fault}
    (hg : ∀ o, OwnFaults (get o)) (hf : ∀ e, (fault e).IsOwn) (c : Computation) :
    OwnFaults (c.run get fault) := by
  cases c with
  | int op lhs rhs => exact (hg lhs).bind fun _ => (hg rhs).bind fun _ => .mapError hf
  | float op lhs rhs => exact (hg lhs).bind fun _ => (hg rhs).bind fun _ => .mapError hf
  | icmp test lhs rhs => exact (hg lhs).bind fun _ => (hg rhs).bind fun _ => .mapError hf
  | fcmp test lhs rhs => exact (hg lhs).bind fun _ => (hg rhs).bind fun _ => .mapError hf
  | cast op value target => exact (hg value).bind fun _ => .mapError hf

theorem HostTable.own_call (t : HostTable) (name : String) (args : List Value) :
    OwnFaults (t.call name args) := by
  have hdoubles : ∀ args, OwnFaults (doubles name args) := by
    intro args
    fun_induction doubles name args with
    | case1 => exact .ok []
    | case2 x rest ih => exact ih.bind fun _ => .ok _
    | case3 other rest => exact .error (Fault.isOwn_misfit _ _)
  unfold call
  split
  · exact .error fun _ h => (by cases h)
  · simp only
    split
    · exact .error fun _ h => (by cases h)
    · exact (hdoubles args).bind fun _ => .ok _

namespace Machine

theorem own_value (frame : Frame Const) (dst : Nat) (op : Operation) :
    OwnFaults (value frame dst op) := by
  unfold value
  split
  · apply Computation.own_run frame.own_get
    intro e
    cases e with
    | divisionByZero => exact fun _ h => (by cases h)
    | mismatch => exact Fault.isOwn_misfit _ _
  · split
    · exact frame.own_get _
    · exact .error (Fault.isOwn_misfit _ _)
  · exact .error (Fault.isOwn_misfit _ _)

theorem own_checkArgs (f : Func) (args : List Const) : OwnFaults (checkArgs f args) := by
  unfold checkArgs
  split
  · exact .error fun _ h => (by cases h)
  · intro fault h
    obtain ⟨⟨arg, name, type⟩, _, he⟩ := exists_of_forM_eq_error h
    simp only at he
    split at he
    · cases he
    · cases he
      exact Fault.isOwn_misfit _ _

theorem own_action (frame : Frame Const) {fault : Fault} (h : frame.action = .fails fault) :
    fault.IsOwn := by
  unfold Frame.action at h
  split at h
  · cases h
    exact Fault.isOwn_misfit _ _
  · split at h
    · unfold Frame.perform at h
      split at h
      · split at h
        next => cases h
        next hargs =>
          cases h
          exact OwnFaults.mapM frame.own_get _ fault hargs
      · split at h
        next => cases h
        next hvalue =>
          cases h
          exact own_value frame _ _ fault hvalue
    · unfold Frame.leave at h
      split at h
      · cases h
        exact Fault.isOwn_misfit _ _
      · cases h
      · split at h
        next => cases h
        next hget =>
          cases h
          exact frame.own_get _ fault hget
      · cases h
      · split at h
        next => cases h
        next => cases h
        next =>
          cases h
          exact Fault.isOwn_misfit _ _
        next hget =>
          cases h
          exact frame.own_get _ fault hget

theorem own_step {p : Program} {m : Machine} {outcome : Outcome}
    (h : m.step p = .halted outcome) : OwnFaults outcome.result := by
  obtain ⟨stack, calls⟩ := m
  cases stack with
  | nil =>
    cases h
    exact .ok _
  | cons frame rest =>
    rw [step_cons] at h
    cases ha : frame.action with
    | goes next => rw [ha] at h; cases h
    | calls next dst callee args =>
      rw [ha] at h
      change call p ⟨next :: rest, calls⟩ dst callee args = _ at h
      cases begins p (next :: rest).length callee args with
      | host hn hh =>
        cases (call_host hn hh).symm.trans h
      | hostFault hn hh =>
        cases (call_hostFault hn hh).symm.trans h
        exact .error (p.host.own_call _ _ _ hh)
      | unfit hf hc =>
        cases (call_unfit hf hc).symm.trans h
        exact .error (own_checkArgs _ args _ hc)
      | full hf hc hd =>
        cases (call_full hf hc hd).symm.trans h
        exact .error fun _ he => (by cases he)
      | entered hf hc hd =>
        cases (call_entered hf hc hd).symm.trans h
    | returns result =>
      rw [ha] at h
      simp only [carryOut, return?] at h
      split at h
      · cases h
        exact .ok _
      · cases h
      · cases h
    | fails fault =>
      rw [ha] at h
      cases h
      exact .error (own_action frame ha)

theorem own_run {p : Program} {n : Nat} {m : Machine} {outcome : Outcome}
    (h : m.run p n = some outcome) : OwnFaults outcome.result := by
  induction n generalizing m with
  | zero => cases h
  | succ n ih =>
    rw [run] at h
    cases hstep : m.step p with
    | running next => rw [hstep] at h; exact ih h
    | halted last =>
      rw [hstep] at h
      cases h
      exact own_step hstep

end Machine

/-- Every call of sound code ends after some number of steps, and more of them change nothing. -/
theorem Program.Sound.call {p : Program} (h : p.Sound) (name : String) (args : List Const) :
    ∃ n outcome, OwnFaults outcome.result ∧
      ∀ fuel, n ≤ fuel → p.call fuel name args = some outcome := by
  cases Machine.begins p 0 name args with
  | host hn hh => exact ⟨0, _, .ok _, fun _ _ => call_host hn hh⟩
  | hostFault hn hh =>
    exact ⟨0, _, .error (p.host.own_call _ _ _ hh), fun _ _ => call_hostFault hn hh⟩
  | unfit hf hc =>
    exact ⟨0, _, .error (Machine.own_checkArgs _ args _ hc), fun _ _ => call_unfit hf hc⟩
  | full hf hc hd =>
    exact ⟨0, _, .error fun _ he => (by cases he), fun _ _ => call_full hf hc hd⟩
  | @entered f hf hc hd =>
    obtain ⟨w, hw⟩ := h name f hf
    have hends : ∃ outcome, Machine.Ends p ⟨[Frame.start f args none], []⟩ outcome :=
      Machine.exists_ends h hw
    obtain ⟨outcome, n, hn⟩ := hends
    refine ⟨n, outcome, Machine.own_run (hn 0), fun fuel hle => ?_⟩
    rw [call_entered hf hc hd]
    exact Machine.run_mono (hn 0) hle

end FormCompiler
