import FormCompiler.Proofs.Machine.Faults
import FormCompiler.Proofs.Machine.Recursion

/-!
How deep calls nest. No more frames are active than the program allows, and a call that would need
one more is what a machine reports as too deep.
-/

namespace FormCompiler

open Machine

variable {p : Program} {name callee g : String} {args : List Const} {limit dst : Nat}
  {r : Option Const} {log calls : List HostCall} {m m' : Machine} {f : Func}

theorem HostTable.call_ne_tooDeep {t : HostTable} {args : List Value} :
    t.call name args ≠ .error (.tooDeep g limit) := by
  have hdoubles : ∀ args, doubles name args ≠ .error (.tooDeep g limit) := by
    intro args
    fun_induction doubles name args with
    | case1 => simp
    | case2 x rest ih =>
      intro h
      rcases bind_eq_error.mp h with h | ⟨_, _, h⟩
      · exact ih h
      · cases h
    | case3 other rest => simp
  unfold call
  split
  · simp
  · simp only
    split
    · intro h
      cases h
    · intro h
      rcases bind_eq_error.mp h with h | ⟨_, _, h⟩
      · exact hdoubles args h
      · cases h

namespace Machine

theorem checkArgs_ne_tooDeep : checkArgs f args ≠ .error (.tooDeep g limit) := by
  unfold checkArgs
  split
  · simp
  · intro h
    obtain ⟨⟨arg, param, type⟩, _, he⟩ := exists_of_forM_eq_error h
    simp only at he
    split at he
    · cases he
    · cases he

theorem action_ne_tooDeep {frame : Frame Const} : frame.action ≠ .fails (.tooDeep g limit) := by
  intro h
  have hmoves := frame.moves
  rw [h] at hmoves
  cases hmoves

theorem return?_cons (last caller : Frame Const) (rest : List (Frame Const)) (log : List HostCall)
    (r : Option Const) :
    ∃ resumed, return? last (caller :: rest) log r = .running ⟨resumed :: rest, log⟩ := by
  unfold return?
  cases last.returnTo with
  | none => exact ⟨caller, rfl⟩
  | some dst =>
    cases r with
    | none => exact ⟨caller, rfl⟩
    | some c => exact ⟨caller.set dst c, rfl⟩

theorem step_tooDeep (h : m.step p = .halted ⟨.error (.tooDeep g limit), calls⟩) :
    ∃ frame rest next dst callee args f, m = ⟨frame :: rest, calls⟩ ∧
      frame.action = .calls next dst callee args ∧ p.code.get? callee = some f ∧
      checkArgs f args = .ok () ∧ p.depth ≤ rest.length + 1 ∧ f.name = g ∧ p.depth = limit := by
  obtain ⟨stack, log⟩ := m
  cases stack with
  | nil => cases h
  | cons frame rest =>
    cases ha : frame.action with
    | goes next =>
      rw [step_cons, ha] at h
      cases h
    | fails fault =>
      rw [step_cons, ha] at h
      cases h
      exact absurd ha action_ne_tooDeep
    | returns r =>
      cases rest with
      | nil =>
        rw [step_last ha] at h
        cases h
      | cons caller rest =>
        obtain ⟨resumed, hr⟩ := return?_cons frame caller rest log r
        rw [step_cons, ha, carryOut, hr] at h
        cases h
    | calls next dst callee args =>
      rw [step_calls ha] at h
      cases begins p (next :: rest).length callee args with
      | host hn hh => cases (call_host hn hh).symm.trans h
      | hostFault hn hh =>
        cases (call_hostFault hn hh).symm.trans h
        exact absurd hh HostTable.call_ne_tooDeep
      | unfit hf hc =>
        cases (call_unfit hf hc).symm.trans h
        exact absurd hc checkArgs_ne_tooDeep
      | full hf hc hd =>
        cases (call_full hf hc hd).symm.trans h
        exact ⟨frame, rest, next, dst, callee, args, _, rfl, ha, hf, hc, hd, rfl, rfl⟩
      | entered hf hc hd => cases (call_entered hf hc hd).symm.trans h

theorem step_depth (h : m.step p = .running m') (hm : m.stack.length ≤ p.depth) :
    m'.stack.length ≤ p.depth := by
  obtain ⟨stack, log⟩ := m
  cases stack with
  | nil => cases h
  | cons frame rest =>
    rw [step_cons] at h
    cases ha : frame.action with
    | goes next =>
      rw [ha] at h
      cases h
      exact hm
    | fails fault =>
      rw [ha] at h
      cases h
    | returns r =>
      rw [ha] at h
      cases rest with
      | nil => cases h
      | cons caller rest =>
        obtain ⟨resumed, hr⟩ := return?_cons frame caller rest log r
        rw [carryOut, hr] at h
        cases h
        exact Nat.le_of_succ_le hm
    | calls next dst callee args =>
      rw [ha] at h
      simp only [carryOut] at h
      rcases call_cases p next rest log dst callee args with
        ⟨fault, hc⟩ | ⟨c, _, _, hc⟩ | ⟨f, _, hd, hc⟩
      · rw [hc] at h
        cases h
      · rw [hc] at h
        cases h
        exact hm
      · rw [hc] at h
        cases h
        exact hd

theorem Steps.depth {base : List (Frame Const)} (h : Steps p base m m')
    (hm : m.stack.length ≤ p.depth) : m'.stack.length ≤ p.depth := by
  induction h with
  | refl => exact hm
  | tail _ hs ih => exact step_depth hs.1 ih

end Machine

namespace Program

/-- The call of `name` needs a frame for `f`, with arguments that fit it, when as many are active
as may be. -/
inductive Overflows (p : Program) (name : String) (args : List Const) :
    Func → List HostCall → Prop
  | atOnce {f : Func} : p.depth = 0 → p.code.get? name = some f → checkArgs f args = .ok () →
      Overflows p name args f []
  | within {frame next : Frame Const} {rest : List (Frame Const)} {log : List HostCall}
      {dst : Nat} {callee : String} {given : List Const} {f : Func} :
      p.Passes name args ⟨frame :: rest, log⟩ → frame.action = .calls next dst callee given →
      p.code.get? callee = some f → checkArgs f given = .ok () →
      (frame :: rest).length = p.depth → Overflows p name args f log

theorem Passes.depth (h : p.Passes name args m) : m.stack.length ≤ p.depth := by
  obtain ⟨f, start, _, he, hs⟩ := h
  apply hs.depth
  obtain ⟨_, _, he⟩ := bind_eq_ok.mp he
  split at he
  next hd =>
    cases he
    exact hd
  next => cases he

theorem call_tooDeep_iff :
    (∃ fuel, p.call fuel name args = some ⟨.error (.tooDeep g limit), calls⟩) ↔
      limit = p.depth ∧ ∃ f, f.name = g ∧ p.Overflows name args f calls := by
  constructor
  · rintro ⟨fuel, h⟩
    cases begins p 0 name args with
    | host hn hh => cases (Program.call_host hn hh).symm.trans h
    | hostFault hn hh =>
      cases (Program.call_hostFault hn hh).symm.trans h
      exact absurd hh HostTable.call_ne_tooDeep
    | unfit hf hc =>
      cases (Program.call_unfit hf hc).symm.trans h
      exact absurd hc checkArgs_ne_tooDeep
    | full hf hc hd =>
      cases (Program.call_full hf hc hd).symm.trans h
      exact ⟨rfl, _, rfl, .atOnce (Nat.le_zero.mp hd) hf hc⟩
    | entered hf hc hd =>
      rw [Program.call_entered hf hc hd] at h
      obtain ⟨m, hs, hend⟩ := exists_run_iff.mp ⟨fuel, h⟩
      have hstart := enter_entered (m := {}) hc hd none
      have hpasses : p.Passes name args m := ⟨_, _, hf, hstart, hs⟩
      obtain ⟨frame, rest, next, dst, callee, given, f', rfl, ha, hf', hc', hfull, rfl, rfl⟩ :=
        step_tooDeep hend
      have hlength : (frame :: rest).length = p.depth := Nat.le_antisymm hpasses.depth hfull
      exact ⟨rfl, f', rfl, .within hpasses ha hf' hc' hlength⟩
  · rintro ⟨rfl, f, rfl, h⟩
    cases h with
    | atOnce hd hf hc => exact ⟨0, Program.call_full hf hc (Nat.le_of_eq hd)⟩
    | within hpasses ha hf hc hlength =>
      obtain ⟨first, start, hfirst, he, hs⟩ := hpasses
      have hend : ∃ k, start.run p k = some ⟨.error (.tooDeep f.name p.depth), calls⟩ := by
        have hfull := Nat.le_of_eq hlength.symm
        exact exists_run_iff.mpr ⟨_, hs, (step_calls ha).trans (Machine.call_full hf hc hfull)⟩
      obtain ⟨k, hk⟩ := hend
      refine ⟨k, ?_⟩
      unfold Program.call
      simp only [hfirst]
      rw [he]
      exact hk

end Program

structure Frame.Resumes (frame : Frame Const) (dst : Nat) (r : Option Const)
    (resumed : Frame Const) : Prop where
  func : resumed.func = frame.func
  args : resumed.args = frame.args
  block : resumed.block = frame.block
  previous : resumed.previous = frame.previous
  pc : resumed.pc = frame.pc + 1
  returnTo : resumed.returnTo = frame.returnTo
  received : ∀ c, r = some c → resumed.find? id (.value dst) = some c
  kept : ∀ v, (v = dst → r = none) → resumed.find? id (.value v) = frame.find? id (.value v)

theorem Frame.resumes_receive (frame : Frame Const) (dst : Nat) (r : Option Const) :
    frame.Resumes dst r (frame.next.receive dst r) := by
  cases r with
  | none => exact ⟨rfl, rfl, rfl, rfl, rfl, rfl, fun c hc => (by cases hc), fun v _ => rfl⟩
  | some c =>
    refine ⟨rfl, rfl, rfl, rfl, rfl, rfl, ?_, ?_⟩
    · rintro _ ⟨⟩
      simp [receive]
    · intro v hv
      have hne : v ≠ dst := fun he => by cases hv he
      simp [receive, hne]

namespace Program

/-- The stack of frames is the recursion of calls: calls end as they evaluate, a caller goes on with
the result of the call it waited for and with all else as it was, and the depth is exceeded exactly
by a call that needs one frame more than there may be. -/
theorem call_by_recursion (p : Program) :
    (∀ name args o,
      (∃ fuel, p.call fuel name args = some o) ↔ Evaluates p p.depth (.call name args) [] o) ∧
    (∀ frame next rest log dst callee args r log',
      frame.action = .calls next dst callee args →
      Evaluates p (p.depth - (frame :: rest).length) (.call callee args) log ⟨.ok r, log'⟩ →
      ∃ resumed, frame.Resumes dst r resumed ∧
        Steps p rest ⟨frame :: rest, log⟩ ⟨resumed :: rest, log'⟩) ∧
    ∀ name args g limit calls,
      (∃ fuel, p.call fuel name args = some ⟨.error (.tooDeep g limit), calls⟩) ↔
        limit = p.depth ∧ ∃ f, f.name = g ∧ p.Overflows name args f calls := by
  refine ⟨fun name args o => call_iff_evaluates, ?_,
    fun name args g limit calls => call_tooDeep_iff⟩
  intro frame next rest log dst callee args r log' ha he
  refine ⟨_, frame.resumes_receive dst r, ?_⟩
  have hnext : next = frame.next := by
    have hmoves := frame.moves
    rw [ha] at hmoves
    cases hmoves
    rfl
  exact hnext ▸ (he.performs (next :: rest) rfl).steps ha

def nested (depth : Nat) : Program where
  code := (Table.insert ∅ "seven" ⟨⟨"seven", [], .i32⟩,
      [⟨0, "entry", [], some (.ret (some (.const (.i32 7))))⟩], []⟩).insert
    "ask" ⟨⟨"ask", [], .i32⟩,
      [⟨0, "entry", [⟨0, .call "seven" [] .i32⟩], some (.ret (some (.value 0)))⟩], [.i32]⟩
  depth

theorem call_by_recursion_nested :
    ∃ ask next, (nested 2).code.get? "ask" = some ask ∧
      (Frame.start ask [] none).action = .calls next 0 "seven" [] ∧
      Evaluates (nested 2) 1 (.call "seven" []) [] ⟨.ok (some (.i32 7)), []⟩ ∧
      (∃ resumed, (Frame.start ask [] none).Resumes 0 (some (.i32 7)) resumed ∧
        Steps (nested 2) [] ⟨[Frame.start ask [] none], []⟩ ⟨[resumed], []⟩) ∧
      Evaluates (nested 2) 2 (.call "ask" []) [] ⟨.ok (some (.i32 7)), []⟩ ∧
      ∃ seven, seven.name = "seven" ∧ (nested 1).Overflows "ask" [] seven [] := by
  have he : Evaluates (nested 2) 1 (.call "seven" []) [] ⟨.ok (some (.i32 7)), []⟩ :=
    .enter rfl rfl (.block rfl (.returns rfl rfl))
  refine ⟨_, _, rfl, rfl, he, ?_, ?_, ?_⟩
  · exact (call_by_recursion (nested 2)).2.1 _ _ [] [] 0 "seven" [] _ [] rfl he
  · exact ((call_by_recursion (nested 2)).1 "ask" [] _).mp ⟨5, rfl⟩
  · exact (((call_by_recursion (nested 1)).2.2 "ask" [] "seven" 1 []).mp ⟨5, rfl⟩).2

end Program

end FormCompiler
