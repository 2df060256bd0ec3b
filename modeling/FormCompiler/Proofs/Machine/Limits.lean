import FormCompiler.Engine
import FormCompiler.Proofs.Machine.Depth

namespace FormCompiler

open Machine

def Program.limit (p : Program) (d : Nat) : Program := { p with depth := d }

def Engine.limit (e : Engine) (d : Nat) : Engine := { e with program := e.program.limit d }

def Outcome.TooDeep (o : Outcome) : Prop := ∃ g limit, o.result = .error (.tooDeep g limit)

def Engine.Called.TooDeep (c : Engine.Called) : Prop :=
  ∃ g limit, c.result = .error (.tooDeep g limit)

namespace Machine

variable {p : Program} {d d' : Nat} {m : Machine}

theorem enter_limit (h : d ≤ d') (m : Machine) (f : Func) (args : List Const) (back : Option Nat) :
    enter (p.limit d') m f args back = enter (p.limit d) m f args back ∨
      ∃ g limit, enter (p.limit d) m f args back = .error (.tooDeep g limit) := by
  cases hc : checkArgs f args with
  | error fault =>
    left
    rw [enter_unfit hc, enter_unfit hc]
  | ok u =>
    rcases Nat.lt_or_ge m.stack.length d with hd | hd
    · left
      have hd' : m.stack.length < (p.limit d').depth := Nat.lt_of_lt_of_le hd h
      rw [enter_entered hc hd', enter_entered hc (show m.stack.length < (p.limit d).depth from hd)]
    · exact .inr ⟨_, _, enter_full hc hd back⟩

theorem call_limit (h : d ≤ d') (m : Machine) (dst : Nat) (callee : String) (args : List Const) :
    m.call (p.limit d') dst callee args = m.call (p.limit d) dst callee args ∨
      ∃ o, m.call (p.limit d) dst callee args = .halted o ∧ o.TooDeep := by
  have hcode : (p.limit d').code = (p.limit d).code := rfl
  unfold call
  rw [hcode]
  cases (p.limit d).code.get? callee with
  | none => exact .inl rfl
  | some f =>
    simp only
    rcases enter_limit (p := p) h m f args (some dst) with he | ⟨g, limit, he⟩
    · left
      rw [he]
    · right
      rw [he]
      exact ⟨_, rfl, g, limit, rfl⟩

/-- A step does not depend on the limit as long as it is not exceeded. -/
theorem step_limit (h : d ≤ d') (m : Machine) :
    m.step (p.limit d') = m.step (p.limit d) ∨
      ∃ o, m.step (p.limit d) = .halted o ∧ o.TooDeep := by
  obtain ⟨stack, log⟩ := m
  cases stack with
  | nil => exact .inl rfl
  | cons frame rest =>
    rw [step_cons, step_cons]
    cases frame.action with
    | goes next => exact .inl rfl
    | returns r => exact .inl rfl
    | fails fault => exact .inl rfl
    | calls next dst callee args => exact call_limit h _ dst callee args

theorem run_limit (h : d ≤ d') (m : Machine) (n : Nat) :
    m.run (p.limit d') n = m.run (p.limit d) n ∨
      ∃ o, m.run (p.limit d) n = some o ∧ o.TooDeep := by
  induction n generalizing m with
  | zero => exact .inl rfl
  | succ n ih =>
    rw [run, run]
    rcases step_limit (p := p) h m with hs | ⟨o, hs, ho⟩
    · rw [hs]
      cases m.step (p.limit d) with
      | running next => exact ih next
      | halted o => exact .inl rfl
    · right
      rw [hs]
      exact ⟨o, rfl, ho⟩

end Machine

theorem Program.call_limit (p : Program) {d d' : Nat} (h : d ≤ d') (fuel : Nat) (name : String)
    (args : List Const) :
    (p.limit d').call fuel name args = (p.limit d).call fuel name args ∨
      ∃ o, (p.limit d).call fuel name args = some o ∧ o.TooDeep := by
  have hcode : (p.limit d').code = (p.limit d).code := rfl
  unfold call
  rw [hcode]
  cases (p.limit d).code.get? name with
  | none => exact .inl rfl
  | some f =>
    simp only
    rcases enter_limit (p := p) h {} f args none with he | ⟨g, limit, he⟩
    · rw [he]
      cases enter (p.limit d) {} f args none with
      | ok m => exact run_limit h m fuel
      | error fault => exact .inl rfl
    · right
      rw [he]
      exact ⟨_, rfl, g, limit, rfl⟩

namespace Engine

theorem call_limit (e : Engine) (name : String) (args : List Value) {d d' : Nat} (h : d ≤ d') :
    (e.limit d').call name args = (e.limit d).call name args ∨
      ((e.limit d).call name args).TooDeep := by
  have hprogram : ∀ k, (e.limit k).program = e.program.limit k := fun _ => rfl
  have hsteps : ∀ k, (e.limit k).steps = e.steps := fun _ => rfl
  unfold call
  rw [hprogram, hprogram, hsteps, hsteps]
  cases constants name args with
  | error fault => exact .inl rfl
  | ok args =>
    simp only
    rcases e.program.call_limit h e.steps name args with hc | ⟨o, hc, g, limit, ho⟩
    · left
      rw [hc]
    · right
      rw [hc]
      refine ⟨g, limit, ?_⟩
      simp only
      rw [ho]
      rfl

/-- A call that stays within a limit comes to the same end, after the same calls of host functions,
within any larger one; a call that exceeds a limit exceeds every smaller one. -/
theorem call_within_limit (e : Engine) (name : String) (args : List Value) {d d' : Nat}
    (h : d ≤ d') :
    (¬ ((e.limit d).call name args).TooDeep →
      (e.limit d').call name args = (e.limit d).call name args) ∧
    (((e.limit d').call name args).TooDeep → ((e.limit d).call name args).TooDeep) := by
  rcases e.call_limit name args h with he | hdeep
  · rw [he]
    exact ⟨fun _ => rfl, id⟩
  · exact ⟨fun hn => absurd hdeep hn, fun _ => hdeep⟩

theorem call_within_limit_nested :
    let e : Engine := { program := .nested 0, steps := 10 }
    (e.limit 2).call "ask" [] = ⟨.ok (.of (.i32 7)), []⟩ ∧
      (e.limit 512).call "ask" [] = ⟨.ok (.of (.i32 7)), []⟩ ∧
      ((e.limit 1).call "ask" []).TooDeep ∧ ((e.limit 0).call "ask" []).TooDeep := by
  intro e
  have hend : (e.limit 2).call "ask" [] = ⟨.ok (.of (.i32 7)), []⟩ := rfl
  have hdeep : ((e.limit 1).call "ask" []).TooDeep := ⟨"seven", 1, rfl⟩
  have hshallow : ¬ ((e.limit 2).call "ask" []).TooDeep := by
    rw [hend]
    rintro ⟨g, limit, h⟩
    cases h
  refine ⟨hend, ?_, hdeep, (e.call_within_limit "ask" [] (by decide : 0 ≤ 1)).2 hdeep⟩
  exact ((e.call_within_limit "ask" [] (by decide : 2 ≤ 512)).1 hshallow).trans hend

end Engine

end FormCompiler
