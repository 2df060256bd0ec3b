import FormCompiler.Proofs.Machine.Moves

/-!
Two machines side by side. Where the moves of one call are mirrored by those of another, a machine
that runs the second comes to the end of one that runs the first.
-/

namespace FormCompiler

inductive Action.Matches (R : Frame Const → Frame Const → Prop) : Action → Action → Prop
  | goes {F G : Frame Const} : R F G → Matches R (.goes F) (.goes G)
  | calls {F G : Frame Const} {dst : Nat} {callee : String} {args : List Const} : R F G →
      (∀ c, R (F.set dst c) (G.set dst c)) →
      Matches R (.calls F dst callee args) (.calls G dst callee args)
  | returns {r : Option Const} : Matches R (.returns r) (.returns r)
  | fails {fault : Fault} : Matches R (.fails fault) (.fails fault)

namespace Frame

/-- A relation that the moves of two calls keep. The second call may leave out moves that only go
on, and need not fail where a fault is excused. -/
structure Mirrors (excused : Frame Const → Fault → Prop)
    (R : Frame Const → Frame Const → Prop) : Prop where
  returnTo : ∀ {F G}, R F G → G.returnTo = F.returnTo
  action : ∀ {F G}, R F G → (∃ F', F.action = .goes F' ∧ R F' G) ∨
    Action.Matches R F.action G.action ∨ ∃ fault, F.action = .fails fault ∧ excused F fault

theorem goes_keeps {F F' : Frame Const} (h : F.action = .goes F') :
    F'.func = F.func ∧ F'.returnTo = F.returnTo := by
  have hm := F.moves
  rw [h] at hm
  cases hm with
  | computes => exact ⟨rfl, rfl⟩
  | jumps => exact ⟨rfl, rfl⟩

theorem calls_keeps {F F' : Frame Const} {dst : Nat} {callee : String} {args : List Const}
    (h : F.action = .calls F' dst callee args) :
    F'.func = F.func ∧ F'.returnTo = F.returnTo := by
  have hm := F.moves
  rw [h] at hm
  cases hm
  exact ⟨rfl, rfl⟩

end Frame

namespace Action.Matches

variable {R S : Frame Const → Frame Const → Prop} {a a' : Action}

theorem mono (hRS : ∀ F G, R F G → S F G) (h : Matches R a a') : Matches S a a' := by
  cases h with
  | goes hR => exact .goes (hRS _ _ hR)
  | calls hR hset => exact .calls (hRS _ _ hR) fun c => hRS _ _ (hset c)
  | returns => exact .returns
  | fails => exact .fails

theorem refl (hR : ∀ F, R F F) (a : Action) : Matches R a a := by
  cases a with
  | goes F => exact .goes (hR F)
  | calls F dst callee args => exact .calls (hR F) fun c => hR _
  | returns r => exact .returns
  | fails fault => exact .fails

end Action.Matches

theorem Frame.Mirrors.or_eq {excused : Frame Const → Fault → Prop}
    {R : Frame Const → Frame Const → Prop} (h : Mirrors excused R) :
    Mirrors excused fun F G => G = F ∨ R F G where
  returnTo := by
    rintro F G (rfl | hFG)
    · rfl
    · exact h.returnTo hFG
  action := by
    rintro F G (rfl | hFG)
    · exact .inr (.inl (.refl (fun _ => .inl rfl) _))
    · rcases h.action hFG with ⟨F', ha, hFG'⟩ | hab | he
      · exact .inl ⟨F', ha, .inr hFG'⟩
      · exact .inr (.inl (hab.mono fun _ _ => .inr))
      · exact .inr (.inr he)

/-- The second program has code for the same functions, whose calls are related to those of the
first from their start. -/
structure Program.Mirrors (p : Program) (R : Frame Const → Frame Const → Prop) (q : Program) :
    Prop where
  host : q.host = p.host
  depth : q.depth = p.depth
  code : ∀ name, p.code.get? name = none ∧ q.code.get? name = none ∨
    ∃ f g, p.code.get? name = some f ∧ q.code.get? name = some g ∧ g.signature = f.signature ∧
      ∀ args returnTo, R (Frame.start f args returnTo) (Frame.start g args returnTo)

namespace Machine

section

variable (R : Frame Const → Frame Const → Prop)

inductive Waiting : Option Nat → List (Frame Const) → List (Frame Const) → Prop
  | nil {r : Option Nat} : Waiting r [] []
  | cons {r : Option Nat} {F G : Frame Const} {rest rest' : List (Frame Const)} : R F G →
      (∀ dst, r = some dst → ∀ c, R (F.set dst c) (G.set dst c)) →
      Waiting F.returnTo rest rest' → Waiting r (F :: rest) (G :: rest')

inductive Beside : Machine → Machine → Prop
  | intro {F G : Frame Const} {rest rest' : List (Frame Const)} {calls : List HostCall} : R F G →
      Waiting R F.returnTo rest rest' → Beside ⟨F :: rest, calls⟩ ⟨G :: rest', calls⟩

inductive Abreast : Progress → Progress → Prop
  | running {m m' : Machine} : Beside R m m' → Abreast (.running m) (.running m')
  | halted {o : Outcome} : Abreast (.halted o) (.halted o)

end

inductive FailsBy (excused : Frame Const → Fault → Prop) : Machine → Outcome → Prop
  | intro {F : Frame Const} {rest : List (Frame Const)} {calls : List HostCall} {fault : Fault} :
      F.action = .fails fault → excused F fault →
      FailsBy excused ⟨F :: rest, calls⟩ ⟨.error fault, calls⟩

variable {excused : Frame Const → Fault → Prop} {R : Frame Const → Frame Const → Prop}
  {p q : Program} {m m' : Machine} {o : Outcome} {F G F' G' : Frame Const}
  {rest rest' stack stack' : List (Frame Const)} {calls : List HostCall}

theorem FailsBy.step (h : FailsBy excused m o) : m.step p = .halted o := by
  obtain ⟨ha, _⟩ := h
  rw [step_cons, ha]
  rfl

theorem Waiting.length_eq {r : Option Nat} (h : Waiting R r rest rest') :
    rest'.length = rest.length := by
  induction h with
  | nil => rfl
  | cons _ _ _ ih => rw [List.length_cons, List.length_cons, ih]

theorem checkArgs_of_signature {f g : Func} (h : g.signature = f.signature) (args : List Const) :
    checkArgs g args = checkArgs f args := by
  simp only [checkArgs, Func.name, h]

theorem enter_beside (hd : q.depth = p.depth) {f g : Func} (hs : g.signature = f.signature)
    (hl : stack'.length = stack.length) (args : List Const) (r : Option Nat) :
    (∃ fault, enter p ⟨stack, calls⟩ f args r = .error fault ∧
      enter q ⟨stack', calls⟩ g args r = .error fault) ∨
    enter p ⟨stack, calls⟩ f args r = .ok ⟨Frame.start f args r :: stack, calls⟩ ∧
      enter q ⟨stack', calls⟩ g args r = .ok ⟨Frame.start g args r :: stack', calls⟩ := by
  unfold enter
  rw [checkArgs_of_signature hs, hl, hd, Func.name, Func.name, hs]
  cases checkArgs f args with
  | error fault => exact .inl ⟨fault, rfl, rfl⟩
  | ok u =>
    by_cases hd : stack.length < p.depth
    · simp only [hd, if_true]
      exact .inr ⟨rfl, rfl⟩
    · simp only [hd, if_false]
      exact .inl ⟨_, rfl, rfl⟩

theorem call_abreast (hp : p.Mirrors R q) (hR : R F G) (hw : Waiting R F.returnTo rest rest')
    {dst : Nat} (hset : ∀ c, R (F.set dst c) (G.set dst c)) (callee : String)
    (args : List Const) :
    Abreast R ((⟨F :: rest, calls⟩ : Machine).call p dst callee args)
      ((⟨G :: rest', calls⟩ : Machine).call q dst callee args) := by
  unfold call
  rcases hp.code callee with ⟨hpn, hqn⟩ | ⟨f, g, hf, hg, hs, hstart⟩
  · rw [hpn, hqn, hp.host]
    simp only
    cases p.host.call callee (args.map Value.of) with
    | error fault => exact .halted
    | ok h => exact .running (.intro (hset _) hw)
  · rw [hf, hg]
    simp only
    have hl : (G :: rest').length = (F :: rest).length := by
      rw [List.length_cons, List.length_cons, hw.length_eq]
    rcases enter_beside hp.depth hs hl args (some dst) with ⟨fault, hpe, hqe⟩ | ⟨hpe, hqe⟩
    · rw [hpe, hqe]
      exact .halted
    · rw [hpe, hqe]
      refine .running (.intro (hstart args _) (.cons hR ?_ hw))
      intro dst' hdst c
      cases hdst
      exact hset c

theorem return?_abreast (hw : Waiting R F.returnTo rest rest') (hr : G.returnTo = F.returnTo)
    (r : Option Const) : Abreast R (return? F rest calls r) (return? G rest' calls r) := by
  unfold return?
  cases hw with
  | nil => exact .halted
  | cons hR hset hw =>
    rw [hr]
    cases hdst : F.returnTo with
    | none => exact .running (.intro hR hw)
    | some dst =>
      cases r with
      | none => exact .running (.intro hR hw)
      | some c => exact .running (.intro (hset dst hdst c) hw)

/-- A step of the first machine is a step of the second, or one that leaves it behind, or it ends
with a fault that is excused. -/
theorem Beside.step (hR : Frame.Mirrors excused R) (hp : p.Mirrors R q) (h : Beside R m m') :
    (∃ m₁, m.step p = .running m₁ ∧ Beside R m₁ m') ∨ Abreast R (m.step p) (m'.step q) ∨
      ∃ o, FailsBy excused m o := by
  obtain ⟨hFG, hw⟩ := h
  rename_i F G rest rest' calls
  rw [step_cons, step_cons]
  rcases hR.action hFG with ⟨F', ha, hFG'⟩ | hab | ⟨fault, ha, he⟩
  · rw [ha]
    exact .inl ⟨_, rfl, .intro hFG' ((Frame.goes_keeps ha).2 ▸ hw)⟩
  · right
    left
    generalize ha : F.action = a at hab
    generalize G.action = a' at hab
    cases hab with
    | goes hFG' => exact .running (.intro hFG' ((Frame.goes_keeps ha).2 ▸ hw))
    | calls hFG' hset => exact call_abreast hp hFG' ((Frame.calls_keeps ha).2 ▸ hw) hset _ _
    | returns => exact return?_abreast hw (hR.returnTo hFG) _
    | fails => exact .halted
  · exact .inr (.inr ⟨_, .intro ha he⟩)

/-- The second machine comes to the end of the first in no more steps, unless the first ends with a
fault that is excused. -/
theorem Beside.run (hR : Frame.Mirrors excused R) (hp : p.Mirrors R q) (h : Beside R m m') {n : Nat}
    (hr : m.run p n = some o) :
    m'.run q n = some o ∨ ∃ m₁, Steps p [] m m₁ ∧ FailsBy excused m₁ o := by
  induction n generalizing m m' with
  | zero => cases hr
  | succ n ih =>
    rw [Machine.run] at hr
    have hlater {m₁ : Machine} (hm : m.step p = .running m₁) :
        (∃ m₂, Steps p [] m₁ m₂ ∧ FailsBy excused m₂ o) →
          ∃ m₂, Steps p [] m m₂ ∧ FailsBy excused m₂ o := by
      rintro ⟨m₂, hs, hf⟩
      exact ⟨m₂, (Steps.of_step hm List.nil_suffix).trans hs, hf⟩
    rcases h.step hR hp with ⟨m₁, hm, hb⟩ | hab | ⟨o', hf⟩
    · rw [hm] at hr
      exact (ih hb hr).imp (fun h' => run_mono h' (Nat.le_succ n)) (hlater hm)
    · generalize hm : m.step p = x at hab hr
      generalize hm' : m'.step q = y at hab
      rw [Machine.run, hm']
      cases hab with
      | running hb => exact (ih hb hr).imp id (hlater hm)
      | halted =>
        cases hr
        exact .inl rfl
    · rw [hf.step] at hr
      cases hr
      exact .inr ⟨m, .refl, hf⟩

end Machine

namespace Program

def Passes (p : Program) (name : String) (args : List Const) (m : Machine) : Prop :=
  ∃ f start, p.code.get? name = some f ∧ Machine.enter p {} f args none = .ok start ∧
    Machine.Steps p [] start m

theorem Mirrors.call {p q : Program} {excused : Frame Const → Fault → Prop}
    {R : Frame Const → Frame Const → Prop} (hR : Frame.Mirrors excused R) (hp : p.Mirrors R q)
    {fuel : Nat} {name : String} {args : List Const} {o : Outcome}
    (h : p.call fuel name args = some o) :
    q.call fuel name args = some o ∨ ∃ m, p.Passes name args m ∧ m.FailsBy excused o := by
  unfold Program.call at h ⊢
  rcases hp.code name with ⟨hpn, hqn⟩ | ⟨f, g, hf, hg, hs, hstart⟩
  · rw [hpn] at h
    rw [hqn, hp.host]
    exact .inl h
  · rw [hf] at h
    rw [hg]
    simp only at h ⊢
    have henter : (∃ fault, Machine.enter p {} f args none = .error fault ∧
        Machine.enter q {} g args none = .error fault) ∨
        Machine.enter p {} f args none = .ok ⟨[Frame.start f args none], []⟩ ∧
          Machine.enter q {} g args none = .ok ⟨[Frame.start g args none], []⟩ :=
      Machine.enter_beside hp.depth hs rfl args none
    rcases henter with ⟨fault, hpe, hqe⟩ | ⟨hpe, hqe⟩
    · rw [hpe] at h
      rw [hqe]
      exact .inl h
    · rw [hpe] at h
      rw [hqe]
      refine (Machine.Beside.run hR hp (.intro (hstart args none) .nil) h).imp id ?_
      rintro ⟨m, hsteps, hf'⟩
      exact ⟨m, ⟨f, _, hf, hpe, hsteps⟩, hf'⟩

end Program

end FormCompiler
