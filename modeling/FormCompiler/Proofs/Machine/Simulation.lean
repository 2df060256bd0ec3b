import FormCompiler.Proofs.Code.Sound
import FormCompiler.Proofs.Machine.Mirror

namespace FormCompiler

namespace Frame

def current? (frame : Frame Const) : Option Instruction :=
  (frame.func.block? frame.block).bind fun b => b.instructions[frame.pc]?

theorem Stands.current? {frame : Frame Const} {b : Block} {i : Option Instruction}
    (h : frame.Stands b i) : frame.current? = i := by
  rw [Frame.current?, h.block]
  exact h.pc

structure Simulation (R : Frame Const → Frame Const → Prop) : Prop where
  returnTo : ∀ {F G}, R F G → G.returnTo = F.returnTo
  computes : ∀ {F G}, R F G → ∀ v, G.func.Computes v → F.func.Computes v
  goes : ∀ {F G F'}, R F G → F.action = .goes F' →
    R F' G ∨ ∃ G', G.action = .goes G' ∧ R F' G'
  calls : ∀ {F G F' dst callee args}, R F G → F.action = .calls F' dst callee args →
    ∃ G', G.action = .calls G' dst callee args ∧ R F' G' ∧ ∀ c, R (F'.set dst c) (G'.set dst c)
  returns : ∀ {F G r}, R F G → F.action = .returns r → G.action = .returns r
  fails : ∀ {F G name i}, R F G → F.action = .fails (.divisionByZero name) →
    F.current? = some i → G.func.Computes i.dst →
    G.action = .fails (.divisionByZero name) ∧ ∃ j, G.current? = some j ∧ j.dst = i.dst

def Refines (F G : Frame Const) : Prop := ∃ R, Simulation R ∧ R F G

theorem simulation_eq : Simulation (· = ·) where
  returnTo := by rintro F _ rfl; rfl
  computes := by rintro F _ rfl v hv; exact hv
  goes := by rintro F _ F' rfl h; exact .inr ⟨F', h, rfl⟩
  calls := by rintro F _ F' _ _ _ rfl h; exact ⟨F', h, rfl, fun _ => rfl⟩
  returns := by rintro F _ r rfl h; exact h
  fails := by rintro F _ name i rfl h hi _; exact ⟨h, i, hi, rfl⟩

theorem Simulation.comp {R S : Frame Const → Frame Const → Prop} (hR : Simulation R)
    (hS : Simulation S) : Simulation fun F H => ∃ G, R F G ∧ S G H where
  returnTo := by
    rintro F H ⟨G, hFG, hGH⟩
    rw [hS.returnTo hGH, hR.returnTo hFG]
  computes := by
    rintro F H ⟨G, hFG, hGH⟩ v hv
    exact hR.computes hFG v (hS.computes hGH v hv)
  goes := by
    rintro F H F' ⟨G, hFG, hGH⟩ h
    rcases hR.goes hFG h with hFG' | ⟨G', hG, hFG'⟩
    · exact .inl ⟨G, hFG', hGH⟩
    · rcases hS.goes hGH hG with hGH' | ⟨H', hH, hGH'⟩
      · exact .inl ⟨G', hFG', hGH'⟩
      · exact .inr ⟨H', hH, G', hFG', hGH'⟩
  calls := by
    rintro F H F' dst callee args ⟨G, hFG, hGH⟩ h
    obtain ⟨G', hG, hFG', hset⟩ := hR.calls hFG h
    obtain ⟨H', hH, hGH', hset'⟩ := hS.calls hGH hG
    exact ⟨H', hH, ⟨G', hFG', hGH'⟩, fun c => ⟨_, hset c, hset' c⟩⟩
  returns := by
    rintro F H r ⟨G, hFG, hGH⟩ h
    exact hS.returns hGH (hR.returns hFG h)
  fails := by
    rintro F H name i ⟨G, hFG, hGH⟩ h hi hcomputes
    obtain ⟨hG, j, hj, hdst⟩ := hR.fails hFG h hi (hS.computes hGH _ hcomputes)
    obtain ⟨hH, k, hk, hdst'⟩ := hS.fails hGH hG hj (hdst ▸ hcomputes)
    exact ⟨hH, k, hk, hdst'.trans hdst⟩

theorem simulation_refines : Simulation Refines where
  returnTo := fun ⟨_, hR, h⟩ => hR.returnTo h
  computes := fun ⟨_, hR, h⟩ => hR.computes h
  goes := by
    rintro F G F' ⟨R, hR, h⟩ hF
    rcases hR.goes h hF with h' | ⟨G', hG, h'⟩
    · exact .inl ⟨R, hR, h'⟩
    · exact .inr ⟨G', hG, R, hR, h'⟩
  calls := by
    rintro F G F' dst callee args ⟨R, hR, h⟩ hF
    obtain ⟨G', hG, h', hset⟩ := hR.calls h hF
    exact ⟨G', hG, ⟨R, hR, h'⟩, fun c => ⟨R, hR, hset c⟩⟩
  returns := fun ⟨_, hR, h⟩ => hR.returns h
  fails := fun ⟨_, hR, h⟩ => hR.fails h

theorem Refines.refl (F : Frame Const) : F.Refines F := ⟨_, simulation_eq, rfl⟩

theorem Refines.trans {F G H : Frame Const} (h : F.Refines G) (h' : G.Refines H) : F.Refines H := by
  obtain ⟨R, hR, h⟩ := h
  obtain ⟨S, hS, h'⟩ := h'
  exact ⟨_, hR.comp hS, G, h, h'⟩

end Frame

structure Func.Refines (f g : Func) : Prop where
  signature : g.signature = f.signature
  start : ∀ args returnTo, (Frame.start f args returnTo).Refines (Frame.start g args returnTo)

namespace Func.Refines

variable {f g h : Func}

theorem refl : f.Refines f := ⟨rfl, fun _ _ => .refl _⟩

theorem trans (hf : f.Refines g) (hg : g.Refines h) : f.Refines h :=
  ⟨hg.signature.trans hf.signature, fun args returnTo =>
    (hf.start args returnTo).trans (hg.start args returnTo)⟩

end Func.Refines

structure Program.Refines (p q : Program) : Prop where
  host : q.host = p.host
  depth : q.depth = p.depth
  code : ∀ name, p.code.get? name = none ∧ q.code.get? name = none ∨
    ∃ f g, p.code.get? name = some f ∧ q.code.get? name = some g ∧ f.name = name ∧ f.Refines g

namespace Machine

inductive Drops (q : Program) : Machine → Prop
  | intro {F : Frame Const} {rest : List (Frame Const)} {calls : List HostCall} {i : Instruction}
      {l r : Operand} {g : Func} : F.current? = some i → i.op = .compute (.int .div l r) →
      F.action = .fails (.divisionByZero F.func.name) → q.code.get? F.func.name = some g →
      ¬ g.Computes i.dst → Drops q ⟨F :: rest, calls⟩

end Machine

namespace Frame

structure Paired (p q : Program) (F G : Frame Const) : Prop where
  refines : F.Refines G
  source : p.code.get? F.func.name = some F.func
  target : q.code.get? F.func.name = some G.func

def Pardons (q : Program) (F : Frame Const) (fault : Fault) : Prop :=
  (∃ name detail, fault = .misfit name detail) ∨ ∀ rest calls, Machine.Drops q ⟨F :: rest, calls⟩

variable {p q : Program} {F G F' G' : Frame Const}

theorem Paired.next (h : Paired p q F G) (hF : F'.func = F.func) (hG : G'.func = G.func)
    (hr : F'.Refines G') : Paired p q F' G' :=
  ⟨hr, by rw [hF]; exact h.source, by rw [hF, hG]; exact h.target⟩

theorem mirrors_paired (p q : Program) : Mirrors (Pardons q) (Paired p q) where
  returnTo := fun h => simulation_refines.returnTo h.refines
  action := by
    intro F G h
    cases ha : F.action with
    | goes F' =>
      have hfunc := (goes_keeps ha).1
      rcases simulation_refines.goes h.refines ha with hr | ⟨G', hG, hr⟩
      · exact .inl ⟨F', rfl, h.next hfunc rfl hr⟩
      · rw [hG]
        exact .inr (.inl (.goes (h.next hfunc (goes_keeps hG).1 hr)))
    | calls F' dst callee args =>
      obtain ⟨G', hG, hr, hset⟩ := simulation_refines.calls h.refines ha
      have hnext := h.next (calls_keeps ha).1 (calls_keeps hG).1 hr
      rw [hG]
      exact .inr (.inl (.calls hnext fun c => hnext.next rfl rfl (hset c)))
    | returns r =>
      rw [simulation_refines.returns h.refines ha]
      exact .inr (.inl .returns)
    | fails fault =>
      have hmoves := F.moves
      rw [ha] at hmoves
      cases hmoves with
      | misfits => exact .inr (.inr ⟨_, rfl, .inl ⟨_, _, rfl⟩⟩)
      | @divides b i l r hstands hop hv =>
        by_cases hcomputes : G.func.Computes i.dst
        · rw [(simulation_refines.fails h.refines ha hstands.current? hcomputes).1]
          exact .inr (.inl .fails)
        · exact .inr (.inr ⟨_, rfl, .inr fun _ _ =>
            .intro hstands.current? hop ha h.target hcomputes⟩)

end Frame

theorem Program.Refines.mirrors {p q : Program} (hp : p.Refines q) :
    p.Mirrors (Frame.Paired p q) q where
  host := hp.host
  depth := hp.depth
  code := by
    intro name
    rcases hp.code name with h | ⟨f, g, hf, hg, hname, hr⟩
    · exact .inl h
    · refine .inr ⟨f, g, hf, hg, hr.signature, fun args r => ⟨hr.start args r, ?_, ?_⟩⟩
      · change p.code.get? f.name = some f
        rw [hname, hf]
      · change q.code.get? f.name = some g
        rw [hname, hg]

namespace Program

def Comes (p : Program) (name : String) (args : List Const) (m : Machine) : Prop :=
  ∃ f start, p.code.get? name = some f ∧ Machine.enter p {} f args none = .ok start ∧
    Machine.Reaches p start m

theorem Passes.comes {p : Program} {name : String} {args : List Const} {m : Machine}
    (h : p.Passes name args m) : p.Comes name args m := by
  obtain ⟨f, start, hf, he, hs⟩ := h
  exact ⟨f, start, hf, he, hs.reaches⟩

/-- A call that ends ends in the same way with the code of `q`, unless code does not fit or a
division was dropped. -/
theorem Refines.call {p q : Program} (hp : p.Refines q) {fuel : Nat} {name : String}
    {args : List Const} {outcome : Outcome} (h : p.call fuel name args = some outcome) :
    q.call fuel name args = some outcome ∨
      (∃ name detail, outcome.result = .error (.misfit name detail)) ∨
      ∃ m, p.Comes name args m ∧ m.step p = .halted outcome ∧ Machine.Drops q m := by
  refine (hp.mirrors.call (Frame.mirrors_paired p q) h).imp id ?_
  rintro ⟨m, hm, hf⟩
  have hstep : m.step p = .halted outcome := hf.step
  obtain ⟨_, hmisfit | hdrops⟩ := hf
  · obtain ⟨name, detail, rfl⟩ := hmisfit
    exact .inl ⟨name, detail, rfl⟩
  · exact .inr ⟨_, hm.comes, hstep, hdrops _ _⟩

end Program

end FormCompiler
