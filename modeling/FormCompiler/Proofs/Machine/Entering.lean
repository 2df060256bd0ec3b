import FormCompiler.Proofs.Machine.Action

namespace FormCompiler

namespace Machine

variable {p : Program} {height : Nat} {name : String} {args : List Const} {f : Func}
  {fault : Fault} {h : HostCall}

inductive Begins (p : Program) (height : Nat) (name : String) (args : List Const) : Prop
  | host {h : HostCall} : p.code.get? name = none →
      p.host.call name (args.map Value.of) = .ok h → Begins p height name args
  | hostFault {fault : Fault} : p.code.get? name = none →
      p.host.call name (args.map Value.of) = .error fault → Begins p height name args
  | unfit {f : Func} {fault : Fault} : p.code.get? name = some f →
      checkArgs f args = .error fault → Begins p height name args
  | full {f : Func} : p.code.get? name = some f → checkArgs f args = .ok () →
      p.depth ≤ height → Begins p height name args
  | entered {f : Func} : p.code.get? name = some f → checkArgs f args = .ok () →
      height < p.depth → Begins p height name args

theorem begins (p : Program) (height : Nat) (name : String) (args : List Const) :
    Begins p height name args := by
  cases hf : p.code.get? name with
  | none =>
    cases hh : p.host.call name (args.map Value.of) with
    | ok h => exact .host hf hh
    | error fault => exact .hostFault hf hh
  | some f =>
    cases hc : checkArgs f args with
    | error fault => exact .unfit hf hc
    | ok u =>
      rcases Nat.lt_or_ge height p.depth with hd | hd
      · exact .entered hf hc hd
      · exact .full hf hc hd

section Enter

variable {m : Machine}

theorem enter_unfit (hc : checkArgs f args = .error fault) (back : Option Nat) :
    enter p m f args back = .error fault := by
  unfold enter
  rw [hc]
  rfl

theorem enter_full (hc : checkArgs f args = .ok ()) (hd : p.depth ≤ m.stack.length)
    (back : Option Nat) : enter p m f args back = .error (.tooDeep f.name p.depth) := by
  unfold enter
  rw [hc]
  exact if_neg (Nat.not_lt.mpr hd)

theorem enter_entered (hc : checkArgs f args = .ok ()) (hd : m.stack.length < p.depth)
    (back : Option Nat) :
    enter p m f args back = .ok { m with stack := Frame.start f args back :: m.stack } := by
  unfold enter
  rw [hc]
  exact if_pos hd

end Enter

section Call

variable {m : Machine} {next : Frame Const} {rest : List (Frame Const)} {log : List HostCall}
  {dst : Nat}

theorem call_of_none (hn : p.code.get? name = none) :
    m.call p dst name args = m.proceed (p.host.call name (args.map Value.of)) fun h =>
      .running ({ m with calls := h :: m.calls }.deliver dst (.f64 h.result)) := by
  unfold call
  rw [hn]

theorem call_of_some (hf : p.code.get? name = some f) :
    m.call p dst name args = m.proceed (m.enter p f args (some dst)) .running := by
  unfold call
  rw [hf]

theorem call_host (hn : p.code.get? name = none)
    (hh : p.host.call name (args.map Value.of) = .ok h) :
    (⟨next :: rest, log⟩ : Machine).call p dst name args =
      .running ⟨next.set dst (.f64 h.result) :: rest, h :: log⟩ := by
  rw [call_of_none hn, hh]
  rfl

theorem call_hostFault (hn : p.code.get? name = none)
    (hh : p.host.call name (args.map Value.of) = .error fault) :
    m.call p dst name args = .halted ⟨.error fault, m.calls⟩ := by
  rw [call_of_none hn, hh]
  rfl

theorem call_unfit (hf : p.code.get? name = some f) (hc : checkArgs f args = .error fault) :
    m.call p dst name args = .halted ⟨.error fault, m.calls⟩ := by
  rw [call_of_some hf, enter_unfit hc]
  rfl

theorem call_full (hf : p.code.get? name = some f) (hc : checkArgs f args = .ok ())
    (hd : p.depth ≤ m.stack.length) :
    m.call p dst name args = .halted ⟨.error (.tooDeep f.name p.depth), m.calls⟩ := by
  rw [call_of_some hf, enter_full hc hd]
  rfl

theorem call_entered (hf : p.code.get? name = some f) (hc : checkArgs f args = .ok ())
    (hd : m.stack.length < p.depth) :
    m.call p dst name args =
      .running { m with stack := Frame.start f args (some dst) :: m.stack } := by
  rw [call_of_some hf, enter_entered hc hd]
  rfl

end Call

end Machine

namespace Program

open Machine

variable {p : Program} {name : String} {args : List Const} {f : Func} {fault : Fault} {h : HostCall}
  {fuel : Nat}

theorem call_host (hn : p.code.get? name = none)
    (hh : p.host.call name (args.map Value.of) = .ok h) :
    p.call fuel name args = some ⟨.ok (some (.f64 h.result)), [h]⟩ := by
  unfold call
  rw [hn]
  simp only [hh]

theorem call_hostFault (hn : p.code.get? name = none)
    (hh : p.host.call name (args.map Value.of) = .error fault) :
    p.call fuel name args = some ⟨.error fault, []⟩ := by
  unfold call
  rw [hn]
  simp only [hh]

theorem call_unfit (hf : p.code.get? name = some f) (hc : checkArgs f args = .error fault) :
    p.call fuel name args = some ⟨.error fault, []⟩ := by
  unfold call
  rw [hf]
  simp only [enter_unfit hc]

theorem call_full (hf : p.code.get? name = some f) (hc : checkArgs f args = .ok ())
    (hd : p.depth ≤ 0) : p.call fuel name args = some ⟨.error (.tooDeep f.name p.depth), []⟩ := by
  unfold call
  rw [hf]
  simp only [enter_full hc (show p.depth ≤ ({} : Machine).stack.length from hd)]

theorem call_entered (hf : p.code.get? name = some f) (hc : checkArgs f args = .ok ())
    (hd : 0 < p.depth) :
    p.call fuel name args = (⟨[Frame.start f args none], []⟩ : Machine).run p fuel := by
  unfold call
  rw [hf]
  simp only [enter_entered hc (show ({} : Machine).stack.length < p.depth from hd)]

end Program

end FormCompiler
