import FormCompiler.Proofs.Machine.Halting
import FormCompiler.Proofs.Machine.Typed

namespace FormCompiler

def Program.Answers (p : Program) (callee : String) (params : List NativeType)
    (returns : NativeType) : Prop :=
  match p.code.get? callee with
  | some f => f.signature.paramTypes = params ∧ f.signature.returns = returns
  | none =>
    match p.host.get? callee with
    | some h => params = List.replicate h.arity .f64 ∧ returns = .f64
    | none => True

def Func.Respects (f : Func) (p : Program) : Prop :=
  ∀ i ∈ f.instructions, ∀ callee operands returns, i.op = .call callee operands returns →
    ∃ params, operands.map f.operandType? = params.map some ∧ p.Answers callee params returns

structure Func.Runs (f : Func) (w : Flow) (p : Program) : Prop where
  sound : f.Sound w
  gives : f.Gives
  respects : f.Respects p

def Program.Runs (p : Program) : Prop := ∀ name f, p.code.get? name = some f → ∃ w, f.Runs w p

theorem Program.Runs.sound {p : Program} (h : p.Runs) : p.Sound := by
  intro name f hf
  obtain ⟨w, hw⟩ := h name f hf
  exact ⟨w, hw.sound⟩

def Fault.isProper : Fault → Bool
  | .divisionByZero _ | .tooDeep .. | .unresolved _ => true
  | .tooLong _ | .arity .. | .misfit .. | .layout .. | .invalid _ => false

inductive Outcome.Proper (returns : NativeType) : Outcome → Prop
  | value {c : Const} {calls : List HostCall} :
      c.type = returns → Proper returns ⟨.ok (some c), calls⟩
  | fault {fault : Fault} {calls : List HostCall} : fault.isProper = true →
      Proper returns ⟨.error fault, calls⟩

namespace HostTable

theorem exists_doubles (name : String) {args : List Const} {n : Nat}
    (h : args.map Const.type = List.replicate n .f64) :
    ∃ xs, doubles name (args.map Value.of) = .ok xs := by
  induction args generalizing n with
  | nil => exact ⟨[], rfl⟩
  | cons arg args ih =>
    cases n with
    | zero => cases h
    | succ n =>
      rw [List.map_cons, List.replicate_succ, List.cons.injEq] at h
      obtain ⟨xs, hxs⟩ := ih h.2
      cases arg with
      | f64 x => exact ⟨x :: xs, by simp only [List.map_cons, doubles, hxs]; rfl⟩
      | i1 value => cases h.1
      | i32 value => cases h.1

theorem call_of_none {t : HostTable} {name : String} (h : t.get? name = none) (args : List Value) :
    t.call name args = .error (.unresolved name) := by
  unfold call
  rw [h]

theorem exists_call {t : HostTable} {name : String} {h : HostFunction} (hget : t.get? name = some h)
    {args : List Const} (hargs : args.map Const.type = List.replicate h.arity .f64) :
    ∃ c, t.call name (args.map Value.of) = .ok c := by
  obtain ⟨xs, hxs⟩ := exists_doubles name hargs
  have hlength := congrArg List.length hargs
  rw [List.length_map, List.length_replicate] at hlength
  simp only [call, hget, List.length_map, hlength, ne_eq, not_true_eq_false, if_false, hxs]
  exact ⟨_, rfl⟩

end HostTable

namespace Machine

inductive Awaits (p : Program) (returns : NativeType) :
    NativeType → Option Nat → List (Frame Const) → Prop
  | nobody {returnTo : Option Nat} : Awaits p returns returns returnTo []
  | caller {type : NativeType} {dst : Nat} {frame : Frame Const} {rest : List (Frame Const)}
      {w : Flow} : frame.func.Runs w p →
      (∀ c : Const, c.type = type → (frame.set dst c).Fits w) →
      Awaits p returns frame.func.signature.returns frame.returnTo rest →
      Awaits p returns type (some dst) (frame :: rest)

inductive Fits (p : Program) (returns : NativeType) : Machine → Prop
  | intro {frame : Frame Const} {rest : List (Frame Const)} {calls : List HostCall} {w : Flow} :
      frame.func.Runs w p → frame.Fits w →
      Awaits p returns frame.func.signature.returns frame.returnTo rest →
      Fits p returns ⟨frame :: rest, calls⟩

inductive Keeps (p : Program) (returns : NativeType) : Progress → Prop
  | running {m : Machine} : m.Fits p returns → Keeps p returns (.running m)
  | halted {outcome : Outcome} : outcome.Proper returns → Keeps p returns (.halted outcome)

variable {p : Program} {returns type : NativeType} {frame : Frame Const}
  {rest : List (Frame Const)} {calls : List HostCall} {w : Flow}

theorem keeps_call (hp : p.Runs) (hr : frame.func.Runs w p) {dst : Nat} {callee : String}
    {args : List Const} (hfits : ∀ c : Const, c.type = type → (frame.set dst c).Fits w)
    (ha : Awaits p returns frame.func.signature.returns frame.returnTo rest)
    (hanswers : p.Answers callee (args.map Const.type) type) :
    Keeps p returns ((⟨frame :: rest, calls⟩ : Machine).call p dst callee args) := by
  unfold Program.Answers at hanswers
  cases hf : p.code.get? callee with
  | some f =>
    rw [hf] at hanswers
    obtain ⟨hparams, rfl⟩ := hanswers
    have hc : checkArgs f args = .ok () := checkArgs_eq_ok.mpr hparams.symm
    rcases Nat.lt_or_ge (frame :: rest).length p.depth with hd | hd
    · rw [call_entered hf hc hd]
      obtain ⟨w', hw'⟩ := hp callee f hf
      exact .running (.intro hw' (Frame.fits_start hw'.sound hparams.symm _)
        (.caller hr hfits ha))
    · rw [call_full hf hc hd]
      exact .halted (.fault rfl)
  | none =>
    rw [hf] at hanswers
    cases hh : p.host.get? callee with
    | some h =>
      rw [hh] at hanswers
      obtain ⟨hparams, rfl⟩ := hanswers
      obtain ⟨c, hc⟩ := HostTable.exists_call hh hparams
      rw [call_host hf hc]
      exact .running (.intro hr (hfits _ rfl) ha)
    | none =>
      rw [call_hostFault hf (HostTable.call_of_none hh _)]
      exact .halted (.fault rfl)

theorem keeps_return (ha : Awaits p returns type frame.returnTo rest) {c : Const}
    (hc : c.type = type) : Keeps p returns (return? frame rest calls (some c)) := by
  unfold return?
  cases hr : frame.returnTo with
  | none =>
    rw [hr] at ha
    cases ha
    exact .halted (.value hc)
  | some dst =>
    rw [hr] at ha
    cases ha with
    | nobody => exact .halted (.value hc)
    | caller hruns hfits ha => exact .running (.intro hruns (hfits c hc) ha)

theorem Fits.step (hp : p.Runs) {m : Machine} (h : m.Fits p returns) :
    Keeps p returns (m.step p) := by
  obtain ⟨hr, hf, ha⟩ := h
  rename_i frame rest calls w
  rw [step_cons]
  have hproceeds := hf.proceeds hr.sound hr.gives
  revert hproceeds
  generalize frame.action = action
  intro hproceeds
  cases hproceeds with
  | goes hfunc hreturn hfits =>
    apply Keeps.running
    exact .intro (hfunc ▸ hr) hfits (by rw [hfunc, hreturn]; exact ha)
  | @calls i callee operands type args hi hop htypes hfits =>
    obtain ⟨params, hparams, hanswers⟩ := hr.respects i hi callee operands type hop
    have he : params = args.map Const.type := by
      apply (List.map_inj_right fun _ _ => Option.some.inj).mp
      exact hparams.symm.trans htypes
    rw [he] at hanswers
    exact keeps_call hp (by exact hr) hfits (by exact ha) hanswers
  | returns htype => exact keeps_return ha htype
  | divides => exact .halted (.fault rfl)

theorem Fits.run (hp : p.Runs) {m : Machine} (h : m.Fits p returns) {n : Nat} {outcome : Outcome}
    (hr : m.run p n = some outcome) : outcome.Proper returns := by
  induction n generalizing m with
  | zero => cases hr
  | succ n ih =>
    have hkeeps := h.step hp
    rw [Machine.run] at hr
    cases hm : m.step p with
    | running m' =>
      rw [hm] at hr hkeeps
      cases hkeeps with
      | running hfits => exact ih hfits hr
    | halted o =>
      rw [hm] at hr hkeeps
      cases hr
      cases hkeeps with
      | halted hproper => exact hproper

end Machine

end FormCompiler
