import FormCompiler.Proofs.Code.Arith
import FormCompiler.Proofs.Code.Built
import FormCompiler.Proofs.Code.Verified
import FormCompiler.Proofs.Machine.Depth
import FormCompiler.Proofs.Machine.Typed

/-!
Calls of functions that have passed the check. The check looks at every instruction by itself and
not at the ways control may take, so a call can come to read what its way has not computed; nothing
else that is wrong with code is left for it to run into.
-/

namespace FormCompiler

/-- A way of control through `f` from its entry: the values whose definitions it has passed, the
block it has come to and the one it came from, and how much of that block it has passed. -/
inductive Func.Way (f : Func) : List Nat → Nat → Option Nat → Nat → Prop
  | entry : Way f [] 0 none 0
  | next {passed : List Nat} {id : Nat} {previous : Option Nat} {pc : Nat} {b : Block}
      {i : Instruction} : Way f passed id previous pc → f.block? id = some b →
      b.instructions[pc]? = some i → Way f (i.dst :: passed) id previous (pc + 1)
  | jump {passed : List Nat} {id : Nat} {previous : Option Nat} {pc target : Nat} {b : Block} :
      Way f passed id previous pc → f.block? id = some b → b.instructions[pc]? = none →
      target ∈ b.successors → Way f passed target (some id) 0

/-- What a call instruction of `f` gives in `p` has the type that is written in it; `void` if it
gives nothing. -/
def Func.Trusts (f : Func) (p : Program) : Prop :=
  ∀ i ∈ f.instructions, ∀ callee operands returns, i.op = .call callee operands returns →
    ∀ n ≤ p.depth, ∀ args log r log', operands.map f.operandType? = (args.map Const.type).map some →
      Evaluates p n (.call callee args) log ⟨.ok r, log'⟩ → (r.map Const.type).getD .void = returns

namespace Func

variable {f : Func} {u : CodeUnit} {passed : List Nat} {id pc : Nat} {previous : Option Nat}

theorem Way.block (h : f.Way passed id previous pc) (ho : f.Orderly)
    (hv : ∀ b ∈ f.blocks, f.Verified u b) : ∃ b, f.block? id = some b := by
  cases h with
  | entry =>
    rw [ho.numbered.block?]
    exact ⟨_, List.getElem?_eq_getElem (List.length_pos_iff.mpr ho.entry)⟩
  | next _ hb _ => exact ⟨_, hb⟩
  | jump _ hb _ ht =>
    obtain ⟨c, hc, rfl⟩ := (hv _ (List.mem_of_find?_eq_some hb)).targets _ ht
    exact Option.isSome_iff_exists.mp (List.find?_isSome.mpr ⟨c, hc, by simp⟩)

theorem Way.edge (h : f.Way passed id previous pc) :
    previous = none ∧ id = 0 ∨ ∃ b ∈ f.blocks, previous = some b.id ∧ id ∈ b.successors := by
  induction h with
  | entry => exact .inl ⟨rfl, rfl⟩
  | next _ _ _ ih => exact ih
  | jump _ hb _ ht =>
    refine .inr ⟨_, List.mem_of_find?_eq_some hb, ?_, ht⟩
    rw [Frame.id_of_block? hb]

end Func

namespace Frame

/-- What a call of checked code may still fail with. -/
inductive Lapses (frame : Frame Const) : Fault → Prop
  | divides : Lapses frame (.divisionByZero frame.func.name)
  | unknown {v : Nat} {passed : List Nat} : frame.func.Computes v →
      frame.func.Way passed frame.block frame.previous frame.pc →
      v ∉ passed ∨ frame.func.types[v]? = some .void →
      Lapses frame (.misfit frame.func.name (.noValue (.value v)))
  | edgeless : frame.block = 0 → frame.previous = none →
      Lapses frame (.misfit frame.func.name .missingEdge)

structure Tracked (frame : Frame Const) : Prop where
  args : frame.args.map Const.type = frame.func.signature.paramTypes
  types : ∀ v c, frame.find? id (.value v) = some c → frame.func.types[v]? = some c.type
  way : ∃ passed, frame.func.Way passed frame.block frame.previous frame.pc ∧
    ∀ v ∈ passed, frame.func.types[v]? = some .void ∨ frame.Knows v

variable {frame next : Frame Const} {f : Func} {u : CodeUnit} {b : Block} {i : Instruction}
  {o : Operand} {type : NativeType} {fault : Fault}

theorem tracked_start {args : List Const} (h : Machine.checkArgs f args = .ok ())
    (returnTo : Option Nat) : (start f args returnTo).Tracked := by
  refine ⟨Machine.checkArgs_eq_ok.mp h, ?_, [], .entry, ?_⟩
  · intro v c hv
    rw [find?_start] at hv
    cases hv
  · intro v hv
    cases hv

namespace Tracked

theorem type_eq (h : frame.Tracked) {c : Const} (hc : frame.find? id o = some c)
    (ho : frame.func.operandType? o = some type) : c.type = type := by
  cases o with
  | const a =>
    cases hc
    exact Option.some.inj ho
  | param index =>
    rw [Func.operandType?, ← h.args, List.getElem?_map] at ho
    rw [find?_param] at hc
    rw [hc] at ho
    exact Option.some.inj ho
  | value v => exact Option.some.inj ((h.types v c hc).symm.trans ho)

theorem lapses (h : frame.Tracked) (ho : frame.func.operandType? o = some type)
    (hd : frame.func.Defines o) (hg : frame.get id o = .error fault) : frame.Lapses fault := by
  obtain rfl := frame.get_eq_error id hg
  have hnone : frame.find? id o = none := by
    cases hf : frame.find? id o with
    | none => rfl
    | some c => cases hg.symm.trans ((frame.get_eq_ok id).mpr hf)
  cases o with
  | const c => cases hnone
  | param index =>
    rw [Func.operandType?, ← h.args, List.getElem?_map] at ho
    rw [find?_param] at hnone
    rw [hnone] at ho
    cases ho
  | value v =>
    obtain ⟨passed, hway, hknown⟩ := h.way
    refine .unknown (hd v rfl) hway ?_
    by_cases hv : v ∈ passed
    · refine .inr ((hknown v hv).resolve_right ?_)
      rintro ⟨c, hc⟩
      cases hnone.symm.trans hc
    · exact .inl hv

theorem mapM_lapses (h : frame.Tracked) {os : List Operand}
    (hos : ∀ o ∈ os, ∃ type, frame.func.operandType? o = some type)
    (hd : ∀ o ∈ os, frame.func.Defines o) (hg : os.mapM (frame.get id) = .error fault) :
    frame.Lapses fault := by
  induction os with
  | nil => cases hg
  | cons o os ih =>
    rw [List.mapM_cons] at hg
    rcases bind_eq_error.mp hg with hg | ⟨a, _, hg⟩
    · obtain ⟨type, ho⟩ := hos o List.mem_cons_self
      exact h.lapses ho (hd o List.mem_cons_self) hg
    · rcases bind_eq_error.mp hg with hg | ⟨as, _, hg⟩
      · exact ih (fun o ho => hos o (List.mem_cons_of_mem _ ho))
          (fun o ho => hd o (List.mem_cons_of_mem _ ho)) hg
      · cases hg

theorem mapM_types (h : frame.Tracked) {os : List Operand} {args : List Const}
    (hos : ∀ o ∈ os, ∃ type, frame.func.operandType? o = some type)
    (hg : os.mapM (frame.get id) = .ok args) :
    os.map frame.func.operandType? = (args.map Const.type).map some := by
  induction os generalizing args with
  | nil =>
    cases hg
    rfl
  | cons o os ih =>
    rw [List.mapM_cons] at hg
    obtain ⟨a, ha, hg⟩ := bind_eq_ok.mp hg
    obtain ⟨as, has, hg⟩ := bind_eq_ok.mp hg
    cases hg
    obtain ⟨type, ho⟩ := hos o List.mem_cons_self
    rw [List.map_cons, ih (fun o ho => hos o (List.mem_cons_of_mem _ ho)) has, ho,
      ← h.type_eq ((frame.get_eq_ok id).mp ha) ho]
    rfl

theorem compute_cases (h : frame.Tracked) {c : Computation}
    (htyped : c.Typed frame.func.operandType?) (hd : ∀ o ∈ c.operands, frame.func.Defines o)
    (dst : Nat) :
    (∃ a, c.run (frame.get id) (ArithError.at frame.func.name dst) = .ok a ∧ a.type = c.type) ∨
      ∃ fault, c.run (frame.get id) (ArithError.at frame.func.name dst) = .error fault ∧
        frame.Lapses fault := by
  cases hr : c.run (frame.get id) (ArithError.at frame.func.name dst) with
  | ok a => exact .inl ⟨a, rfl, Computation.run_type hr⟩
  | error fault =>
    refine .inr ⟨fault, rfl, ?_⟩
    rcases Computation.run_error_cases hr with ⟨o, ho, hg⟩ | hall
    · obtain ⟨type, htype⟩ := Computation.Typed.operand htyped ho
      exact h.lapses htype (hd o ho) hg
    · have hget : ∀ o ∈ c.operands, ∀ type, frame.func.operandType? o = some type →
          ∃ a, frame.get id o = .ok a ∧ a.type = type := by
        intro o ho type htype
        obtain ⟨a, ha⟩ := hall o ho
        exact ⟨a, ha, h.type_eq ((frame.get_eq_ok id).mp ha) htype⟩
      rcases Computation.run_typed (ArithError.at frame.func.name dst) htyped hget with
        ⟨a, ha⟩ | hdiv
      · cases hr.symm.trans ha
      · cases hr.symm.trans hdiv
        exact .divides

theorem phi_cases (h : frame.Tracked) {incoming : List (Operand × Nat)}
    (hb : frame.func.block? frame.block = some b)
    (hedges : (incoming.map Prod.snd).Perm (frame.func.edgesInto b.id)) :
    (∃ e ∈ incoming, incoming.find? (fun e => some e.2 == frame.previous) = some e) ∨
      incoming.find? (fun e => some e.2 == frame.previous) = none ∧
        frame.block = 0 ∧ frame.previous = none := by
  cases hfind : incoming.find? fun e => some e.2 == frame.previous with
  | some e => exact .inl ⟨e, List.mem_of_find?_eq_some hfind, rfl⟩
  | none =>
    obtain ⟨passed, hway, _⟩ := h.way
    rcases hway.edge with ⟨hprevious, hentry⟩ | ⟨q, hq, hprevious, hedge⟩
    · exact .inr ⟨rfl, hentry, hprevious⟩
    · have hmem : q.id ∈ incoming.map Prod.snd := by
        refine hedges.mem_iff.mpr (Func.mem_edgesInto.mpr ⟨q, hq, ?_, rfl⟩)
        rwa [id_of_block? hb]
      obtain ⟨e, he, heq⟩ := List.mem_map.mp hmem
      have hnot := List.find?_eq_none.mp hfind e he
      rw [hprevious, heq] at hnot
      exact absurd (beq_self_eq_true _) hnot

/-- An instruction of checked code gives a value of its type or fails in one of the ways left. -/
theorem value_cases (h : frame.Tracked) (hv : ∀ b ∈ frame.func.blocks, frame.func.Verified u b)
    (hs : frame.Stands b (some i)) (hi : i.op.isCall = false) :
    (∃ c, Machine.value frame i.dst i.op = .ok c ∧ c.type = i.type) ∨
      ∃ fault, Machine.value frame i.dst i.op = .error fault ∧ frame.Lapses fault := by
  have hb := List.mem_of_find?_eq_some hs.block
  obtain ⟨htyped, hdefined, _, hphi⟩ := (hv b hb).instructions i (List.mem_of_getElem? hs.pc)
  obtain ⟨dst, op⟩ := i
  cases op with
  | call callee args returns => cases hi
  | compute c =>
    rw [value_compute]
    exact h.compute_cases htyped hdefined dst
  | phi type incoming =>
    simp only [Machine.value]
    rcases h.phi_cases hs.block (hphi type incoming rfl) with
      ⟨e, he, hfind⟩ | ⟨hfind, hentry, hnone⟩
    · rw [hfind]
      have hd := hdefined e.1 (List.mem_map_of_mem he)
      have ht := htyped e he
      obtain ⟨o, p⟩ := e
      simp only
      cases hg : frame.get id o with
      | ok c => exact .inl ⟨c, rfl, h.type_eq ((frame.get_eq_ok id).mp hg) ht⟩
      | error fault => exact .inr ⟨fault, rfl, h.lapses ht hd hg⟩
    · rw [hfind]
      exact .inr ⟨_, rfl, .edgeless hentry hnone⟩

theorem leave_lapses (h : frame.Tracked) {t : Terminator}
    (htyped : t.Typed frame.func.operandType? frame.func.signature.returns)
    (hd : ∀ o ∈ t.operands, frame.func.Defines o) {label : String}
    (ha : frame.leave label (some t) = .fails fault) : frame.Lapses fault := by
  cases t with
  | br target => cases ha
  | ret value =>
    cases value with
    | none => cases ha
    | some o =>
      simp only [leave] at ha
      cases hg : frame.get id o with
      | ok c => rw [hg] at ha; cases ha
      | error fault' =>
        rw [hg] at ha
        cases ha
        exact h.lapses htyped (hd o List.mem_cons_self) hg
  | condBr o whenTrue whenFalse =>
    simp only [leave] at ha
    cases hg : frame.get id o with
    | error fault' =>
      rw [hg] at ha
      cases ha
      exact h.lapses htyped (hd o List.mem_cons_self) hg
    | ok c =>
      rw [hg] at ha
      have htype := h.type_eq ((frame.get_eq_ok id).mp hg) htyped
      cases c with
      | i1 taken => cases taken <;> cases ha
      | i32 n => cases htype
      | f64 x => cases htype

theorem fails (h : frame.Tracked) (ho : frame.func.Orderly)
    (hv : ∀ b ∈ frame.func.blocks, frame.func.Verified u b) (ha : frame.action = .fails fault) :
    frame.Lapses fault := by
  obtain ⟨passed, hway, _⟩ := h.way
  obtain ⟨b, hb⟩ := hway.block ho hv
  have hverified := hv b (List.mem_of_find?_eq_some hb)
  cases hi : b.instructions[frame.pc]? with
  | some i =>
    have hs : frame.Stands b (some i) := ⟨hb, hi⟩
    rw [action_perform hs] at ha
    obtain ⟨htyped, hdefined, _⟩ := hverified.instructions i (List.mem_of_getElem? hi)
    have hvalue (hcall : i.op.isCall = false) : frame.Lapses fault := by
      rcases h.value_cases hv hs hcall with ⟨c, hc, _⟩ | ⟨fault', hf, hl⟩
      · cases ha.symm.trans (perform_value hcall hc)
      · cases ha.symm.trans (perform_fault hcall hf)
        exact hl
    cases hop : i.op with
    | compute c => exact hvalue (by rw [hop]; rfl)
    | phi type incoming => exact hvalue (by rw [hop]; rfl)
    | call callee operands returns =>
      rw [hop] at htyped
      rw [Instruction.operands, hop] at hdefined
      cases hargs : operands.mapM (frame.get id) with
      | ok args => cases ha.symm.trans (perform_call hop hargs)
      | error fault' =>
        cases ha.symm.trans (perform_argFault hop hargs)
        exact h.mapM_lapses htyped hdefined hargs
  | none =>
    rw [action_leave ⟨hb, hi⟩] at ha
    obtain ⟨t, ht⟩ := Option.isSome_iff_exists.mp hverified.ended
    obtain ⟨htyped, hdefined⟩ := hverified.terminator t ht
    rw [ht] at ha
    exact h.leave_lapses htyped hdefined ha

theorem advance (h : frame.Tracked) (ho : frame.func.Orderly) (hs : frame.Stands b (some i))
    {r : Option Const} (hr : (r.map Const.type).getD .void = i.type) :
    (frame.next.receive i.dst r).Tracked := by
  have htype : frame.func.types[i.dst]? = some i.type :=
    ho.types i (Func.mem_instructions.mpr
      ⟨b, List.mem_of_find?_eq_some hs.block, List.mem_of_getElem? hs.pc⟩)
  obtain ⟨passed, hway, hknown⟩ := h.way
  cases r with
  | none =>
    refine ⟨h.args, ?_, i.dst :: passed, hway.next hs.block hs.pc, ?_⟩
    · intro v c hv
      exact h.types v c ((find?_next frame id _).symm.trans hv)
    · intro v hv
      rcases List.mem_cons.mp hv with rfl | hv
      · rw [← hr] at htype
        exact .inl htype
      · refine (hknown v hv).imp_right ?_
        rintro ⟨c, hc⟩
        exact ⟨c, (find?_next frame id _).trans hc⟩
  | some a =>
    have hfind : ∀ v, (frame.next.set i.dst a).find? id (.value v) =
        if v = i.dst then some a else frame.find? id (.value v) := by
      intro v
      rw [find?_set, find?_next]
    refine ⟨h.args, ?_, i.dst :: passed, hway.next hs.block hs.pc, ?_⟩
    · intro v c hv
      rw [Frame.receive, hfind] at hv
      split at hv
      next he =>
        cases hv
        rw [he]
        exact htype.trans (congrArg some hr.symm)
      next => exact h.types v c hv
    · intro v hv
      by_cases he : v = i.dst
      · exact .inr ⟨a, by rw [Frame.receive, hfind, if_pos he]⟩
      · refine (hknown v (List.mem_of_ne_of_mem he hv)).imp_right ?_
        rintro ⟨c, hc⟩
        exact ⟨c, by rw [Frame.receive, hfind, if_neg he, hc]⟩

theorem goes (h : frame.Tracked) (ho : frame.func.Orderly)
    (hv : ∀ b ∈ frame.func.blocks, frame.func.Verified u b) (ha : frame.action = .goes next) :
    next.Tracked := by
  have hmoves := frame.moves
  rw [ha] at hmoves
  cases hmoves with
  | @computes b i c hs hi hc =>
    rcases h.value_cases hv hs hi with ⟨a, ha, htype⟩ | ⟨fault, hf, _⟩
    · cases hc.symm.trans ha
      exact h.advance ho hs (r := some c) htype
    · cases hc.symm.trans hf
  | @jumps b t target hs ht hc =>
    obtain ⟨passed, hway, hknown⟩ := h.way
    refine ⟨h.args, ?_, passed, hway.jump hs.block hs.pc (hc.mem_block ht), ?_⟩
    · intro v c hv
      rw [find?_jump] at hv
      exact h.types v c hv
    · intro v hv
      refine (hknown v hv).imp_right ?_
      rintro ⟨c, hc⟩
      exact ⟨c, (find?_jump frame id target _).trans hc⟩

theorem resumes (h : frame.Tracked) (ho : frame.func.Orderly)
    (hv : ∀ b ∈ frame.func.blocks, frame.func.Verified u b) {p : Program}
    (ht : frame.func.Trusts p) {dst n : Nat} {callee : String} {args : List Const}
    {r : Option Const} {log log' : List HostCall} (ha : frame.action = .calls next dst callee args)
    (hn : n ≤ p.depth) (he : Evaluates p n (.call callee args) log ⟨.ok r, log'⟩) :
    (next.receive dst r).Tracked := by
  have hmoves := frame.moves
  rw [ha] at hmoves
  cases hmoves with
  | @calls b i callee operands returns args hs hop hargs =>
    have hb := List.mem_of_find?_eq_some hs.block
    have hi := List.mem_of_getElem? hs.pc
    obtain ⟨htyped, _⟩ := (hv b hb).instructions i hi
    rw [hop] at htyped
    refine h.advance ho hs ?_
    rw [ht i (Func.mem_instructions.mpr ⟨b, hb, hi⟩) callee operands returns hop n hn args log r
      log' (h.mapM_types htyped hargs) he, Instruction.type, hop]
    rfl

end Tracked

end Frame

namespace Machine

variable {p : Program} {f : Func} {u : CodeUnit} {frame next : Frame Const}
  {rest : List (Frame Const)} {log log' : List HostCall} {r : Option Const}

def Tracks (p : Program) (f : Func) : Frame Const → List (Frame Const) → List HostCall → Prop
  | frame, [], _ => frame.func = f → frame.Tracked
  | frame, caller :: rest, log => (frame.func = f → frame.Tracked) ∧
    ∃ dst, frame.returnTo = some dst ∧ ∀ r log',
      Evaluates p (p.depth - (rest.length + 2)) frame.task log ⟨.ok r, log'⟩ →
      Tracks p f (caller.receive dst r) rest log'

theorem Tracks.tracked (h : Tracks p f frame rest log) (hf : frame.func = f) : frame.Tracked := by
  cases rest with
  | nil => exact h hf
  | cons caller rest => exact h.1 hf

theorem Tracks.later (h : Tracks p f frame rest log) (hto : next.returnTo = frame.returnTo)
    (hn : next.func = f → next.Tracked)
    (he : ∀ r log'', Evaluates p (p.depth - (rest.length + 1)) next.task log' ⟨.ok r, log''⟩ →
      Evaluates p (p.depth - (rest.length + 1)) frame.task log ⟨.ok r, log''⟩) :
    Tracks p f next rest log' := by
  cases rest with
  | nil => exact hn
  | cons caller rest =>
    obtain ⟨_, dst, hdst, hbelow⟩ := h
    refine ⟨hn, dst, hto.trans hdst, ?_⟩
    intro r log'' h
    exact hbelow r log'' (he r log'' h)

section Step

variable (ho : f.Orderly) (hv : ∀ b ∈ f.blocks, f.Verified u b) (ht : f.Trusts p)
include ho hv

theorem Tracks.goes (h : Tracks p f frame rest log) (ha : frame.action = .goes next) :
    Tracks p f next rest log := by
  obtain ⟨hfunc, hto⟩ := Frame.goes_keeps ha
  refine h.later hto ?_ fun r log' => .of_goes ha
  rintro rfl
  rw [hfunc] at ho hv h
  exact (h.tracked rfl).goes ho hv ha

include ht

theorem Tracks.resumes {dst : Nat} {callee : String} {args : List Const}
    (h : Tracks p f frame rest log) (ha : frame.action = .calls next dst callee args)
    (he : Evaluates p (p.depth - (rest.length + 1)) (.call callee args) log ⟨.ok r, log'⟩) :
    Tracks p f (next.receive dst r) rest log' := by
  obtain ⟨hfunc, hto⟩ := Frame.calls_keeps ha
  have hfunc' : (next.receive dst r).func = frame.func := by cases r <;> exact hfunc
  have hto' : (next.receive dst r).returnTo = frame.returnTo := by cases r <;> exact hto
  refine h.later hto' ?_ fun r' log'' => .of_calls ha he
  intro hf
  obtain rfl := hfunc'.symm.trans hf
  exact (h.tracked rfl).resumes ho hv ht ha (Nat.sub_le _ _) he

/-- What a step does keeps the calls of `f` tracked. -/
theorem Tracks.step {m : Machine} (h : Tracks p f frame rest log)
    (hs : (⟨frame :: rest, log⟩ : Machine).step p = .running m) :
    ∃ frame' rest' log', m = ⟨frame' :: rest', log'⟩ ∧ Tracks p f frame' rest' log' := by
  cases ha : frame.action with
  | goes next =>
    rw [step_cons, ha] at hs
    cases hs
    exact ⟨next, rest, log, rfl, h.goes ho hv ha⟩
  | fails fault =>
    rw [step_cons, ha] at hs
    cases hs
  | returns r =>
    cases rest with
    | nil =>
      rw [step_last ha] at hs
      cases hs
    | cons caller rest =>
      obtain ⟨_, dst, hdst, hbelow⟩ := h
      rw [step_returns ha hdst] at hs
      cases hs
      exact ⟨_, rest, log, rfl, hbelow r log (.of_returns ha)⟩
  | calls next dst callee args =>
    rw [step_calls ha] at hs
    cases begins p (next :: rest).length callee args with
    | hostFault hn hh => cases (call_hostFault hn hh).symm.trans hs
    | unfit hg hc => cases (call_unfit hg hc).symm.trans hs
    | full hg hc hd => cases (call_full hg hc hd).symm.trans hs
    | host hn hh =>
      cases (call_host hn hh).symm.trans hs
      exact ⟨_, rest, _, rfl, h.resumes ho hv ht ha (.host hn hh)⟩
    | entered hg hc hroom =>
      cases (call_entered hg hc hroom).symm.trans hs
      refine ⟨_, next :: rest, log, rfl, ?_, dst, rfl, ?_⟩
      · intro _
        exact Frame.tracked_start hc (some dst)
      · intro r log' he
        refine h.resumes ho hv ht ha ?_
        have hdepth : p.depth - (rest.length + 1) = p.depth - (rest.length + 2) + 1 := by
          rw [List.length_cons] at hroom
          omega
        rw [hdepth]
        exact .enter hg hc (Evaluates.start_iff.mpr he)

theorem Steps.tracks {base : List (Frame Const)} {m : Machine}
    (h : Tracks p f frame rest log) (hs : Steps p base ⟨frame :: rest, log⟩ m) :
    ∃ frame' rest' log', m = ⟨frame' :: rest', log'⟩ ∧ Tracks p f frame' rest' log' := by
  induction hs with
  | refl => exact ⟨frame, rest, log, rfl, h⟩
  | tail _ hs ih =>
    obtain ⟨frame', rest', log', rfl, h⟩ := ih
    exact h.step ho hv ht hs.1

end Step

end Machine

open Machine

/-- In a run of checked code that trusts its callees rightly, a call of it fails by dividing by
zero, or by a read that some way to it has left undefined. -/
theorem Frame.lapses_of_verify {f : Func} {u : CodeUnit} {p : Program} {name : String}
    {args : List Const} {frame : Frame Const} {rest : List (Frame Const)} {log : List HostCall}
    {fault : Fault} (hb : f.Built) (hv : f.verify u = .ok ()) (ht : f.Trusts p)
    (hp : p.Passes name args ⟨frame :: rest, log⟩) (hf : frame.func = f)
    (ha : frame.action = .fails fault) : frame.Lapses fault := by
  have ho := hb.orderly
  obtain ⟨_, hverified⟩ := Func.verify_eq_ok.mp hv
  obtain ⟨g, start, _, he, hs⟩ := hp
  have htracks : ∃ rest log, start = ⟨Frame.start g args none :: rest, log⟩ ∧
      Tracks p f (Frame.start g args none) rest log := by
    obtain ⟨_, hc, he⟩ := bind_eq_ok.mp he
    split at he
    next =>
      cases he
      exact ⟨[], [], rfl, fun _ => Frame.tracked_start hc none⟩
    next => cases he
  obtain ⟨rest₀, log₀, rfl, htracks⟩ := htracks
  obtain ⟨frame', rest', log', hm, htracks⟩ := Steps.tracks ho hverified ht htracks hs
  cases hm
  subst hf
  exact (htracks.tracked rfl).fails ho hverified ha

theorem Func.trusts_of_all {f : Func} (h : (f.instructions.all fun i => !i.op.isCall) = true)
    (p : Program) : f.Trusts p := by
  intro i hi callee operands returns hop
  have hcall := List.all_eq_true.mp h i hi
  rw [hop] at hcall
  cases hcall

def Func.halfway : Func :=
  let b := ((Builder.start ⟨"halfway", [("p0", .i1)], .i32⟩).appendBlock "then").2
  let b := (b.appendBlock "join").2.terminate (.condBr (.param 0) 1 2)
  let sum : Operation := .compute (.int .add (.const (.i32 1)) (.const (.i32 1)))
  let b := ((b.moveTo 1).emit sum).2.terminate (.br 2)
  ((b.moveTo 2).terminate (.ret (some (.value 0)))).func

def Func.restarted : Func :=
  let b := ((Builder.start ⟨"restarted", [("p0", .i1)], .i32⟩).appendBlock "done").2
  let b := (b.emit (.phi .i32 [(.const (.i32 7), 0)])).2.terminate (.condBr (.param 0) 0 1)
  ((b.moveTo 1).terminate (.ret (some (.value 0)))).func

def Func.quiet : Func := ((Builder.start ⟨"quiet", [], .void⟩).terminate (.ret none)).func

def Func.echoing : Func :=
  let b := ((Builder.start ⟨"echoing", [], .void⟩).emit (.call "quiet" [] .void)).2
  (b.terminate (.ret (some (.value 0)))).func

def Program.of (fs : List Func) : Program := { code := fs.foldl (fun t f => t.insert f.name f) ∅ }

theorem Func.built_halfway : halfway.Built := by
  refine ⟨_, ?_, rfl⟩
  refine .terminate _ (.moveTo (.terminate _ (.emit _ (.moveTo ?_ (by decide)))) (by decide))
  exact .terminate _ (.appendBlock _ (.appendBlock _ (.start _)))

theorem Func.built_restarted : restarted.Built := by
  refine ⟨_, ?_, rfl⟩
  exact .terminate _ (.moveTo (.terminate _ (.emit _ (.appendBlock _ (.start _)))) (by decide))

theorem Func.built_echoing : echoing.Built :=
  ⟨_, .terminate _ (.emit _ (.start _)), rfl⟩

theorem Func.trusts_echoing : echoing.Trusts (.of [quiet, echoing]) := by
  intro i hi callee operands returns hop n hn args log r log' _ he
  obtain rfl : i = ⟨0, .call "quiet" [] .void⟩ := List.mem_singleton.mp hi
  cases hop
  cases he with
  | host hnone => cases hnone
  | enter hf hc he =>
    cases hf
    cases he with
    | block hb he =>
      cases hb
      cases he with
      | void => rfl
      | returns ht => cases ht
      | jump ht => cases ht
      | branch ht => cases ht

def Func.Strays (f : Func) (u : CodeUnit) (p : Program) (args : List Const)
    (detail : Fault.Misfit) : Prop :=
  f.Built ∧ f.verify u = .ok () ∧ p.code.get? f.name = some f ∧ f.Trusts p ∧
    args.map Const.type = f.signature.paramTypes ∧
    ∃ fuel, p.call fuel f.name args = some ⟨.error (.misfit f.name detail), []⟩

theorem Func.strays_checked :
    Func.halfway.Strays ⟨"main", .host, ∅⟩ (.of [.halfway]) [.i1 false] (.noValue (.value 0)) ∧
      Func.restarted.Strays ⟨"main", .host, ∅⟩ (.of [.restarted]) [.i1 false] .missingEdge ∧
      Func.echoing.Strays (CodeUnit.insert ⟨"main", .host, ∅⟩ .quiet) (.of [.quiet, .echoing]) []
        (.noValue (.value 0)) := by
  refine ⟨⟨Func.built_halfway, ?_, ?_, Func.trusts_of_all ?_ _, ?_, 5, ?_⟩,
    ⟨Func.built_restarted, ?_, ?_, Func.trusts_of_all ?_ _, ?_, 5, ?_⟩,
    ⟨Func.built_echoing, ?_, ?_, Func.trusts_echoing, ?_, 5, ?_⟩⟩
  all_goals with_unfolding_all rfl

theorem Func.halfway_lapses :
    ((Frame.start Func.halfway [.i1 false] none).jump 2).Lapses
      (.misfit "halfway" (.noValue (.value 0))) := by
  have hverify : Func.halfway.verify ⟨"main", .host, ∅⟩ = .ok () := by with_unfolding_all rfl
  have htrusts : Func.halfway.Trusts (.of [.halfway]) :=
    Func.trusts_of_all (by with_unfolding_all rfl) _
  have hpasses : (Program.of [.halfway]).Passes "halfway" [.i1 false]
      ⟨[(Frame.start Func.halfway [.i1 false] none).jump 2], []⟩ := by
    refine ⟨Func.halfway, ⟨[Frame.start Func.halfway [.i1 false] none], []⟩, ?_, ?_, ?_⟩
    · with_unfolding_all rfl
    · with_unfolding_all rfl
    · exact .of_step (by with_unfolding_all rfl) List.nil_suffix
  exact Frame.lapses_of_verify Func.built_halfway hverify htrusts hpasses rfl
    (by with_unfolding_all rfl)

end FormCompiler
