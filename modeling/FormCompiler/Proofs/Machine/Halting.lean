import FormCompiler.Proofs.Machine.Entering
import FormCompiler.Proofs.Machine.Simulation

namespace FormCompiler

structure Func.Within (f : Func) (w : Flow) (rank length : Nat) : Prop where
  rank : ∀ b ∈ f.blocks, w.rank b.id ≤ rank
  length : ∀ b ∈ f.blocks, b.instructions.length ≤ length

theorem Func.exists_within (f : Func) (w : Flow) : ∃ rank length, f.Within w rank length := by
  have hbounded : ∀ (g : Block → Nat) (bs : List Block), ∃ n, ∀ b ∈ bs, g b ≤ n := by
    intro g bs
    induction bs with
    | nil => exact ⟨0, fun b hb => (by cases hb)⟩
    | cons b bs ih =>
      obtain ⟨n, hn⟩ := ih
      refine ⟨max (g b) n, ?_⟩
      intro c hc
      rcases List.mem_cons.mp hc with rfl | hc
      · exact Nat.le_max_left _ _
      · exact Nat.le_trans (hn c hc) (Nat.le_max_right _ _)
  obtain ⟨rank, hrank⟩ := hbounded (fun b => w.rank b.id) f.blocks
  obtain ⟨length, hlength⟩ := hbounded (fun b => b.instructions.length) f.blocks
  exact ⟨rank, length, hrank, hlength⟩

namespace Frame

variable {w : Flow} {frame next : Frame Const} {rank length : Nat}

def room (w : Flow) (rank length : Nat) (frame : Frame Const) : Nat :=
  (rank + 1 - w.rank frame.block) * (length + 1) + (length - frame.pc)

theorem room_next (hl : frame.func.Within w rank length) {b : Block} {i : Instruction}
    (hi : frame.Stands b (some i)) : frame.next.room w rank length < frame.room w rank length := by
  have hpc := (List.getElem?_eq_some_iff.mp hi.pc).1
  have hlength := hl.length b (List.mem_of_find?_eq_some hi.block)
  change _ * _ + (length - (frame.pc + 1)) < _ * _ + (length - frame.pc)
  apply Nat.add_lt_add_left
  omega

theorem room_jump (hl : frame.func.Within w rank length) (hs : frame.func.Shaped)
    (hw : frame.func.Flows w) {b : Block} (hi : frame.func.block? frame.block = some b)
    {target : Nat} (ht : target ∈ b.successors) :
    (frame.jump target).room w rank length < frame.room w rank length := by
  obtain ⟨hb, hid⟩ := hs.block?_eq_some.mp hi
  obtain ⟨c, hc, rfl⟩ := hs.targets b hb target ht
  have hrank := hw.rank b hb c.id ht
  have hbound := hl.rank c hc
  rw [hid] at hrank
  have hless : rank + 1 - w.rank c.id + 1 ≤ rank + 1 - w.rank frame.block := by omega
  calc (frame.jump c.id).room w rank length
      = (rank + 1 - w.rank c.id) * (length + 1) + length := rfl
    _ < (rank + 1 - w.rank c.id + 1) * (length + 1) := by rw [Nat.succ_mul]; omega
    _ ≤ (rank + 1 - w.rank frame.block) * (length + 1) := Nat.mul_le_mul_right _ hless
    _ ≤ frame.room w rank length := Nat.le_add_right _ _

theorem room_goes (hs : frame.func.Sound w) (hl : frame.func.Within w rank length)
    (h : frame.action = .goes next) : next.room w rank length < frame.room w rank length := by
  have hmoves := frame.moves
  rw [h] at hmoves
  cases hmoves with
  | computes hi => exact room_next hl hi
  | jumps hi ht hc => exact room_jump hl hs.shaped hs.flows hi.block (hc.mem_block ht)

theorem room_calls (hl : frame.func.Within w rank length) {dst : Nat} {callee : String}
    {args : List Const} (h : frame.action = .calls next dst callee args) :
    next.room w rank length < frame.room w rank length := by
  have hmoves := frame.moves
  rw [h] at hmoves
  cases hmoves with
  | calls hi => exact room_next hl hi

end Frame

def Program.Sound (p : Program) : Prop := ∀ name f, p.code.get? name = some f → ∃ w, f.Sound w

namespace Machine

variable {p : Program} {frame next : Frame Const} {rest : List (Frame Const)}
  {calls : List HostCall} {outcome : Outcome}

def Finishes (p : Program) (frame : Frame Const) (rest : List (Frame Const))
    (calls : List HostCall) : Prop :=
  (∃ outcome, Ends p ⟨frame :: rest, calls⟩ outcome) ∨
    ∃ last calls' r, Reaches p ⟨frame :: rest, calls⟩ ⟨last :: rest, calls'⟩ ∧
      last.action = .returns r

theorem Finishes.of_reaches {frame' : Frame Const} {calls' : List HostCall}
    (h : Reaches p ⟨frame :: rest, calls⟩ ⟨frame' :: rest, calls'⟩)
    (hf : Finishes p frame' rest calls') : Finishes p frame rest calls := by
  rcases hf with ⟨outcome, he⟩ | ⟨last, calls'', r, hr, hl⟩
  · exact .inl ⟨outcome, h.ends he⟩
  · exact .inr ⟨last, calls'', r, h.trans hr, hl⟩

theorem reaches_return (p : Program) {last : Frame Const} (caller : Frame Const)
    (rest : List (Frame Const)) {r : Option Const} (h : last.action = .returns r) : ∃ resumed,
      Reaches p ⟨last :: caller :: rest, calls⟩ ⟨resumed :: rest, calls⟩ ∧
      (resumed = caller ∨ ∃ dst c, resumed = caller.set dst c) := by
  have hstep : (⟨last :: caller :: rest, calls⟩ : Machine).step p =
      return? last (caller :: rest) calls r := by
    rw [step_cons, h]
    rfl
  unfold return? at hstep
  cases hdst : last.returnTo with
  | none =>
    rw [hdst] at hstep
    exact ⟨caller, .of_step hstep, .inl rfl⟩
  | some dst =>
    rw [hdst] at hstep
    cases r with
    | none => exact ⟨caller, .of_step hstep, .inl rfl⟩
    | some c => exact ⟨caller.set dst c, .of_step hstep, .inr ⟨dst, c, rfl⟩⟩

theorem call_cases (p : Program) (next : Frame Const) (rest : List (Frame Const))
    (calls : List HostCall) (dst : Nat) (callee : String) (args : List Const) :
    (∃ fault, (⟨next :: rest, calls⟩ : Machine).call p dst callee args =
      .halted ⟨.error fault, calls⟩) ∨
    (∃ h, p.code.get? callee = none ∧ p.host.call callee (args.map Value.of) = .ok h ∧
      (⟨next :: rest, calls⟩ : Machine).call p dst callee args =
        .running ⟨next.set dst (.f64 h.result) :: rest, h :: calls⟩) ∨
    ∃ f, p.code.get? callee = some f ∧ rest.length + 1 < p.depth ∧
      (⟨next :: rest, calls⟩ : Machine).call p dst callee args =
        .running ⟨Frame.start f args (some dst) :: next :: rest, calls⟩ := by
  cases begins p (next :: rest).length callee args with
  | host hn hh => exact .inr (.inl ⟨_, hn, hh, call_host hn hh⟩)
  | hostFault hn hh => exact .inl ⟨_, call_hostFault hn hh⟩
  | unfit hf hc => exact .inl ⟨_, call_unfit hf hc⟩
  | full hf hc hd => exact .inl ⟨_, call_full hf hc hd⟩
  | entered hf hc hd => exact .inr (.inr ⟨_, hf, hd, call_entered hf hc hd⟩)

/-- Every call finishes: by induction on the depth that is left and, for each depth, on the room
that is left to the call. -/
theorem finishes (hp : p.Sound) (n : Nat) (hn : p.depth ≤ rest.length + 1 + n) {w : Flow}
    (hs : frame.func.Sound w) : Finishes p frame rest calls := by
  induction n using Nat.strongRecOn generalizing frame rest calls w with
  | ind n ihn =>
    obtain ⟨rank, length, hl⟩ := frame.func.exists_within w
    induction hroom : frame.room w rank length using Nat.strongRecOn
      generalizing frame calls with
    | ind k ihk =>
      subst hroom
      cases ha : frame.action with
      | goes next =>
        have hfunc := (Frame.goes_keeps ha).1
        apply Finishes.of_reaches (.of_goes ha)
        exact ihk _ (Frame.room_goes hs hl ha) (hfunc ▸ hs) (hfunc ▸ hl) rfl
      | returns r => exact .inr ⟨frame, calls, r, .refl, ha⟩
      | fails fault => exact .inl ⟨_, .of_fails ha⟩
      | calls next dst callee args =>
        have hfunc := (Frame.calls_keeps ha).1
        have hstep : (⟨frame :: rest, calls⟩ : Machine).step p =
            (⟨next :: rest, calls⟩ : Machine).call p dst callee args := by
          rw [step_cons, ha]
          rfl
        -- whatever the caller has been given, it has less room than before the call
        have hresumed : ∀ {resumed : Frame Const} {calls' : List HostCall},
            (resumed = next ∨ ∃ d c, resumed = next.set d c) → Finishes p resumed rest calls' := by
          intro resumed calls' hr
          have hroom : resumed.room w rank length = next.room w rank length := by
            rcases hr with rfl | ⟨d, c, rfl⟩
            · rfl
            · rfl
          have hfunc' : resumed.func = frame.func := by
            rcases hr with rfl | ⟨d, c, rfl⟩
            · exact hfunc
            · exact hfunc
          exact ihk _ (hroom ▸ Frame.room_calls hl ha) (hfunc' ▸ hs) (hfunc' ▸ hl) rfl
        rcases call_cases p next rest calls dst callee args with
          ⟨fault, hc⟩ | ⟨h, _, _, hc⟩ | ⟨f, hf, hd, hc⟩
        · exact .inl ⟨_, .of_step (hstep.trans hc)⟩
        · apply Finishes.of_reaches (.of_step (hstep.trans hc))
          exact hresumed (.inr ⟨dst, _, rfl⟩)
        · obtain ⟨w', hw'⟩ := hp callee f hf
          have hentered := Reaches.of_step (hstep.trans hc)
          have hcallee : Finishes p (Frame.start f args (some dst)) (next :: rest) calls :=
            ihn (n - 1) (by omega) (by rw [List.length_cons]; omega) hw'
          rcases hcallee with ⟨outcome, he⟩ | ⟨last, calls', r, hr, hl'⟩
          · exact .inl ⟨outcome, hentered.ends he⟩
          · obtain ⟨resumed, hreturn, hcase⟩ := reaches_return p next rest hl'
            apply Finishes.of_reaches ((hentered.trans hr).trans hreturn)
            exact hresumed hcase

theorem exists_ends (hp : p.Sound) {w : Flow} (hs : frame.func.Sound w) :
    ∃ outcome, Ends p ⟨[frame], calls⟩ outcome := by
  have hf : Finishes p frame [] calls := finishes hp p.depth (Nat.le_add_left _ _) hs
  rcases hf with he | ⟨last, calls', r, hr, hl⟩
  · exact he
  · exact ⟨_, hr.ends (.of_step (by rw [step_cons, hl]; rfl))⟩

end Machine

end FormCompiler
