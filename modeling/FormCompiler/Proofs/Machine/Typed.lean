import FormCompiler.Proofs.Code.Arith
import FormCompiler.Proofs.Machine.Moves

namespace FormCompiler

theorem Scoped.known_or_mem_take {known : Nat → Prop} {is : List Instruction} {n : Nat}
    {i : Instruction} {v : Nat} (h : Scoped known is) (hi : is[n]? = some i) (hv : i.Reads v) :
    known v ∨ v ∈ (is.take n).map Instruction.dst := by
  induction is generalizing known n with
  | nil => cases hi
  | cons j is ih =>
    cases n with
    | zero =>
      cases hi
      exact .inl (h.1 v hv)
    | succ n =>
      simp only [List.take_succ_cons, List.map_cons, List.mem_cons]
      rcases ih h.2 hi with (hk | he) | hm
      · exact .inl hk
      · exact .inr (.inl he)
      · exact .inr (.inr hm)

namespace Frame

def Knows (frame : Frame Const) (v : Nat) : Prop := ∃ c, frame.find? id (.value v) = some c

structure Fits (w : Flow) (frame : Frame Const) : Prop where
  args : frame.args.map Const.type = frame.func.signature.paramTypes
  types : ∀ v c, frame.find? id (.value v) = some c → frame.func.types[v]? = some c.type
  place : ∃ b ∈ frame.func.blocks, b.id = frame.block ∧
    ∀ v, w.avail b.id v ∨ v ∈ (b.instructions.take frame.pc).map Instruction.dst → frame.Knows v
  previous : frame.previous = none ∧ frame.block = 0 ∨
    ∃ b ∈ frame.func.blocks, frame.previous = some b.id ∧ frame.block ∈ b.successors ∧
      ∀ v, b.Leaves w v → frame.Knows v

inductive Proceeds (w : Flow) (frame : Frame Const) : Action → Prop
  | goes {next : Frame Const} : next.func = frame.func → next.returnTo = frame.returnTo →
      next.Fits w → Proceeds w frame (.goes next)
  | calls {i : Instruction} {callee : String} {operands : List Operand} {returns : NativeType}
      {args : List Const} : i ∈ frame.func.instructions → i.op = .call callee operands returns →
      operands.map frame.func.operandType? = (args.map Const.type).map some →
      (∀ c : Const, c.type = returns → (frame.next.set i.dst c).Fits w) →
      Proceeds w frame (.calls frame.next i.dst callee args)
  | returns {c : Const} : c.type = frame.func.signature.returns →
      Proceeds w frame (.returns (some c))
  | divides : Proceeds w frame (.fails (.divisionByZero frame.func.name))

variable {f : Func} {w : Flow} {frame : Frame Const} {b : Block} {i : Instruction}

theorem fits_start (hs : f.Sound w) {args : List Const}
    (hargs : args.map Const.type = f.signature.paramTypes) (returnTo : Option Nat) :
    (start f args returnTo).Fits w := by
  refine ⟨hargs, ?_, ?_, .inl ⟨rfl, rfl⟩⟩
  · intro v c hv
    rw [find?_start] at hv
    cases hv
  · obtain ⟨b, hhead, hid⟩ := Option.map_eq_some_iff.mp hs.shaped.entry
    refine ⟨b, List.mem_of_mem_head? hhead, hid, ?_⟩
    rintro v (hv | hv)
    · rw [hid] at hv
      exact absurd hv (hs.flows.entry v)
    · cases hv

namespace Fits

theorem stands (h : frame.Fits w) (hs : frame.func.Shaped) :
    ∃ b ∈ frame.func.blocks, b.id = frame.block ∧
      frame.Stands b b.instructions[frame.pc]? ∧
      ∀ v, w.avail b.id v ∨ v ∈ (b.instructions.take frame.pc).map Instruction.dst →
        frame.Knows v := by
  obtain ⟨b, hb, hid, hknown⟩ := h.place
  exact ⟨b, hb, hid, ⟨hs.block?_eq_some.mpr ⟨hb, hid⟩, rfl⟩, hknown⟩

theorem find? (h : frame.Fits w) {o : Operand} {type : NativeType}
    (ho : frame.func.operandType? o = some type) (hv : ∀ v, o = .value v → frame.Knows v) :
    ∃ c, frame.find? id o = some c ∧ c.type = type := by
  cases o with
  | const c => exact ⟨c, rfl, Option.some.inj ho⟩
  | param index =>
    rw [Func.operandType?, ← h.args, List.getElem?_map] at ho
    exact Option.map_eq_some_iff.mp ho
  | value v =>
    obtain ⟨c, hc⟩ := hv v rfl
    have htype := (h.types v c hc).symm.trans ho
    exact ⟨c, hc, Option.some.inj htype⟩

theorem set (h : frame.Fits w) (hs : frame.func.Shaped) (hi : frame.Stands b (some i)) {c : Const}
    (hc : frame.func.types[i.dst]? = some c.type) : (frame.next.set i.dst c).Fits w := by
  have hholds : ∀ v, frame.Knows v ∨ v = i.dst → (frame.next.set i.dst c).Knows v := by
    intro v hv
    unfold Knows
    rw [find?_set]
    split
    · exact ⟨c, rfl⟩
    · next hne =>
      rw [find?_next]
      exact hv.resolve_right hne
  refine ⟨h.args, ?_, ?_, ?_⟩
  · intro v a hv
    rw [find?_set] at hv
    split at hv
    next he =>
      cases hv
      rw [he]
      exact hc
    next =>
      rw [find?_next] at hv
      exact h.types v a hv
  · obtain ⟨b', hb', hid, hstands, hknown⟩ := h.stands hs
    obtain rfl : b' = b := Option.some.inj (hstands.block.symm.trans hi.block)
    refine ⟨b', hb', hid, fun v hv => hholds v ?_⟩
    change _ ∨ v ∈ (b'.instructions.take (frame.pc + 1)).map Instruction.dst at hv
    rw [List.take_add_one, hi.pc, List.map_append, List.mem_append] at hv
    rcases hv with hv | hv | hv
    · exact .inl (hknown v (.inl hv))
    · exact .inl (hknown v (.inr hv))
    · exact .inr (List.mem_singleton.mp hv)
  · refine h.previous.imp id ?_
    rintro ⟨p, hp, hprevious, hsucc, hleaves⟩
    exact ⟨p, hp, hprevious, hsucc, fun v hv => hholds v (.inl (hleaves v hv))⟩

theorem jump (h : frame.Fits w) (hs : frame.func.Sound w) (hi : frame.Stands b none) {target : Nat}
    (ht : target ∈ b.successors) : (frame.jump target).Fits w := by
  obtain ⟨b', hb, hid, hstands, hknown⟩ := h.stands hs.shaped
  obtain rfl : b' = b := Option.some.inj (hstands.block.symm.trans hi.block)
  have hholds : ∀ v, b'.Leaves w v → (frame.jump target).Knows v := by
    intro v hv
    unfold Knows
    rw [find?_jump]
    refine hknown v (hv.imp_right fun hv => ?_)
    rwa [List.take_of_length_le (List.getElem?_eq_none_iff.mp hi.pc)]
  refine ⟨h.args, ?_, ?_, ?_⟩
  · intro v c hv
    rw [find?_jump] at hv
    exact h.types v c hv
  · obtain ⟨c, hc, rfl⟩ := hs.shaped.targets b' hb target ht
    refine ⟨c, hc, rfl, ?_⟩
    rintro v (hv | hv)
    · exact hholds v (hs.flows.edges b' hb c.id ht v hv)
    · cases hv
  · exact .inr ⟨b', hb, congrArg some hid.symm, ht, hholds⟩

theorem reads (h : frame.Fits w) (hs : frame.func.Sound w) (hi : frame.Stands b (some i))
    (hphi : i.op.isPhi = false) {o : Operand} (ho : o ∈ i.operands) {v : Nat} (hv : o = .value v) :
    frame.Knows v := by
  obtain ⟨b', hb, _, hstands, hknown⟩ := h.stands hs.shaped
  obtain rfl : b' = b := Option.some.inj (hstands.block.symm.trans hi.block)
  exact hknown v ((hs.flows.scope b' hb).known_or_mem_take hi.pc ⟨hphi, hv ▸ ho⟩)

theorem compute (h : frame.Fits w) (hs : frame.func.Sound w) (hi : frame.Stands b (some i))
    {c : Computation} (hop : i.op = .compute c) : frame.Proceeds w frame.action := by
  have hb := (hs.shaped.block?_eq_some.mp hi.block).1
  have hmem := List.mem_of_getElem? hi.pc
  have htyped := hs.typed.operations b hb i hmem
  rw [hop] at htyped
  have hget : ∀ o ∈ c.operands, ∀ type, frame.func.operandType? o = some type →
      ∃ a, frame.get id o = .ok a ∧ a.type = type := by
    intro o ho type htype
    have hreads : ∀ v, o = .value v → frame.Knows v := by
      intro v hv
      apply h.reads hs hi (by rw [hop]; rfl) _ hv
      rwa [Instruction.operands, hop]
    obtain ⟨a, ha, hta⟩ := h.find? htype hreads
    exact ⟨a, (frame.get_eq_ok id).mpr ha, hta⟩
  have hrun := Computation.run_typed (ArithError.at frame.func.name i.dst) htyped hget
  rw [← value_compute, ← hop] at hrun
  rcases hrun with ⟨a, ha⟩ | hdiv
  · rw [action_computes hi (by rw [hop]; rfl) ha]
    refine .goes rfl rfl (h.set hs.shaped hi ?_)
    rw [hop, value_compute] at ha
    rw [hs.typed.types b hb i hmem, Computation.run_type ha, Instruction.type, hop]
    rfl
  · rcases value_misfit hdiv with ⟨detail, hm⟩ | ⟨_, l, r, hdivision⟩
    · cases hm
    · rw [action_divides hi hdivision hdiv]
      exact .divides

theorem phi (h : frame.Fits w) (hs : frame.func.Sound w) (hi : frame.Stands b (some i))
    {type : NativeType} {incoming : List (Operand × Nat)} (hop : i.op = .phi type incoming) :
    frame.Proceeds w frame.action := by
  obtain ⟨hb, hid⟩ := hs.shaped.block?_eq_some.mp hi.block
  have hmem := List.mem_of_getElem? hi.pc
  have htyped := hs.typed.operations b hb i hmem
  rw [hop] at htyped
  rcases h.previous with ⟨_, hzero⟩ | ⟨p, hp, hprevious, hsucc, hleaves⟩
  · have hnot := hs.phis.entry b hb (hid.trans hzero) i hmem
    rw [hop] at hnot
    cases hnot
  · have hedge : p.id ∈ incoming.map Prod.snd := by
      apply (hs.phis.edges b hb i hmem type incoming hop).mem_iff.mpr
      exact Func.mem_edgesInto.mpr ⟨p, hp, hid ▸ hsucc, rfl⟩
    obtain ⟨e, he, hep⟩ := List.mem_map.mp hedge
    have hsome : (incoming.find? fun e => some e.2 == frame.previous).isSome = true := by
      rw [List.find?_isSome]
      exact ⟨e, he, by simp [hprevious, hep]⟩
    obtain ⟨⟨o, p'⟩, hfind⟩ := Option.isSome_iff_exists.mp hsome
    have hin := List.mem_of_find?_eq_some hfind
    have hfrom : p' = p.id := by simpa [hprevious] using List.find?_some hfind
    have hknown : ∀ v, o = .value v → frame.Knows v := by
      rintro v rfl
      exact hleaves v (hs.phis.avail b hb i hmem type incoming hop v p' hin p hp hfrom.symm)
    obtain ⟨c, hc, htype⟩ := h.find? (htyped _ hin) hknown
    have hvalue : Machine.value frame i.dst i.op = .ok c := by
      rw [hop]
      simp only [Machine.value, hfind]
      exact (frame.get_eq_ok id).mpr hc
    rw [action_computes hi (by rw [hop]; rfl) hvalue]
    refine .goes rfl rfl (h.set hs.shaped hi ?_)
    rw [hs.typed.types b hb i hmem, Instruction.type, hop, htype]
    rfl

theorem call (h : frame.Fits w) (hs : frame.func.Sound w) (hi : frame.Stands b (some i))
    {callee : String} {operands : List Operand} {returns : NativeType}
    (hop : i.op = .call callee operands returns) : frame.Proceeds w frame.action := by
  have hb := (hs.shaped.block?_eq_some.mp hi.block).1
  have hmem := List.mem_of_getElem? hi.pc
  have htyped := hs.typed.operations b hb i hmem
  rw [hop] at htyped
  have hfound : ∀ o ∈ operands, ∃ c, frame.find? id o = some c ∧
      frame.func.operandType? o = some c.type := by
    intro o ho
    obtain ⟨type, htype⟩ := htyped o ho
    have hreads : ∀ v, o = .value v → frame.Knows v := by
      intro v hv
      apply h.reads hs hi (by rw [hop]; rfl) _ hv
      rwa [Instruction.operands, hop]
    obtain ⟨c, hc, rfl⟩ := h.find? htype hreads
    exact ⟨c, hc, htype⟩
  obtain ⟨args, hargs, htypes⟩ : ∃ args : List Const, operands.mapM (frame.get id) = .ok args ∧
      operands.map frame.func.operandType? = (args.map Const.type).map some := by
    clear hop htyped
    induction operands with
    | nil => exact ⟨[], rfl, rfl⟩
    | cons o os ih =>
      obtain ⟨c, hc, htype⟩ := hfound o List.mem_cons_self
      obtain ⟨cs, hcs, htypes⟩ := ih fun o ho => hfound o (List.mem_cons_of_mem _ ho)
      refine ⟨c :: cs, ?_, ?_⟩
      · rw [List.mapM_cons, (frame.get_eq_ok id).mpr hc, hcs]
        rfl
      · rw [List.map_cons, htype, htypes]
        rfl
  rw [action_calls hi hop hargs]
  refine .calls (Func.mem_instructions.mpr ⟨b, hb, hmem⟩) hop htypes ?_
  intro c hc
  apply h.set hs.shaped hi
  rw [hs.typed.types b hb i hmem, Instruction.type, hop, hc]
  rfl

theorem leave (h : frame.Fits w) (hs : frame.func.Sound w) (hg : frame.func.Gives)
    (hi : frame.Stands b none) : frame.Proceeds w frame.action := by
  obtain ⟨b', hb, _, hstands, hknown⟩ := h.stands hs.shaped
  obtain rfl : b' = b := Option.some.inj (hstands.block.symm.trans hi.block)
  obtain ⟨t, ht⟩ := Option.isSome_iff_exists.mp (hs.shaped.ended b' hb)
  have htyped := hs.typed.terminators b' hb t ht
  have hjump : ∀ {target}, frame.Chooses t target → frame.Proceeds w frame.action := by
    intro target hc
    rw [action_jumps hi ht hc]
    exact .goes rfl rfl (h.jump hs hi (hc.mem_block ht))
  have hfound : ∀ o ∈ t.operands, ∀ type, frame.func.operandType? o = some type →
      ∃ c, frame.find? id o = some c ∧ c.type = type := by
    intro o ho type htype
    apply h.find? htype
    rintro v rfl
    apply hknown v
    rw [List.take_of_length_le (List.getElem?_eq_none_iff.mp hi.pc)]
    exact hs.flows.exits b' hb t ht v ho
  cases t with
  | br target => exact hjump .br
  | condBr condition whenTrue whenFalse =>
    obtain ⟨c, hc, htype⟩ := hfound condition List.mem_cons_self _ htyped
    cases c with
    | i1 taken =>
      cases taken with
      | true => exact hjump (.whenTrue hc)
      | false => exact hjump (.whenFalse hc)
    | i32 value => cases htype
    | f64 value => cases htype
  | ret value =>
    cases value with
    | none => exact absurd ht (hg b' hb)
    | some o =>
      obtain ⟨c, hc, htype⟩ := hfound o List.mem_cons_self _ htyped
      rw [action_ends hi ht (.value hc)]
      exact .returns htype

theorem proceeds (h : frame.Fits w) (hs : frame.func.Sound w) (hg : frame.func.Gives) :
    frame.Proceeds w frame.action := by
  obtain ⟨b, _, _, hstands, _⟩ := h.stands hs.shaped
  cases hi : b.instructions[frame.pc]? with
  | none => exact h.leave hs hg (hi ▸ hstands)
  | some i =>
    rw [hi] at hstands
    cases hop : i.op with
    | compute c => exact h.compute hs hstands hop
    | call callee operands returns => exact h.call hs hstands hop
    | phi type incoming => exact h.phi hs hstands hop

end Fits

end Frame

end FormCompiler
