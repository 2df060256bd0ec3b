import FormCompiler.Proofs.Code.Sound

namespace FormCompiler

namespace Func

variable {f : Func} {u : CodeUnit} {o : Operand} {type : NativeType} {what : String}

def Defines (f : Func) (o : Operand) : Prop := ∀ v, o = .value v → f.Computes v

theorem checkOperand_eq_ok :
    f.checkOperand o = .ok type ↔ f.operandType? o = some type ∧ f.Defines o := by
  cases o with
  | const c => simp [checkOperand, operandType?, Defines]
  | param index =>
    simp only [checkOperand, operandType?, Defines, reduceCtorEq, false_implies, implies_true,
      and_true]
    cases f.signature.paramTypes[index]? <;> simp
  | value id =>
    have hany : f.instructions.any (·.dst == id) = true ↔ f.Defines (.value id) := by
      simp only [List.any_eq_true, beq_iff_eq, instructions, List.mem_flatMap, Defines, Computes,
        Operand.value.injEq, Block.dsts, List.mem_map]
      constructor
      · rintro ⟨i, ⟨b, hb, hi⟩, he⟩ v hv
        exact ⟨b, hb, i, hi, he.trans hv⟩
      · intro h
        obtain ⟨b, hb, i, hi, he⟩ := h id rfl
        exact ⟨i, ⟨b, hb, hi⟩, he⟩
    simp only [checkOperand, operandType?]
    by_cases ha : f.instructions.any (·.dst == id) = true
    · simp only [ha, if_true, hany.mp ha, and_true]
      cases f.types[id]? <;> simp
    · have hd : ¬ f.Defines (.value id) := fun hd => ha (hany.mpr hd)
      simp [ha, hd]

theorem checkType_eq_ok :
    f.checkType o type what = .ok () ↔ f.operandType? o = some type ∧ f.Defines o := by
  unfold checkType
  rw [bind_eq_ok]
  constructor
  · rintro ⟨found, hfound, h⟩
    split at h
    next he => subst he; exact checkOperand_eq_ok.mp hfound
    next => cases h
  · intro h
    exact ⟨type, checkOperand_eq_ok.mpr h, if_pos rfl⟩

theorem checkTakes_eq_ok {op : CastOp} {source target : NativeType} :
    (let (fits, result) := (match op with
      | .sitofp | .uitofp => (source.isInteger, NativeType.f64)
      | .fptosi => (source.isFloat, .i32)
      | .zext => (source == .i1, .i32) : Bool × NativeType)
    if (fits && target == result) = true then Except.ok () else
      .error (VerifyError.Cause.operandType s!"{op.text} to {target.text}" result source)) =
      .ok () ↔ op.Takes source target := by
  cases op <;> simp [CastOp.Takes]

theorem checkCast_eq_ok {op : CastOp} {target : NativeType} :
    f.checkCast op o target = .ok () ↔
      (∃ source, f.operandType? o = some source ∧ op.Takes source target) ∧ f.Defines o := by
  unfold checkCast
  rw [bind_eq_ok]
  constructor
  · rintro ⟨source, hsource, h⟩
    obtain ⟨htype, hdefined⟩ := checkOperand_eq_ok.mp hsource
    exact ⟨⟨source, htype, checkTakes_eq_ok.mp h⟩, hdefined⟩
  · rintro ⟨⟨source, htype, h⟩, hdefined⟩
    exact ⟨source, checkOperand_eq_ok.mpr ⟨htype, hdefined⟩, checkTakes_eq_ok.mpr h⟩

theorem checkComputation_eq_ok {c : Computation} :
    f.checkComputation c = .ok () ↔ c.Typed f.operandType? ∧ ∀ o ∈ c.operands, f.Defines o := by
  have htwo : ∀ (l r : Operand) (t : NativeType) (what : String),
      (do f.checkType l t what; f.checkType r t what : Check Unit) = .ok () ↔
        (f.operandType? l = some t ∧ f.operandType? r = some t) ∧ f.Defines l ∧ f.Defines r := by
    intro l r t what
    rw [bind_eq_ok]
    constructor
    · rintro ⟨⟨⟩, hl, hr⟩
      obtain ⟨hl, hl'⟩ := checkType_eq_ok.mp hl
      obtain ⟨hr, hr'⟩ := checkType_eq_ok.mp hr
      exact ⟨⟨hl, hr⟩, hl', hr'⟩
    · rintro ⟨⟨hl, hr⟩, hl', hr'⟩
      exact ⟨(), checkType_eq_ok.mpr ⟨hl, hl'⟩, checkType_eq_ok.mpr ⟨hr, hr'⟩⟩
  cases c with
  | int op l r =>
    simpa [checkComputation, Computation.Typed, Computation.operands] using htwo l r .i32 _
  | float op l r =>
    simpa [checkComputation, Computation.Typed, Computation.operands] using htwo l r .f64 _
  | fcmp test l r =>
    simpa [checkComputation, Computation.Typed, Computation.operands] using htwo l r .f64 _
  | icmp test l r =>
    simp only [checkComputation, Computation.Typed, Computation.operands, List.forall_mem_cons,
      List.not_mem_nil, false_implies, implies_true, and_true]
    rw [bind_eq_ok]
    constructor
    · rintro ⟨t, ht, h⟩
      split at h
      next hint =>
        obtain ⟨hl, hl'⟩ := checkOperand_eq_ok.mp ht
        obtain ⟨hr, hr'⟩ := checkType_eq_ok.mp h
        exact ⟨⟨t, hint, hl, hr⟩, hl', hr'⟩
      next => cases h
    · rintro ⟨⟨t, hint, hl, hr⟩, hl', hr'⟩
      refine ⟨t, checkOperand_eq_ok.mpr ⟨hl, hl'⟩, ?_⟩
      rw [if_pos hint]
      exact checkType_eq_ok.mpr ⟨hr, hr'⟩
  | cast op value target =>
    simpa [checkComputation, Computation.Typed, Computation.operands] using checkCast_eq_ok

def CallFits (f : Func) (u : CodeUnit) (callee : String) (args : List Operand)
    (returns : NativeType) : Prop :=
  ∃ s, f.calleeSignature? u callee = some s ∧ s.returns = returns ∧
    args.map f.operandType? = s.paramTypes.map some

theorem checkArgs_eq_ok {callee : String} {args : List Operand}
    {params : List (String × NativeType)} (hlength : args.length = params.length) :
    ((args.zip params).forM fun (arg, name, type) =>
      f.checkType arg type s!"argument `{name}` of `{callee}`") = .ok () ↔
      args.map f.operandType? = (params.map Prod.snd).map some ∧ ∀ a ∈ args, f.Defines a := by
  rw [forM_eq_ok]
  simp only [checkType_eq_ok]
  induction params generalizing args with
  | nil =>
    rw [List.length_eq_zero_iff.mp hlength]
    simp
  | cons param params ih =>
    cases args with
    | nil => cases hlength
    | cons arg args =>
      rw [List.zip_cons_cons, List.forall_mem_cons, ih (Nat.succ.inj hlength)]
      simp only [List.map_cons, List.cons.injEq, List.forall_mem_cons]
      exact and_and_and_comm

theorem checkCall_eq_ok {callee : String} {args : List Operand} {returns : NativeType} :
    f.checkCall u callee args returns = .ok () ↔
      f.CallFits u callee args returns ∧ ∀ a ∈ args, f.Defines a := by
  unfold checkCall CallFits
  cases hs : f.calleeSignature? u callee with
  | none => simp
  | some s =>
    simp only [Option.some.injEq, exists_eq_left']
    by_cases hlength : s.params.length = args.length
    · simp only [hlength, ne_eq, not_true_eq_false, if_false]
      constructor
      · intro h
        obtain ⟨⟨⟩, hzip, h⟩ := bind_eq_ok.mp h
        obtain ⟨htypes, hdefined⟩ := (checkArgs_eq_ok hlength.symm).mp hzip
        by_cases hr : s.returns = returns
        · exact ⟨⟨hr, htypes⟩, hdefined⟩
        · rw [if_pos hr] at h
          cases h
      · rintro ⟨⟨hr, htypes⟩, hdefined⟩
        refine bind_eq_ok.mpr ⟨(), (checkArgs_eq_ok hlength.symm).mpr ⟨htypes, hdefined⟩, ?_⟩
        rw [if_neg (not_not_intro hr)]
        rfl
    · simp only [ne_eq, hlength, not_false_eq_true, if_true]
      constructor
      · intro h
        cases h
      · rintro ⟨⟨_, htypes⟩, _⟩
        have hl := congrArg List.length htypes
        simp only [List.length_map, Signature.paramTypes] at hl
        exact absurd hl.symm hlength

theorem checkIncoming_eq_ok {type : NativeType} {incoming : List (Operand × Nat)} :
    (incoming.forM fun (value, _) => f.checkType value type "phi") = .ok () ↔
      ∀ e ∈ incoming, f.operandType? e.1 = some type ∧ f.Defines e.1 := by
  rw [forM_eq_ok]
  simp only [checkType_eq_ok]

theorem checkInstruction_eq_ok {block : Nat} {i : Instruction} :
    f.checkInstruction u block i = .ok () ↔ i.op.Typed f.operandType? ∧
      (∀ o ∈ i.operands, f.Defines o) ∧
      (∀ callee args returns, i.op = .call callee args returns → f.CallFits u callee args returns) ∧
      ∀ type incoming, i.op = .phi type incoming →
        (incoming.map Prod.snd).Perm (f.edgesInto block) := by
  obtain ⟨dst, op⟩ := i
  cases op with
  | compute c =>
    simp [checkInstruction, checkComputation_eq_ok, Operation.Typed, Instruction.operands,
      Operation.operands]
  | call callee args returns =>
    simp only [checkInstruction, checkCall_eq_ok, Operation.Typed, Instruction.operands,
      Operation.operands, Operation.call.injEq, reduceCtorEq, false_implies, implies_true, and_true]
    constructor
    · rintro ⟨hfits, hdefined⟩
      refine ⟨?_, hdefined, ?_⟩
      · intro a ha
        obtain ⟨s, _, _, htypes⟩ := hfits
        have hmem : f.operandType? a ∈ s.paramTypes.map some := by
          rw [← htypes]
          exact List.mem_map_of_mem ha
        obtain ⟨type, _, htype⟩ := List.mem_map.mp hmem
        exact ⟨type, htype.symm⟩
      · rintro callee' args' returns' ⟨rfl, rfl, rfl⟩
        exact hfits
    · rintro ⟨_, hdefined, hfits⟩
      exact ⟨hfits callee args returns ⟨rfl, rfl, rfl⟩, hdefined⟩
  | phi type incoming =>
    simp only [checkInstruction, Operation.Typed, Instruction.operands, Operation.operands,
      reduceCtorEq, false_implies, implies_true, true_and, Operation.phi.injEq]
    rw [bind_eq_ok]
    constructor
    · rintro ⟨⟨⟩, h, hperm⟩
      have h := checkIncoming_eq_ok.mp h
      split at hperm
      next hp =>
        refine ⟨fun e he => (h e he).1, ?_, ?_⟩
        · intro o ho
          obtain ⟨e, he, rfl⟩ := List.mem_map.mp ho
          exact (h e he).2
        · rintro _ _ ⟨rfl, rfl⟩
          exact List.isPerm_iff.mp hp
      next => cases hperm
    · rintro ⟨htyped, hdefined, hperm⟩
      refine ⟨(), checkIncoming_eq_ok.mpr fun e he =>
        ⟨htyped e he, hdefined _ (List.mem_map_of_mem he)⟩, ?_⟩
      rw [if_pos (List.isPerm_iff.mpr (hperm _ _ ⟨rfl, rfl⟩))]

theorem checkTerminator_eq_ok {t : Terminator} :
    f.checkTerminator t = .ok () ↔
      t.Typed f.operandType? f.signature.returns ∧ ∀ o ∈ t.operands, f.Defines o := by
  cases t with
  | ret value =>
    cases value with
    | none =>
      simp only [checkTerminator, Terminator.Typed, Terminator.operands, Option.toList_none,
        List.not_mem_nil, false_implies, implies_true, and_true]
      split
      next h => simp [h]
      next h => simp [h]
    | some o => simp [checkTerminator, checkType_eq_ok, Terminator.Typed, Terminator.operands]
  | br target => simp [checkTerminator, Terminator.Typed, Terminator.operands]
  | condBr condition whenTrue whenFalse =>
    simp [checkTerminator, checkType_eq_ok, Terminator.Typed, Terminator.operands]

theorem checkFlow_eq_ok {b : Block} :
    f.checkFlow b = .ok () ↔
      b.terminator.isSome = true ∧ ∀ s ∈ b.successors, ∃ c ∈ f.blocks, c.id = s := by
  unfold checkFlow Block.successors
  cases b.terminator with
  | none => simp
  | some t =>
    simp only [Option.isSome_some, true_and]
    rw [forM_eq_ok]
    refine forall_congr' fun s => imp_congr_right fun _ => ?_
    split
    next h => simpa using h
    next h => simpa using h

structure Verified (f : Func) (u : CodeUnit) (b : Block) : Prop where
  ended : b.terminator.isSome = true
  targets : ∀ s ∈ b.successors, ∃ c ∈ f.blocks, c.id = s
  instructions : ∀ i ∈ b.instructions, i.op.Typed f.operandType? ∧
    (∀ o ∈ i.operands, f.Defines o) ∧
    (∀ callee args returns, i.op = .call callee args returns → f.CallFits u callee args returns) ∧
    ∀ type incoming, i.op = .phi type incoming →
      (incoming.map Prod.snd).Perm (f.edgesInto b.id)
  terminator : ∀ t, b.terminator = some t →
    t.Typed f.operandType? f.signature.returns ∧ ∀ o ∈ t.operands, f.Defines o

theorem checkBlock_eq_ok {b : Block} :
    f.checkBlock u b = .ok () ↔
      (∀ i ∈ b.instructions, f.checkInstruction u b.id i = .ok ()) ∧
      ∀ t, b.terminator = some t → f.checkTerminator t = .ok () := by
  unfold checkBlock
  rw [bind_eq_ok]
  have hterm : b.terminator.forM f.checkTerminator = .ok () ↔
      ∀ t, b.terminator = some t → f.checkTerminator t = .ok () := by
    cases b.terminator with
    | none => exact ⟨fun _ _ h => (by cases h), fun _ => rfl⟩
    | some t => exact ⟨fun h _ ht => (by cases ht; exact h), fun h => h t rfl⟩
  constructor
  · rintro ⟨⟨⟩, hi, ht⟩
    exact ⟨forM_eq_ok.mp hi, hterm.mp ht⟩
  · rintro ⟨hi, ht⟩
    exact ⟨(), forM_eq_ok.mpr hi, hterm.mpr ht⟩

theorem verify_eq_ok : f.verify u = .ok () ↔ f.blocks ≠ [] ∧ ∀ b ∈ f.blocks, f.Verified u b := by
  have hverified : ∀ b, f.checkFlow b = .ok () ∧ f.checkBlock u b = .ok () ↔ f.Verified u b := by
    intro b
    simp only [checkFlow_eq_ok, checkBlock_eq_ok, checkInstruction_eq_ok, checkTerminator_eq_ok]
    exact ⟨fun ⟨⟨h₁, h₂⟩, h₃, h₄⟩ => ⟨h₁, h₂, h₃, h₄⟩,
      fun h => ⟨⟨h.ended, h.targets⟩, h.instructions, h.terminator⟩⟩
  have hmap : ∀ check : Check Unit, check.mapError (fun cause => VerifyError.mk f.name cause) =
      .ok () ↔ check = .ok () := by
    intro check
    exact mapError_eq_ok
  simp only [verify, hmap]
  rcases hb : f.blocks with _ | ⟨b, bs⟩
  · simp only [isDeclaration, hb, ne_eq, not_true_eq_false, false_and, iff_false]
    intro h
    cases h
  · rw [← hb]
    have hd : f.isDeclaration = false := by simp [isDeclaration, hb]
    have hne : f.blocks ≠ [] := by simp [hb]
    simp only [hd, Bool.false_eq_true, if_false, ne_eq, hne, not_false_eq_true, true_and]
    constructor
    · intro h
      obtain ⟨⟨⟩, hflow, h⟩ := bind_eq_ok.mp h
      have hflow := forM_eq_ok.mp hflow
      have hblock := forM_eq_ok.mp h
      exact fun c hc => (hverified c).mp ⟨hflow c hc, hblock c hc⟩
    · intro h
      exact bind_eq_ok.mpr ⟨(), forM_eq_ok.mpr fun c hc => ((hverified c).mpr (h c hc)).1,
        forM_eq_ok.mpr fun c hc => ((hverified c).mpr (h c hc)).2⟩

theorem verify_of_calls {v : CodeUnit} (hv : f.verify u = .ok ())
    (h : ∀ callee args returns, f.CallFits u callee args returns →
      f.CallFits v callee args returns) : f.verify v = .ok () := by
  obtain ⟨hne, hblocks⟩ := verify_eq_ok.mp hv
  refine verify_eq_ok.mpr ⟨hne, fun b hb => ?_⟩
  obtain ⟨hended, htargets, hinstructions, hterminator⟩ := hblocks b hb
  refine ⟨hended, htargets, fun i hi => ?_, hterminator⟩
  obtain ⟨htyped, hdefined, hcalls, hphis⟩ := hinstructions i hi
  exact ⟨htyped, hdefined, fun callee args returns hop => h _ _ _ (hcalls _ _ _ hop), hphis⟩

theorem mem_operands {b : Block} : o ∈ b.operands ↔
    (∃ i ∈ b.instructions, o ∈ i.operands) ∨ ∃ t, b.terminator = some t ∧ o ∈ t.operands := by
  rw [Block.operands, List.mem_append, List.mem_flatMap]
  cases b.terminator <;> simp

structure Valid (f : Func) (u : CodeUnit) : Prop where
  regular : f.Regular
  typed : f.Typed
  defined : ∀ b ∈ f.blocks, ∀ o ∈ b.operands, f.Defines o
  calls : ∀ i ∈ f.instructions, ∀ callee args returns, i.op = .call callee args returns →
    f.CallFits u callee args returns
  edges : f.Edged

theorem Valid.verify (h : f.Valid u) : f.verify u = .ok () := by
  refine verify_eq_ok.mpr ⟨?_, fun b hb =>
    ⟨h.regular.ended b hb, h.regular.targets b hb, ?_, ?_⟩⟩
  · intro he
    have hentry := h.regular.entry
    simp [he, entry?] at hentry
  · intro i hi
    exact ⟨h.typed.operations b hb i hi,
      fun o ho => h.defined b hb o (mem_operands.mpr (.inl ⟨i, hi, ho⟩)),
      h.calls i (mem_instructions.mpr ⟨b, hb, hi⟩), h.edges b hb i hi⟩
  · intro t ht
    exact ⟨h.typed.terminators b hb t ht,
      fun o ho => h.defined b hb o (mem_operands.mpr (.inr ⟨t, ht, ho⟩))⟩

namespace Sound

variable {w : Flow} {b : Block}

theorem leaves_defines (h : f.Sound w) (hb : b ∈ f.blocks) {v : Nat} (hv : b.Leaves w v) :
    f.Computes v := by
  rcases hv with hv | hv
  · exact h.flows.defined b hb v hv
  · exact ⟨b, hb, hv⟩

theorem defines (h : f.Sound w) (hb : b ∈ f.blocks) {i : Instruction} (hi : i ∈ b.instructions)
    {o : Operand} (ho : o ∈ i.operands) : f.Defines o := by
  rintro v rfl
  cases hphi : i.op.isPhi with
  | false =>
    refine h.leaves_defines hb ?_
    exact (h.flows.scope b hb).known_or_mem hi ⟨hphi, ho⟩
  | true =>
    obtain ⟨dst, op⟩ := i
    cases op with
    | phi type incoming =>
      obtain ⟨⟨o, p⟩, he, ho⟩ := List.mem_map.mp ho
      simp only at ho
      subst ho
      have hp : p ∈ f.edgesInto b.id :=
        (h.phis.edges b hb _ hi type incoming rfl).mem_iff.mp (List.mem_map_of_mem he)
      obtain ⟨c, hc, _, hid⟩ := mem_edgesInto.mp hp
      exact h.leaves_defines hc (h.phis.avail b hb _ hi type incoming rfl v p he c hc hid)
    | compute c => cases hphi
    | call callee args returns => cases hphi

theorem defines_operand (h : f.Sound w) (hb : b ∈ f.blocks) (ho : o ∈ b.operands) :
    f.Defines o := by
  rcases mem_operands.mp ho with ⟨i, hi, ho⟩ | ⟨t, ht, ho⟩
  · exact h.defines hb hi ho
  · rintro v rfl
    exact h.leaves_defines hb (h.flows.exits b hb t ht v ho)

theorem verify (h : f.Sound w)
    (hcalls : ∀ i ∈ f.instructions, ∀ callee args returns, i.op = .call callee args returns →
      f.CallFits u callee args returns) :
    f.verify u = .ok () :=
  Valid.verify ⟨h.shaped.toRegular, h.typed, fun _ hb _ ho => h.defines_operand hb ho, hcalls,
    h.phis.edges⟩

end Sound

end Func

end FormCompiler
