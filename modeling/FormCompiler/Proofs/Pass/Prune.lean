import FormCompiler.Pass.Basic
import FormCompiler.Proofs.Code.Verified

namespace FormCompiler

def Block.pruned (keep : Instruction → Bool) (σ : Operand → Operand) (b : Block) : Block :=
  { b with
    instructions := (b.instructions.filter keep).map (·.mapOperands σ)
    terminator := b.terminator.map (·.mapOperands σ) }

namespace Func

def pruned (f : Func) (keep : Instruction → Bool) (σ : Operand → Operand) : Func :=
  f.mapBlocks (·.pruned keep σ)

theorem mapOperands_filterInstructions (f : Func) (keep : Instruction → Bool)
    (σ : Operand → Operand) : (f.filterInstructions keep).mapOperands σ = f.pruned keep σ := by
  simp only [filterInstructions, mapOperands, mapBlocks, pruned, List.map_map]
  rfl

inductive Vanishes (f : Func) (keep : Instruction → Bool) (i : Instruction) : Operand → Prop
  | unused : .value i.dst ∉ f.uses → Vanishes f keep i (.value i.dst)
  | const {c : Const} : c.type = i.type → Vanishes f keep i (.const c)
  | phi {type : NativeType} {incoming : List (Operand × Nat)} {o : Operand} :
      i.op = .phi type incoming → incoming ≠ [] → (∀ e ∈ incoming, e.1 = o) →
      (∀ j ∈ f.instructions, o = .value j.dst → keep j = true) → Vanishes f keep i o

structure Prunes (f : Func) (keep : Instruction → Bool) (σ : Operand → Operand) : Prop where
  const : ∀ c, σ (.const c) = .const c
  param : ∀ n, σ (.param n) = .param n
  kept : ∀ i ∈ f.instructions, keep i = true → σ (.value i.dst) = .value i.dst
  calls : ∀ i ∈ f.instructions, keep i = false → i.op.isCall = false
  removed : ∀ i ∈ f.instructions, keep i = false → f.Vanishes keep i (σ (.value i.dst))

def prunedFlow (f : Func) (keep : Instruction → Bool) (σ : Operand → Operand) (w : Flow) :
    Flow where
  avail id x := (∃ i ∈ f.instructions, keep i = true ∧ i.dst = x) ∧ ∃ v, σ (.value v) = .value x ∧
    (w.avail id v ∨ ∃ b ∈ f.blocks, b.id = id ∧ ∃ i ∈ b.instructions, keep i = false ∧
      i.dst = v ∧ i.op.isPhi = true)
  rank := w.rank

theorem mem_uses_instruction {f : Func} {b : Block} (hb : b ∈ f.blocks) {i : Instruction}
    (hi : i ∈ b.instructions) {o : Operand} (ho : o ∈ i.operands) : o ∈ f.uses := by
  refine List.mem_flatMap.mpr ⟨b, hb, ?_⟩
  exact List.mem_append_left _ (List.mem_flatMap.mpr ⟨i, hi, ho⟩)

theorem mem_uses_terminator {f : Func} {b : Block} (hb : b ∈ f.blocks) {t : Terminator}
    (ht : b.terminator = some t) {o : Operand} (ho : o ∈ t.operands) : o ∈ f.uses := by
  refine List.mem_flatMap.mpr ⟨b, hb, ?_⟩
  refine List.mem_append_right _ ?_
  rw [ht]
  exact ho

end Func

section Operands

variable {σ : Operand → Operand}

@[simp] theorem Instruction.mapOperands_dst (i : Instruction) : (i.mapOperands σ).dst = i.dst := rfl

theorem Instruction.mapOperands_call {i : Instruction} {callee : String} {operands : List Operand}
    {returns : NativeType} (hop : i.op = .call callee operands returns) (σ : Operand → Operand) :
    (i.mapOperands σ).op = .call callee (operands.map σ) returns := by
  rw [mapOperands, hop]
  rfl

@[simp] theorem Operation.mapOperands_isPhi (op : Operation) :
    (op.mapOperands σ).isPhi = op.isPhi := by
  cases op <;> rfl

@[simp] theorem Operation.mapOperands_isCall (op : Operation) :
    (op.mapOperands σ).isCall = op.isCall := by
  cases op <;> rfl

@[simp] theorem Computation.operands_mapOperands (c : Computation) :
    (c.mapOperands σ).operands = c.operands.map σ := by
  cases c <;> rfl

@[simp] theorem Operation.operands_mapOperands (op : Operation) :
    (op.mapOperands σ).operands = op.operands.map σ := by
  cases op with
  | compute c => exact Computation.operands_mapOperands c
  | call callee args returns => rfl
  | phi type incoming => simp [Operation.operands, Operation.mapOperands, Function.comp_def]

@[simp] theorem Terminator.operands_mapOperands (t : Terminator) :
    (t.mapOperands σ).operands = t.operands.map σ := by
  cases t with
  | ret value => cases value <;> rfl
  | br target => rfl
  | condBr condition whenTrue whenFalse => rfl

@[simp] theorem Terminator.successors_mapOperands (t : Terminator) :
    (t.mapOperands σ).successors = t.successors := by
  cases t <;> rfl

@[simp] theorem Operation.type_mapOperands (op : Operation) :
    (op.mapOperands σ).type = op.type := by
  cases op with
  | compute c => cases c <;> rfl
  | call callee args returns => rfl
  | phi type incoming => rfl

theorem Computation.Typed.mapOperands {Γ : Typing} {c : Computation} (h : c.Typed Γ)
    (hσ : ∀ o ∈ c.operands, Γ (σ o) = Γ o) : (c.mapOperands σ).Typed Γ := by
  have htwo : ∀ {l r : Operand} {s t : NativeType}, c.operands = [l, r] →
      Γ l = some s ∧ Γ r = some t → Γ (σ l) = some s ∧ Γ (σ r) = some t := by
    intro l r s t hc h
    rw [hσ l (by simp [hc]), hσ r (by simp [hc])]
    exact h
  cases c with
  | int op l r => exact htwo rfl h
  | float op l r => exact htwo rfl h
  | fcmp test l r => exact htwo rfl h
  | icmp test l r =>
    obtain ⟨type, hint, h⟩ := h
    exact ⟨type, hint, htwo rfl h⟩
  | cast op value target =>
    obtain ⟨source, hs, htakes⟩ := h
    exact ⟨source, (hσ value List.mem_cons_self).trans hs, htakes⟩

theorem Operation.Typed.mapOperands {Γ : Typing} {op : Operation} (h : op.Typed Γ)
    (hσ : ∀ o ∈ op.operands, Γ (σ o) = Γ o) : (op.mapOperands σ).Typed Γ := by
  cases op with
  | compute c => exact Computation.Typed.mapOperands h hσ
  | call callee args returns =>
    intro a ha
    obtain ⟨o, ho, rfl⟩ := List.mem_map.mp ha
    rw [hσ o ho]
    exact h o ho
  | phi type incoming =>
    intro e he
    obtain ⟨e', he', rfl⟩ := List.mem_map.mp he
    rw [hσ e'.1 (List.mem_map_of_mem he')]
    exact h e' he'

theorem Terminator.Typed.mapOperands {Γ : Typing} {returns : NativeType} {t : Terminator}
    (h : t.Typed Γ returns) (hσ : ∀ o ∈ t.operands, Γ (σ o) = Γ o) :
    (t.mapOperands σ).Typed Γ returns := by
  cases t with
  | ret value =>
    cases value with
    | none => exact h
    | some o => exact (hσ o List.mem_cons_self).trans h
  | br target => exact h
  | condBr condition whenTrue whenFalse => exact (hσ condition List.mem_cons_self).trans h

variable {τ : Operand → Operand}

@[simp] theorem Operation.mapOperands_mapOperands (op : Operation) :
    (op.mapOperands σ).mapOperands τ = op.mapOperands (τ ∘ σ) := by
  cases op with
  | compute c => cases c <;> rfl
  | call callee args returns => simp [Operation.mapOperands]
  | phi type incoming => simp [Operation.mapOperands]

@[simp] theorem Operation.mapOperands_id (op : Operation) : op.mapOperands id = op := by
  cases op with
  | compute c => cases c <;> rfl
  | call callee args returns => simp [Operation.mapOperands]
  | phi type incoming => simp [Operation.mapOperands]

@[simp] theorem Terminator.mapOperands_mapOperands (t : Terminator) :
    (t.mapOperands σ).mapOperands τ = t.mapOperands (τ ∘ σ) := by
  cases t <;> simp [Terminator.mapOperands]

@[simp] theorem Terminator.mapOperands_id (t : Terminator) : t.mapOperands id = t := by
  cases t <;> simp [Terminator.mapOperands]

@[simp] theorem Instruction.mapOperands_id (i : Instruction) : i.mapOperands id = i := by
  simp [Instruction.mapOperands]

theorem Func.mapOperands_mapOperands (f : Func) :
    (f.mapOperands σ).mapOperands τ = f.mapOperands (τ ∘ σ) := by
  simp [Func.mapOperands, mapBlocks, Block.mapOperands, Instruction.mapOperands, Function.comp_def]

theorem Func.mapOperands_id (f : Func) : f.mapOperands id = f := by
  simp [Func.mapOperands, mapBlocks, Block.mapOperands]

end Operands

namespace Func

section Blocks

variable {f : Func} {keep : Instruction → Bool} {σ : Operand → Operand} {b : Block}

@[simp] theorem successors_pruned (b : Block) : (b.pruned keep σ).successors = b.successors := by
  unfold Block.successors Block.pruned
  cases b.terminator <;> simp

theorem terminator_pruned {t : Terminator} (ht : b.terminator = some t) :
    (b.pruned keep σ).terminator = some (t.mapOperands σ) := by
  rw [Block.pruned, ht]
  rfl

theorem mem_pruned {i : Instruction} :
    i ∈ (b.pruned keep σ).instructions ↔
      ∃ j ∈ b.instructions, keep j = true ∧ j.mapOperands σ = i := by
  simp [Block.pruned, and_assoc]

theorem mem_dsts_pruned {v : Nat} :
    v ∈ (b.pruned keep σ).dsts ↔ ∃ i ∈ b.instructions, keep i = true ∧ i.dst = v := by
  simp [Block.pruned, Block.dsts, and_assoc]

theorem dsts_pruned_sublist : (b.pruned keep σ).dsts.Sublist b.dsts := by
  have he : (b.pruned keep σ).dsts = (b.instructions.filter keep).map Instruction.dst := by
    simp [Block.pruned, Block.dsts, Function.comp_def]
  rw [he]
  exact List.filter_sublist.map _

theorem mem_blocks_pruned {c : Block} :
    c ∈ (f.pruned keep σ).blocks ↔ ∃ b ∈ f.blocks, b.pruned keep σ = c := List.mem_map

theorem computes_pruned {v : Nat} :
    (f.pruned keep σ).Computes v ↔ ∃ i ∈ f.instructions, keep i = true ∧ i.dst = v := by
  constructor
  · rintro ⟨c, hc, hv⟩
    obtain ⟨b, hb, rfl⟩ := mem_blocks_pruned.mp hc
    obtain ⟨i, hi, hv⟩ := mem_dsts_pruned.mp hv
    exact ⟨i, mem_instructions.mpr ⟨b, hb, hi⟩, hv⟩
  · rintro ⟨i, hi, hv⟩
    obtain ⟨b, hb, hi⟩ := mem_instructions.mp hi
    exact ⟨_, mem_blocks_pruned.mpr ⟨b, hb, rfl⟩, mem_dsts_pruned.mpr ⟨i, hi, hv⟩⟩

@[simp] theorem edgesInto_pruned (id : Nat) :
    (f.pruned keep σ).edgesInto id = f.edgesInto id := by
  simp only [edgesInto, pruned, mapBlocks, List.flatMap_map, successors_pruned]
  rfl

theorem operandType?_pruned : (f.pruned keep σ).operandType? = f.operandType? := by
  funext o
  cases o <;> rfl

theorem Regular.pruned (h : f.Regular) (keep : Instruction → Bool) (σ : Operand → Operand) :
    (f.pruned keep σ).Regular where
  ids := List.Pairwise.map _ (fun _ _ hlt => hlt) h.ids
  entry := by
    have hentry := h.entry
    unfold Func.entry? at hentry ⊢
    rw [Func.pruned, mapBlocks, List.head?_map, Option.map_map]
    exact hentry
  ended := by
    intro c hc
    obtain ⟨b, hb, rfl⟩ := mem_blocks_pruned.mp hc
    simpa [Block.pruned] using h.ended b hb
  targets := by
    intro c hc s hs
    obtain ⟨b, hb, rfl⟩ := mem_blocks_pruned.mp hc
    rw [successors_pruned] at hs
    obtain ⟨d, hd, rfl⟩ := h.targets b hb s hs
    exact ⟨_, mem_blocks_pruned.mpr ⟨d, hd, rfl⟩, rfl⟩
  dsts := by
    intro c hc
    obtain ⟨b, hb, rfl⟩ := mem_blocks_pruned.mp hc
    exact (h.dsts b hb).sublist dsts_pruned_sublist
  disjoint := by
    intro c hc d hd v hv hv'
    obtain ⟨b, hb, rfl⟩ := mem_blocks_pruned.mp hc
    obtain ⟨b', hb', rfl⟩ := mem_blocks_pruned.mp hd
    exact h.disjoint b hb b' hb' v (dsts_pruned_sublist.subset hv) (dsts_pruned_sublist.subset hv')

theorem Shaped.pruned (h : f.Shaped) (keep : Instruction → Bool) (σ : Operand → Operand) :
    (f.pruned keep σ).Shaped where
  toRegular := h.toRegular.pruned keep σ
  branches := by
    intro c hc
    obtain ⟨b, hb, rfl⟩ := mem_blocks_pruned.mp hc
    rw [successors_pruned]
    exact h.branches b hb

theorem Edged.pruned (h : f.Edged) (keep : Instruction → Bool) (σ : Operand → Operand) :
    (f.pruned keep σ).Edged := by
  intro c hc i hi type incoming hop
  obtain ⟨b, hb, rfl⟩ := mem_blocks_pruned.mp hc
  obtain ⟨⟨dst, op⟩, hj, _, rfl⟩ := mem_pruned.mp hi
  cases op with
  | phi type' incoming' =>
    cases hop
    rw [edgesInto_pruned, List.map_map]
    exact h b hb _ hj _ incoming' rfl
  | compute computation => cases hop
  | call callee args returns => cases hop

theorem Typed.pruned (h : f.Typed) (keep : Instruction → Bool) {σ : Operand → Operand}
    (hσ : ∀ o ∈ f.uses, f.operandType? (σ o) = f.operandType? o) :
    (f.pruned keep σ).Typed where
  types := by
    intro c hc i hi
    obtain ⟨b, hb, rfl⟩ := mem_blocks_pruned.mp hc
    obtain ⟨j, hj, _, rfl⟩ := mem_pruned.mp hi
    rw [Instruction.type, Instruction.mapOperands, Operation.type_mapOperands]
    exact h.types b hb j hj
  operations := by
    intro c hc i hi
    obtain ⟨b, hb, rfl⟩ := mem_blocks_pruned.mp hc
    obtain ⟨j, hj, _, rfl⟩ := mem_pruned.mp hi
    rw [operandType?_pruned]
    exact (h.operations b hb j hj).mapOperands fun o ho => hσ o (mem_uses_instruction hb hj ho)
  terminators := by
    intro c hc t ht
    obtain ⟨b, hb, rfl⟩ := mem_blocks_pruned.mp hc
    obtain ⟨t', ht', rfl⟩ := Option.map_eq_some_iff.mp ht
    rw [operandType?_pruned]
    exact (h.terminators b hb t' ht').mapOperands fun o ho => hσ o (mem_uses_terminator hb ht' ho)

end Blocks

theorem Sound.defines_uses {f : Func} {w : Flow} (h : f.Sound w) {o : Operand} (ho : o ∈ f.uses) :
    f.Defines o := by
  obtain ⟨b, hb, ho⟩ := List.mem_flatMap.mp ho
  exact h.defines_operand hb ho

end Func

def Instruction.TakesOnly (i : Instruction) (o : Operand) : Prop :=
  ∃ type incoming, i.op = .phi type incoming ∧ incoming ≠ [] ∧ ∀ e ∈ incoming, e.1 = o

namespace Instruction.TakesOnly

variable {i : Instruction} {o : Operand}

theorem isPhi (h : i.TakesOnly o) : i.op.isPhi = true := by
  obtain ⟨type, incoming, hop, _⟩ := h
  rw [hop]
  rfl

theorem mem_operands (h : i.TakesOnly o) : o ∈ i.operands := by
  obtain ⟨type, incoming, hop, hne, hall⟩ := h
  obtain ⟨e, he⟩ := List.exists_mem_of_ne_nil _ hne
  rw [Instruction.operands, hop, Operation.operands, ← hall e he]
  exact List.mem_map_of_mem he

end Instruction.TakesOnly

namespace Func

section TakesOnly

variable {f : Func} {w : Flow} {b d : Block} {i : Instruction}

theorem Typed.takesOnly (h : f.Typed) (hb : b ∈ f.blocks) (hi : i ∈ b.instructions) {o : Operand}
    (ho : i.TakesOnly o) : f.operandType? o = some i.type := by
  obtain ⟨type, incoming, hop, hne, hall⟩ := ho
  obtain ⟨e, he⟩ := List.exists_mem_of_ne_nil _ hne
  have htyped := h.operations b hb i hi
  rw [hop] at htyped
  rw [← hall e he, htyped e he, Instruction.type, hop]
  rfl

theorem Phis.leaves_takesOnly (h : f.Phis w) (hd : d ∈ f.blocks) (hi : i ∈ d.instructions)
    {x : Nat} (ho : i.TakesOnly (.value x)) (hb : b ∈ f.blocks) (hs : d.id ∈ b.successors) :
    b.Leaves w x := by
  obtain ⟨type, incoming, hop, _, hall⟩ := ho
  have hmem : b.id ∈ f.edgesInto d.id := mem_edgesInto.mpr ⟨b, hb, hs, rfl⟩
  obtain ⟨e, he, hid⟩ := List.mem_map.mp ((h.edges d hd i hi _ _ hop).mem_iff.mpr hmem)
  refine h.avail d hd i hi _ _ hop x e.2 ?_ b hb hid.symm
  rw [← hall e he]
  exact he

end TakesOnly

namespace Prunes

variable {f : Func} {w : Flow} {keep : Instruction → Bool} {σ : Operand → Operand} {b : Block}
  {v x : Nat}

theorem keep_call (hp : f.Prunes keep σ) {i : Instruction} (hi : i ∈ f.instructions)
    {callee : String} {operands : List Operand} {returns : NativeType}
    (hop : i.op = .call callee operands returns) : keep i = true := by
  cases hk : keep i with
  | true => rfl
  | false =>
    have hcall := hp.calls i hi hk
    rw [hop] at hcall
    cases hcall

theorem takesOnly (hp : f.Prunes keep σ) {i : Instruction} (hi : i ∈ f.instructions)
    (hk : keep i = false) (hσ : σ (.value i.dst) = .value x)
    (hne : .value i.dst ∈ f.uses ∨ x ≠ i.dst) :
    i.TakesOnly (.value x) ∧ ∀ j ∈ f.instructions, j.dst = x → keep j = true := by
  have hvanishes := hp.removed i hi hk
  rw [hσ] at hvanishes
  generalize ho : Operand.value x = o at hvanishes
  cases hvanishes with
  | unused hunused =>
    injection ho with ho
    rcases hne with hu | hne
    · exact absurd hu hunused
    · exact absurd ho hne
  | const => cases ho
  | phi hop hnil hall hkept =>
    subst ho
    refine ⟨⟨_, _, hop, hnil, hall⟩, ?_⟩
    rintro j hj rfl
    exact hkept j hj rfl

theorem ne_of_kept (h : f.Sound w) {i : Instruction} (hi : i ∈ f.instructions)
    (hk : keep i = false) (hx : ∃ j ∈ f.instructions, keep j = true ∧ j.dst = x) : x ≠ i.dst := by
  rintro rfl
  obtain ⟨j, hj, hkj, hdst⟩ := hx
  obtain ⟨b, hb, hi⟩ := mem_instructions.mp hi
  obtain ⟨c, hc, hj⟩ := mem_instructions.mp hj
  obtain ⟨_, rfl⟩ := h.shaped.eq_of_dst hc hb hj hi hdst
  rw [hk] at hkj
  cases hkj

theorem target_kept (hp : f.Prunes keep σ) (h : f.Sound w) {v x : Nat}
    (hused : .value v ∈ f.uses) (hcomputes : f.Computes v) (hσ : σ (.value v) = .value x) :
    ∃ i ∈ f.instructions, keep i = true ∧ i.dst = x := by
  obtain ⟨b, hb, hv⟩ := hcomputes
  obtain ⟨i, hi, rfl⟩ := List.mem_map.mp hv
  have hmem := mem_instructions.mpr ⟨b, hb, hi⟩
  cases hk : keep i with
  | true =>
    have he := hp.kept i hmem hk
    rw [hσ] at he
    cases he
    exact ⟨i, hmem, hk, rfl⟩
  | false =>
    obtain ⟨honly, hkept⟩ := hp.takesOnly hmem hk hσ (.inl hused)
    obtain ⟨c, hc, hx⟩ := h.defines hb hi honly.mem_operands x rfl
    obtain ⟨j, hj, rfl⟩ := List.mem_map.mp hx
    have hj := mem_instructions.mpr ⟨c, hc, hj⟩
    exact ⟨j, hj, hkept j hj rfl, rfl⟩

theorem leaves (hp : f.Prunes keep σ) (h : f.Sound w) (hb : b ∈ f.blocks) {v x : Nat}
    (hv : b.Leaves w v) (hσ : σ (.value v) = .value x)
    (hx : ∃ i ∈ f.instructions, keep i = true ∧ i.dst = x) :
    (b.pruned keep σ).Leaves (f.prunedFlow keep σ w) x := by
  rcases hv with hv | hv
  · exact .inl ⟨hx, v, hσ, .inl hv⟩
  · obtain ⟨i, hi, rfl⟩ := List.mem_map.mp hv
    have hmem := mem_instructions.mpr ⟨b, hb, hi⟩
    cases hk : keep i with
    | true =>
      have he := hp.kept i hmem hk
      rw [hσ] at he
      cases he
      exact .inr (mem_dsts_pruned.mpr ⟨i, hi, hk, rfl⟩)
    | false =>
      have honly := (hp.takesOnly hmem hk hσ (.inr (ne_of_kept h hmem hk hx))).1
      exact .inl ⟨hx, i.dst, hσ, .inr ⟨b, hb, rfl, i, hi, hk, rfl, honly.isPhi⟩⟩

/-- What replaces a value that a block leaves and that is used is left by the pruned block. -/
theorem leaves_of_use (hp : f.Prunes keep σ) (h : f.Sound w) (hb : b ∈ f.blocks)
    (hu : .value v ∈ f.uses) (hσ : σ (.value v) = .value x) (hv : b.Leaves w v) :
    (b.pruned keep σ).Leaves (f.prunedFlow keep σ w) x :=
  hp.leaves h hb hv hσ (hp.target_kept h hu (h.defines_uses hu v rfl) hσ)

theorem value_of_eq_value (hp : f.Prunes keep σ) {o : Operand} {x : Nat} (h : σ o = .value x) :
    ∃ v, o = .value v := by
  cases o with
  | const c =>
    rw [hp.const] at h
    cases h
  | param index =>
    rw [hp.param] at h
    cases h
  | value v => exact ⟨v, rfl⟩

theorem operandType? (hp : f.Prunes keep σ) (h : f.Sound w) {o : Operand} (hused : o ∈ f.uses) :
    f.operandType? (σ o) = f.operandType? o := by
  cases o with
  | const c => rw [hp.const]
  | param index => rw [hp.param]
  | value v =>
    obtain ⟨b, hb, hv⟩ := h.defines_uses hused v rfl
    obtain ⟨i, hi, rfl⟩ := List.mem_map.mp hv
    have hmem := mem_instructions.mpr ⟨b, hb, hi⟩
    have htype : f.operandType? (.value i.dst) = some i.type := h.typed.types b hb i hi
    cases hk : keep i with
    | true => rw [hp.kept i hmem hk]
    | false =>
      have hvanishes := hp.removed i hmem hk
      generalize σ (.value i.dst) = o at hvanishes ⊢
      cases hvanishes with
      | unused => rfl
      | const hc =>
        rw [htype, ← hc]
        rfl
      | phi hop hne hall _ =>
        rw [htype, h.typed.takesOnly hb hi ⟨_, _, hop, hne, hall⟩]

theorem scope (hp : f.Prunes keep σ) {known known' : Nat → Prop} {is : List Instruction}
    (h : Scoped known is) (hmem : ∀ i ∈ is, i ∈ f.instructions)
    (huses : ∀ i ∈ is, ∀ o ∈ i.operands, o ∈ f.uses)
    (hknown : ∀ v x, known v → .value v ∈ f.uses → σ (.value v) = .value x → known' x)
    (hremoved : ∀ i ∈ is, keep i = false → ∀ x, .value i.dst ∈ f.uses →
      σ (.value i.dst) = .value x → known' x) :
    Scoped known' ((is.filter keep).map (·.mapOperands σ)) := by
  induction is generalizing known known' with
  | nil => trivial
  | cons i is ih =>
    have hrest : ∀ known'' : Nat → Prop, (∀ x, known' x → known'' x) →
        (∀ x, .value i.dst ∈ f.uses → σ (.value i.dst) = .value x → known'' x) →
        Scoped known'' ((is.filter keep).map (·.mapOperands σ)) := by
      intro known'' hle hdst
      refine ih h.2 (fun j hj => hmem j (List.mem_cons_of_mem _ hj))
        (fun j hj => huses j (List.mem_cons_of_mem _ hj)) ?_
        (fun j hj hk x hu hx => hle x (hremoved j (List.mem_cons_of_mem _ hj) hk x hu hx))
      rintro v x (hv | rfl) hu hx
      · exact hle x (hknown v x hv hu hx)
      · exact hdst x hu hx
    cases hk : keep i with
    | false =>
      rw [List.filter_cons_of_neg (by simp [hk])]
      exact hrest known' (fun _ hx => hx)
        fun x hu hx => hremoved i List.mem_cons_self hk x hu hx
    | true =>
      rw [List.filter_cons_of_pos hk, List.map_cons]
      refine ⟨?_, hrest _ (fun x hx => .inl hx) ?_⟩
      · rintro x ⟨hphi, hx⟩
        rw [Instruction.operands, Instruction.mapOperands, Operation.operands_mapOperands] at hx
        obtain ⟨o, ho, hσ⟩ := List.mem_map.mp hx
        obtain ⟨v, rfl⟩ := hp.value_of_eq_value hσ
        refine hknown v x (h.1 v ⟨?_, ho⟩) (huses i List.mem_cons_self _ ho) hσ
        simpa [Instruction.mapOperands] using hphi
      · intro x _ hx
        rw [hp.kept i (hmem i List.mem_cons_self) hk] at hx
        cases hx
        exact .inr rfl

theorem scope_pruned (hp : f.Prunes keep σ) (h : f.Sound w) (hb : b ∈ f.blocks) :
    Scoped ((f.prunedFlow keep σ w).avail b.id) (b.pruned keep σ).instructions := by
  refine hp.scope (h.flows.scope b hb) (fun i hi => mem_instructions.mpr ⟨b, hb, hi⟩)
    (fun i hi o ho => mem_uses_instruction hb hi ho) ?_ ?_
  · intro v x hv hu hσ
    exact ⟨hp.target_kept h hu (h.flows.defined b hb v hv) hσ, v, hσ, .inl hv⟩
  · intro i hi hk x hu hσ
    have hx := hp.target_kept h hu ⟨b, hb, List.mem_map_of_mem hi⟩ hσ
    have honly := (hp.takesOnly (mem_instructions.mpr ⟨b, hb, hi⟩) hk hσ (.inl hu)).1
    exact ⟨hx, i.dst, hσ, .inr ⟨b, hb, rfl, i, hi, hk, rfl, honly.isPhi⟩⟩

theorem leaves_of_avail (hp : f.Prunes keep σ) (h : f.Sound w) (hb : b ∈ f.blocks) {s : Nat}
    (hs : s ∈ b.successors) (hx : (f.prunedFlow keep σ w).avail s x) :
    (b.pruned keep σ).Leaves (f.prunedFlow keep σ w) x := by
  obtain ⟨hkept, v, hσ, hv⟩ := hx
  rcases hv with hv | ⟨d, hd, rfl, i, hi, hk, rfl, _⟩
  · exact hp.leaves h hb (h.flows.edges b hb s hs v hv) hσ hkept
  · -- the phi took the same value on every edge, so also on that from `b`
    have hmem := mem_instructions.mpr ⟨d, hd, hi⟩
    have honly := (hp.takesOnly hmem hk hσ (.inr (ne_of_kept h hmem hk hkept))).1
    have hleft := h.phis.leaves_takesOnly hd hi honly hb hs
    obtain ⟨j, hj, hkj, rfl⟩ := hkept
    exact hp.leaves h hb hleft (hp.kept j hj hkj) ⟨j, hj, hkj, rfl⟩

theorem flows (hp : f.Prunes keep σ) (h : f.Sound w) :
    (f.pruned keep σ).Flows (f.prunedFlow keep σ w) where
  entry := by
    rintro x ⟨_, v, _, hv | ⟨b, hb, hid, i, hi, _, _, hphi⟩⟩
    · exact h.flows.entry v hv
    · have hno := h.phis.entry b hb hid i hi
      rw [hphi] at hno
      cases hno
  defined := by
    rintro c hc x ⟨⟨i, hi, hk, rfl⟩, _⟩
    obtain ⟨b, hb, hi⟩ := mem_instructions.mp hi
    exact ⟨_, mem_blocks_pruned.mpr ⟨b, hb, rfl⟩, mem_dsts_pruned.mpr ⟨i, hi, hk, rfl⟩⟩
  scope := by
    intro c hc
    obtain ⟨b, hb, rfl⟩ := mem_blocks_pruned.mp hc
    exact hp.scope_pruned h hb
  exits := by
    intro c hc t ht x hx
    obtain ⟨b, hb, rfl⟩ := mem_blocks_pruned.mp hc
    obtain ⟨t', ht', rfl⟩ := Option.map_eq_some_iff.mp ht
    rw [Terminator.operands_mapOperands] at hx
    obtain ⟨o, ho, hσ⟩ := List.mem_map.mp hx
    obtain ⟨v, rfl⟩ := hp.value_of_eq_value hσ
    exact hp.leaves_of_use h hb (mem_uses_terminator hb ht' ho) hσ (h.flows.exits b hb t' ht' v ho)
  edges := by
    intro c hc s hs x hx
    obtain ⟨b, hb, rfl⟩ := mem_blocks_pruned.mp hc
    rw [successors_pruned] at hs
    exact hp.leaves_of_avail h hb hs hx
  rank := by
    intro c hc s hs
    obtain ⟨b, hb, rfl⟩ := mem_blocks_pruned.mp hc
    rw [successors_pruned] at hs
    exact h.flows.rank b hb s hs

theorem order (hp : f.Prunes keep σ) (h : f.Sound w) {c : Block} {i j : Instruction}
    (hb : b ∈ f.blocks) (hi : i ∈ b.instructions) (hphi : i.op.isPhi = true)
    (ho : .value v ∈ i.operands) (hσ : σ (.value v) = .value x) (hc : c ∈ f.blocks)
    (hj : j ∈ c.instructions) (hphi' : j.op.isPhi = true) (hx : j.dst = x) : b.id < c.id := by
  have hu := mem_uses_instruction hb hi ho
  obtain ⟨d, hd, hv⟩ := h.defines_uses hu v rfl
  obtain ⟨k, hk, rfl⟩ := List.mem_map.mp hv
  have hmem := mem_instructions.mpr ⟨d, hd, hk⟩
  cases hkeep : keep k with
  | true =>
    rw [hp.kept k hmem hkeep] at hσ
    cases hσ
    exact h.phis.order b hb i hi hphi _ ho c hc j hj hphi' hx
  | false =>
    -- the operand was a phi itself, which takes `x`
    have honly := (hp.takesOnly hmem hkeep hσ (.inl hu)).1
    have hlt := h.phis.order b hb i hi hphi _ ho d hd k hk honly.isPhi rfl
    have hlt' := h.phis.order d hd k hk honly.isPhi x honly.mem_operands c hc j hj hphi' hx
    exact Nat.lt_trans hlt hlt'

theorem phis (hp : f.Prunes keep σ) (h : f.Sound w) :
    (f.pruned keep σ).Phis (f.prunedFlow keep σ w) where
  edges := h.phis.edges.pruned keep σ
  entry := by
    intro c hc hid i hi
    obtain ⟨b, hb, rfl⟩ := mem_blocks_pruned.mp hc
    obtain ⟨j, hj, _, rfl⟩ := mem_pruned.mp hi
    rw [Instruction.mapOperands, Operation.mapOperands_isPhi]
    exact h.phis.entry b hb hid j hj
  avail := by
    intro c hc i hi type incoming hop x p hx d hd hid
    obtain ⟨b, hb, rfl⟩ := mem_blocks_pruned.mp hc
    obtain ⟨b', hb', rfl⟩ := mem_blocks_pruned.mp hd
    obtain ⟨⟨dst, op⟩, hj, _, rfl⟩ := mem_pruned.mp hi
    cases op with
    | phi type' incoming' =>
      cases hop
      obtain ⟨⟨o, p'⟩, he, heq⟩ := List.mem_map.mp hx
      obtain ⟨hσ, rfl⟩ := Prod.mk.inj heq
      obtain ⟨v, rfl⟩ := hp.value_of_eq_value hσ
      refine hp.leaves_of_use h hb' (mem_uses_instruction hb hj (List.mem_map_of_mem he)) hσ ?_
      exact h.phis.avail b hb _ hj _ incoming' rfl v p' he b' hb' hid
    | compute computation => cases hop
    | call callee args returns => cases hop
  order := by
    intro c hc i hi hphi x hx d hd j hj hphi' hdst
    obtain ⟨b, hb, rfl⟩ := mem_blocks_pruned.mp hc
    obtain ⟨b', hb', rfl⟩ := mem_blocks_pruned.mp hd
    obtain ⟨i, hi', _, rfl⟩ := mem_pruned.mp hi
    obtain ⟨j, hj', _, rfl⟩ := mem_pruned.mp hj
    rw [Instruction.mapOperands, Operation.mapOperands_isPhi] at hphi hphi'
    rw [Instruction.operands, Instruction.mapOperands, Operation.operands_mapOperands] at hx
    obtain ⟨o, ho, hσ⟩ := List.mem_map.mp hx
    obtain ⟨v, rfl⟩ := hp.value_of_eq_value hσ
    have hlt := hp.order h hb hi' hphi ho hσ hb' hj' hphi' hdst
    exact hlt

theorem sound (hp : f.Prunes keep σ) (h : f.Sound w) :
    (f.pruned keep σ).Sound (f.prunedFlow keep σ w) :=
  ⟨h.shaped.pruned keep σ, h.typed.pruned keep fun _ => hp.operandType? h, hp.flows h, hp.phis h⟩

end Prunes

end Func

end FormCompiler
