import FormCompiler.Proofs.Check
import FormCompiler.Code.Verify

/-!
What code has to be like for its runs to go well. A function is sound if its blocks are in order,
its operands have the types their places ask for, and there is a flow that shows every operand to
be computed before it is used, whatever way control has taken.
-/

namespace FormCompiler

/-- `avail b v` says that value `v` has been computed whenever block `b` is entered. Control always
goes to blocks of higher rank. -/
structure Flow where
  avail : Nat → Nat → Prop
  rank : Nat → Nat

/-- The instruction uses value `v` of its own block or of an earlier one. A phi takes its values
where control comes from. -/
def Instruction.Reads (i : Instruction) (v : Nat) : Prop :=
  i.op.isPhi = false ∧ .value v ∈ i.operands

def Scoped (known : Nat → Prop) : List Instruction → Prop
  | [] => True
  | i :: is => (∀ v, i.Reads v → known v) ∧ Scoped (fun v => known v ∨ v = i.dst) is

theorem Scoped.mono {known known' : Nat → Prop} {is : List Instruction} (h : Scoped known is)
    (hk : ∀ v, known v → known' v) : Scoped known' is := by
  induction is generalizing known known' with
  | nil => trivial
  | cons i is ih =>
    refine ⟨fun v hv => hk v (h.1 v hv), ih h.2 ?_⟩
    intro v hv
    exact hv.imp (hk v) fun he => he

theorem scoped_append {known : Nat → Prop} {is js : List Instruction} :
    Scoped known (is ++ js) ↔
      Scoped known is ∧ Scoped (fun v => known v ∨ v ∈ is.map Instruction.dst) js := by
  induction is generalizing known with
  | nil => simp [Scoped]
  | cons i is ih =>
    have he : (fun v => (known v ∨ v = i.dst) ∨ v ∈ is.map Instruction.dst) =
        fun v => known v ∨ v ∈ (i :: is).map Instruction.dst := by
      funext v
      simp [or_assoc]
    simp only [List.cons_append, Scoped, ih, he, and_assoc]

theorem Scoped.known_or_mem {known : Nat → Prop} {is : List Instruction} {i : Instruction} {v : Nat}
    (h : Scoped known is) (hi : i ∈ is) (hv : i.Reads v) :
    known v ∨ v ∈ is.map Instruction.dst := by
  obtain ⟨before, after, rfl⟩ := List.append_of_mem hi
  rcases (scoped_append.mp h).2.1 v hv with h | h
  · exact .inl h
  · exact .inr (by simp only [List.map_append, List.mem_append]; exact .inl h)

namespace Block

def dsts (b : Block) : List Nat := b.instructions.map Instruction.dst

def Leaves (b : Block) (w : Flow) (v : Nat) : Prop := w.avail b.id v ∨ v ∈ b.dsts

end Block

abbrev Typing := Operand → Option NativeType

def CastOp.Takes : CastOp → NativeType → NativeType → Prop
  | .sitofp, source, target | .uitofp, source, target => source.isInteger = true ∧ target = .f64
  | .fptosi, source, target => source.isFloat = true ∧ target = .i32
  | .zext, source, target => source = .i1 ∧ target = .i32

def Computation.Typed (Γ : Typing) : Computation → Prop
  | .int _ lhs rhs => Γ lhs = some .i32 ∧ Γ rhs = some .i32
  | .float _ lhs rhs | .fcmp _ lhs rhs => Γ lhs = some .f64 ∧ Γ rhs = some .f64
  | .icmp _ lhs rhs => ∃ type, type.isInteger = true ∧ Γ lhs = some type ∧ Γ rhs = some type
  | .cast op value target => ∃ source, Γ value = some source ∧ op.Takes source target

theorem Computation.Typed.operand {Γ : Typing} {c : Computation} (h : c.Typed Γ) {o : Operand}
    (ho : o ∈ c.operands) : ∃ type, Γ o = some type := by
  have htwo : ∀ {l r : Operand} {type : NativeType}, Γ l = some type → Γ r = some type →
      o ∈ [l, r] → ∃ type, Γ o = some type := by
    intro l r type hl hr ho
    simp only [List.mem_cons, List.not_mem_nil, or_false] at ho
    rcases ho with rfl | rfl
    · exact ⟨type, hl⟩
    · exact ⟨type, hr⟩
  cases c with
  | int op l r => exact htwo h.1 h.2 ho
  | float op l r => exact htwo h.1 h.2 ho
  | fcmp test l r => exact htwo h.1 h.2 ho
  | icmp test l r =>
    obtain ⟨type, _, hl, hr⟩ := h
    exact htwo hl hr ho
  | cast op value target =>
    obtain ⟨source, hv, _⟩ := h
    rw [List.mem_singleton.mp ho]
    exact ⟨source, hv⟩

def Operation.Typed (Γ : Typing) : Operation → Prop
  | .compute c => c.Typed Γ
  | .call _ args _ => ∀ a ∈ args, ∃ type, Γ a = some type
  | .phi type incoming => ∀ e ∈ incoming, Γ e.1 = some type

def Terminator.Typed (Γ : Typing) (returns : NativeType) : Terminator → Prop
  | .ret (some value) => Γ value = some returns
  | .ret none => returns = .void
  | .br _ => True
  | .condBr condition _ _ => Γ condition = some .i1

namespace Func

def Computes (f : Func) (v : Nat) : Prop := ∃ b ∈ f.blocks, v ∈ b.dsts

def Gives (f : Func) : Prop := ∀ b ∈ f.blocks, b.terminator ≠ some (.ret none)

/-- The blocks are numbered in order, the entry is the first, control stays within them, and values
are defined once. -/
structure Regular (f : Func) : Prop where
  ids : f.blocks.Pairwise fun b c => b.id < c.id
  entry : f.entry? = some 0
  ended : ∀ b ∈ f.blocks, b.terminator.isSome = true
  targets : ∀ b ∈ f.blocks, ∀ s ∈ b.successors, ∃ c ∈ f.blocks, c.id = s
  dsts : ∀ b ∈ f.blocks, b.dsts.Nodup
  disjoint : ∀ b ∈ f.blocks, ∀ c ∈ f.blocks, ∀ v, v ∈ b.dsts → v ∈ c.dsts → b.id = c.id

structure Shaped (f : Func) : Prop extends f.Regular where
  branches : ∀ b ∈ f.blocks, b.successors.Nodup

structure Typed (f : Func) : Prop where
  types : ∀ b ∈ f.blocks, ∀ i ∈ b.instructions, f.types[i.dst]? = some i.type
  operations : ∀ b ∈ f.blocks, ∀ i ∈ b.instructions, i.op.Typed f.operandType?
  terminators : ∀ b ∈ f.blocks, ∀ t, b.terminator = some t →
    t.Typed f.operandType? f.signature.returns

structure Flows (f : Func) (w : Flow) : Prop where
  entry : ∀ v, ¬ w.avail 0 v
  defined : ∀ b ∈ f.blocks, ∀ v, w.avail b.id v → f.Computes v
  scope : ∀ b ∈ f.blocks, Scoped (w.avail b.id) b.instructions
  exits : ∀ b ∈ f.blocks, ∀ t, b.terminator = some t → ∀ v, .value v ∈ t.operands → b.Leaves w v
  edges : ∀ b ∈ f.blocks, ∀ s ∈ b.successors, ∀ v, w.avail s v → b.Leaves w v
  rank : ∀ b ∈ f.blocks, ∀ s ∈ b.successors, w.rank b.id < w.rank s

def Edged (f : Func) : Prop :=
  ∀ b ∈ f.blocks, ∀ i ∈ b.instructions, ∀ type incoming, i.op = .phi type incoming →
    (incoming.map Prod.snd).Perm (f.edgesInto b.id)

/-- Phis know the ways into their block, which is not the entry. What they take has been computed on
that way, and a phi that takes the value of another one stands before it. -/
structure Phis (f : Func) (w : Flow) : Prop where
  edges : f.Edged
  entry : ∀ b ∈ f.blocks, b.id = 0 → ∀ i ∈ b.instructions, i.op.isPhi = false
  avail : ∀ b ∈ f.blocks, ∀ i ∈ b.instructions, ∀ type incoming, i.op = .phi type incoming →
    ∀ v p, (.value v, p) ∈ incoming → ∀ c ∈ f.blocks, c.id = p → c.Leaves w v
  order : ∀ b ∈ f.blocks, ∀ i ∈ b.instructions, i.op.isPhi = true → ∀ v, .value v ∈ i.operands →
    ∀ c ∈ f.blocks, ∀ j ∈ c.instructions, j.op.isPhi = true → j.dst = v → b.id < c.id

structure Sound (f : Func) (w : Flow) : Prop where
  shaped : f.Shaped
  typed : f.Typed
  flows : f.Flows w
  phis : f.Phis w

theorem mem_edgesInto {f : Func} {id p : Nat} :
    p ∈ f.edgesInto id ↔ ∃ b ∈ f.blocks, id ∈ b.successors ∧ b.id = p := by
  simp only [edgesInto, List.mem_flatMap, List.mem_map, List.mem_filter, beq_iff_eq]
  constructor
  · rintro ⟨b, hb, s, ⟨hs, rfl⟩, hp⟩
    exact ⟨b, hb, hs, hp⟩
  · rintro ⟨b, hb, hs, hp⟩
    exact ⟨b, hb, id, ⟨hs, rfl⟩, hp⟩

theorem mem_instructions {f : Func} {i : Instruction} :
    i ∈ f.instructions ↔ ∃ b ∈ f.blocks, i ∈ b.instructions := List.mem_flatMap

namespace Regular

variable {f : Func} {b c : Block}

theorem eq_of_id (h : f.Regular) (hb : b ∈ f.blocks) (hc : c ∈ f.blocks) (he : b.id = c.id) :
    b = c := by
  have hp := h.ids
  generalize f.blocks = bs at hb hc hp
  induction bs with
  | nil => cases hb
  | cons d bs ih =>
    obtain ⟨hd, hp⟩ := List.pairwise_cons.mp hp
    rcases List.mem_cons.mp hb with rfl | hb'
    · rcases List.mem_cons.mp hc with rfl | hc'
      · rfl
      · exact absurd (hd c hc') (by omega)
    · rcases List.mem_cons.mp hc with rfl | hc'
      · exact absurd (hd b hb') (by omega)
      · exact ih hb' hc' hp

theorem block?_eq_some (h : f.Regular) {id : Nat} :
    f.block? id = some b ↔ b ∈ f.blocks ∧ b.id = id := by
  constructor
  · intro hf
    exact ⟨List.mem_of_find?_eq_some hf, by simpa using List.find?_some hf⟩
  · rintro ⟨hb, rfl⟩
    cases hf : f.block? b.id with
    | none => exact absurd (List.find?_eq_none.mp hf b hb) (by simp)
    | some c =>
      have hc := List.mem_of_find?_eq_some hf
      have hid : c.id = b.id := by simpa using List.find?_some hf
      rw [h.eq_of_id hc hb hid]

theorem eq_of_dst (h : f.Regular) (hb : b ∈ f.blocks) (hc : c ∈ f.blocks) {i j : Instruction}
    (hi : i ∈ b.instructions) (hj : j ∈ c.instructions) (he : i.dst = j.dst) : b = c ∧ i = j := by
  have hbc : b = c := by
    refine h.eq_of_id hb hc (h.disjoint b hb c hc i.dst (List.mem_map_of_mem hi) ?_)
    rw [he]
    exact List.mem_map_of_mem hj
  subst hbc
  refine ⟨rfl, ?_⟩
  have hn := h.dsts b hb
  unfold Block.dsts at hn
  generalize b.instructions = is at hi hj hn
  induction is with
  | nil => cases hi
  | cons k is ih =>
    obtain ⟨hk, hn⟩ := List.nodup_cons.mp hn
    rcases List.mem_cons.mp hi with rfl | hi'
    · rcases List.mem_cons.mp hj with rfl | hj'
      · rfl
      · exact absurd (he ▸ List.mem_map_of_mem hj') hk
    · rcases List.mem_cons.mp hj with rfl | hj'
      · exact absurd (he ▸ List.mem_map_of_mem hi') hk
      · exact ih hi' hj' hn

theorem once (h : f.Regular) : (f.instructions.map Instruction.dst).Nodup := by
  refine List.pairwise_map.mpr (List.pairwise_flatMap.mpr
    ⟨fun b hb => List.pairwise_map.mp (h.dsts b hb), h.ids.imp_of_mem ?_⟩)
  intro b c hb hc hlt i hi j hj he
  have hid := h.disjoint b hb c hc i.dst (List.mem_map_of_mem hi) (he ▸ List.mem_map_of_mem hj)
  omega

section Filter

variable {keep : Block → Bool} {change : Block → Block}

theorem ids_filter (h : f.Regular) (hid : ∀ b, (change b).id = b.id) :
    ((f.blocks.filter keep).map change).Pairwise fun b c => b.id < c.id := by
  rw [List.pairwise_map]
  simp only [hid]
  exact h.ids.sublist List.filter_sublist

theorem entry_filter (h : f.Regular) (hid : ∀ b, (change b).id = b.id)
    (hkeep : ∀ b ∈ f.blocks, b.id = 0 → keep b = true) :
    ((f.blocks.filter keep).map change).head?.map Block.id = some 0 := by
  have hentry := h.entry
  unfold entry? at hentry
  cases hb : f.blocks with
  | nil =>
    rw [hb] at hentry
    cases hentry
  | cons b bs =>
    rw [hb] at hentry
    have hzero : b.id = 0 := Option.some.inj hentry
    rw [List.filter_cons_of_pos (hkeep b (hb ▸ List.mem_cons_self) hzero)]
    exact congrArg some ((hid b).trans hzero)

end Filter

end Regular

end Func

end FormCompiler
