import FormCompiler.Proofs.Machine.Travel
import FormCompiler.Proofs.Pass.Improve

namespace FormCompiler

structure Trimming where
  alive : Nat → Bool
  live : Nat → Nat → Bool
  settle : Option Terminator → Option Terminator

def Block.trimmed (x : Trimming) (b : Block) : Block :=
  { b with
    instructions := b.instructions.map (·.mapEdges (·.filter fun e => x.live e.2 b.id))
    terminator := x.settle b.terminator }

def Func.trimmed (f : Func) (x : Trimming) : Func :=
  { f with blocks := (f.blocks.filter fun b => x.alive b.id).map (·.trimmed x) }

inductive Terminator.Settles (live : Nat → Bool) : Terminator → Terminator → Prop
  | keep {t : Terminator} : (∀ s ∈ t.successors, live s = true) → Settles live t t
  | whenTrue {target other : Nat} : live target = true → live other = false →
      Settles live (.condBr (.const (.i1 true)) target other) (.br target)
  | whenFalse {target other : Nat} : live target = true → live other = false →
      Settles live (.condBr (.const (.i1 false)) other target) (.br target)
  | both {c : Const} {target : Nat} : live target = true →
      Settles live (.condBr (.const c) target target) (.br target)

structure Func.Cuts (f : Func) (x : Trimming) : Prop where
  source : ∀ b ∈ f.blocks, ∀ s, x.live b.id s = true → x.alive b.id = true
  entry : x.alive 0 = true
  closed : ∀ b ∈ f.blocks, x.alive b.id = true → ∀ s ∈ b.successors, x.live b.id s = true →
    x.alive s = true
  settles : ∀ b ∈ f.blocks, x.alive b.id = true → ∀ t, b.terminator = some t →
    ∃ t', x.settle (some t) = some t' ∧ t.Settles (x.live b.id) t'

structure Func.Trims (f : Func) (w : Flow) (x : Trimming) : Prop extends f.Cuts x where
  defined : ∀ b ∈ f.blocks, x.alive b.id = true → ∀ v, w.avail b.id v →
    ∃ c ∈ f.blocks, x.alive c.id = true ∧ v ∈ c.dsts

def Func.Forks (f : Func) (id : Nat) : Prop :=
  ∀ b ∈ f.blocks, ∀ c, b.terminator ≠ some (.condBr (.const c) id id)

theorem Func.forks_of_nodup {f : Func} (h : ∀ b ∈ f.blocks, b.successors.Nodup) (id : Nat) :
    f.Forks id := by
  intro b hb c ht
  have hnodup := h b hb
  rw [Block.successors, ht] at hnodup
  simp [Terminator.successors] at hnodup

namespace Terminator.Settles

variable {live : Nat → Bool} {t t' : Terminator}

theorem sublist (h : t.Settles live t') : t'.successors.Sublist t.successors := by
  cases h with
  | keep => exact .refl _
  | whenTrue | both => simp [Terminator.successors]
  | whenFalse => simp [Terminator.successors]

theorem mem_successors (h : t.Settles live t') {s : Nat} :
    s ∈ t'.successors ↔ s ∈ t.successors ∧ live s = true := by
  cases h with
  | keep hall => exact ⟨fun hs => ⟨hs, hall s hs⟩, And.left⟩
  | whenTrue ht ho | whenFalse ht ho =>
    simp only [Terminator.successors, List.mem_cons, List.not_mem_nil, or_false]
    constructor
    · rintro rfl
      simp [ht]
    · rintro ⟨rfl | rfl, hlive⟩
      all_goals first | rfl | cases ho.symm.trans hlive
  | both ht =>
    simp only [Terminator.successors, List.mem_cons, List.not_mem_nil, or_false, or_self]
    exact ⟨fun hs => ⟨hs, hs ▸ ht⟩, And.left⟩

theorem filter_successors (h : t.Settles live t') {id : Nat}
    (hid : ∀ c, t ≠ .condBr (.const c) id id) :
    t'.successors.filter (· == id) = (t.successors.filter live).filter (· == id) := by
  cases h with
  | keep hall => rw [List.filter_eq_self.mpr hall]
  | whenTrue ht ho => simp [Terminator.successors, ht, ho]
  | whenFalse ht ho => simp [Terminator.successors, ht, ho]
  | @both c target ht =>
    have hne : target ≠ id := by
      rintro rfl
      exact hid c rfl
    simp [Terminator.successors, ht, hne]

theorem operands (h : t.Settles live t') {o : Operand} (ho : o ∈ t'.operands) :
    o ∈ t.operands := by
  cases h with
  | keep => exact ho
  | whenTrue | whenFalse | both => cases ho

theorem typed (h : t.Settles live t') {Γ : Typing} {returns : NativeType}
    (ht : t.Typed Γ returns) : t'.Typed Γ returns := by
  cases h with
  | keep => exact ht
  | whenTrue | whenFalse | both => trivial

theorem chooses (h : t.Settles live t') {F : Frame Const} {target : Nat}
    (hc : F.Chooses t target) : F.Chooses t' target ∧ live target = true := by
  cases h with
  | keep hall => exact ⟨hc, hall target hc.mem_successors⟩
  | whenTrue hlive =>
    cases hc with
    | whenTrue => exact ⟨.br, hlive⟩
    | whenFalse ho => cases ho
  | whenFalse hlive =>
    cases hc with
    | whenTrue ho => cases ho
    | whenFalse => exact ⟨.br, hlive⟩
  | both hlive => cases hc <;> exact ⟨.br, hlive⟩

theorem ret (h : t.Settles live t') {o : Option Operand} (ht : t = .ret o) : t' = .ret o := by
  subst ht
  cases h
  rfl

end Terminator.Settles

section Edges

variable {change : List (Operand × Nat) → List (Operand × Nat)}

@[simp] theorem Instruction.mapEdges_dst (i : Instruction) : (i.mapEdges change).dst = i.dst := rfl

@[simp] theorem Operation.mapEdges_isPhi (op : Operation) :
    (op.mapEdges change).isPhi = op.isPhi := by
  cases op <;> rfl

@[simp] theorem Operation.mapEdges_isCall (op : Operation) :
    (op.mapEdges change).isCall = op.isCall := by
  cases op <;> rfl

@[simp] theorem Operation.type_mapEdges (op : Operation) :
    (op.mapEdges change).type = op.type := by
  cases op <;> rfl

theorem Operation.mapEdges_of_not_phi {op : Operation} (h : op.isPhi = false) :
    op.mapEdges change = op := by
  cases op with
  | phi => cases h
  | compute c => rfl
  | call callee args returns => rfl

theorem Instruction.reads_mapEdges {i : Instruction} {v : Nat} (h : (i.mapEdges change).Reads v) :
    i.Reads v := by
  obtain ⟨hphi, hv⟩ := h
  rw [mapEdges, Operation.mapEdges_isPhi] at hphi
  rw [operands, mapEdges, Operation.mapEdges_of_not_phi hphi] at hv
  exact ⟨hphi, hv⟩

theorem Scoped.mapEdges {known : Nat → Prop} {is : List Instruction} (h : Scoped known is) :
    Scoped known (is.map (·.mapEdges change)) := by
  induction is generalizing known with
  | nil => trivial
  | cons i is ih => exact ⟨fun v hv => h.1 v (Instruction.reads_mapEdges hv), ih h.2⟩

theorem Operation.eq_phi_of_mapEdges {op : Operation} {type : NativeType}
    {incoming : List (Operand × Nat)} (h : op.mapEdges change = .phi type incoming) :
    ∃ incoming', op = .phi type incoming' ∧ incoming = change incoming' := by
  cases op with
  | phi type' incoming' =>
    cases h
    exact ⟨incoming', rfl, rfl⟩
  | compute c => cases h
  | call callee args returns => cases h

theorem Operation.eq_call_of_mapEdges {op : Operation} {callee : String} {args : List Operand}
    {returns : NativeType} (h : op.mapEdges change = .call callee args returns) :
    op = .call callee args returns := by
  cases op with
  | call => exact h
  | compute c => cases h
  | phi type incoming => cases h

theorem Instruction.mapEdges_op {i : Instruction} {op : Operation} (hop : i.op = op)
    (hphi : op.isPhi = false) : (i.mapEdges change).op = op := by
  subst hop
  exact Operation.mapEdges_of_not_phi hphi

theorem Operation.Typed.mapEdges {Γ : Typing} {op : Operation} (h : op.Typed Γ)
    (hchange : ∀ es, ∀ e ∈ change es, ∃ e' ∈ es, e'.1 = e.1) : (op.mapEdges change).Typed Γ := by
  cases op with
  | compute c => exact h
  | call callee args returns => exact h
  | phi type incoming =>
    intro e he
    obtain ⟨e', he', heq⟩ := hchange incoming e he
    rw [← heq]
    exact h e' he'

theorem Instruction.operands_mapEdges {i : Instruction} {o : Operand}
    (hchange : ∀ es, ∀ e ∈ change es, ∃ e' ∈ es, e'.1 = e.1)
    (ho : o ∈ (i.mapEdges change).operands) : o ∈ i.operands := by
  obtain ⟨dst, op⟩ := i
  cases op with
  | compute c => exact ho
  | call callee args returns => exact ho
  | phi type incoming =>
    obtain ⟨e, he, rfl⟩ := List.mem_map.mp ho
    obtain ⟨e', he', heq⟩ := hchange incoming e he
    exact List.mem_map.mpr ⟨e', he', heq⟩

theorem Func.Derives.of_mapEdges {f g : Func} (hsignature : g.signature = f.signature)
    (htypes : g.types = f.types)
    (h : ∀ i ∈ g.instructions, ∃ j ∈ f.instructions, ∃ change, j.mapEdges change = i)
    (hgives : f.Gives → g.Gives) : f.Derives g where
  signature := hsignature
  types := htypes
  calls := by
    intro i hi callee args returns hop
    obtain ⟨j, hj, change, rfl⟩ := h i hi
    exact ⟨j, hj, args, Operation.eq_call_of_mapEdges hop, rfl⟩
  phis := by
    intro i hi hphi
    obtain ⟨j, hj, change, rfl⟩ := h i hi
    refine ⟨j, hj, ?_, ?_⟩
    · simpa [Instruction.mapEdges] using hphi
    · simp [Instruction.type, Instruction.mapEdges]
  gives := hgives

end Edges

namespace Func

variable {f : Func} {w : Flow} {x : Trimming} {b : Block}

theorem mem_trimmed {i : Instruction} :
    i ∈ (b.trimmed x).instructions ↔
      ∃ j ∈ b.instructions, j.mapEdges (·.filter fun e => x.live e.2 b.id) = i := List.mem_map

theorem mem_filter_edges {live : Operand × Nat → Bool} (es : List (Operand × Nat)) :
    ∀ e ∈ es.filter live, ∃ e' ∈ es, e'.1 = e.1 :=
  fun e he => ⟨e, (List.mem_filter.mp he).1, rfl⟩

theorem operands_trimmed {i : Instruction} {o : Operand}
    (ho : o ∈ (i.mapEdges (·.filter fun e => x.live e.2 b.id)).operands) : o ∈ i.operands :=
  Instruction.operands_mapEdges mem_filter_edges ho

@[simp] theorem dsts_trimmed (b : Block) : (b.trimmed x).dsts = b.dsts := by
  simp [Block.trimmed, Block.dsts, Function.comp_def]

theorem mem_blocks_trimmed {c : Block} :
    c ∈ (f.trimmed x).blocks ↔ ∃ b ∈ f.blocks, x.alive b.id = true ∧ b.trimmed x = c := by
  simp [Func.trimmed, and_assoc]

theorem leaves_trimmed {v : Nat} : (b.trimmed x).Leaves w v ↔ b.Leaves w v := by
  rw [Block.Leaves, dsts_trimmed]
  rfl

namespace Cuts

theorem terminator (h : f.Cuts x) (hs : f.Regular) (hb : b ∈ f.blocks)
    (ha : x.alive b.id = true) :
    ∃ t t', b.terminator = some t ∧ (b.trimmed x).terminator = some t' ∧
      t.Settles (x.live b.id) t' := by
  obtain ⟨t, ht⟩ := Option.isSome_iff_exists.mp (hs.ended b hb)
  obtain ⟨t', ht', hsettles⟩ := h.settles b hb ha t ht
  exact ⟨t, t', ht, by rw [Block.trimmed, ht]; exact ht', hsettles⟩

theorem edgesInto (h : f.Cuts x) (hs : f.Regular) {id : Nat} (hid : f.Forks id) :
    (f.trimmed x).edgesInto id = (f.edgesInto id).filter fun p => x.live p id := by
  have hblocks : ∀ bs : List Block, (∀ b ∈ bs, b ∈ f.blocks) →
      ((bs.filter fun b => x.alive b.id).map (·.trimmed x)).flatMap
        (fun b => (b.successors.filter (· == id)).map fun _ => b.id) =
      (bs.flatMap fun b => (b.successors.filter (· == id)).map fun _ => b.id).filter
        fun p => x.live p id := by
    intro bs hbs
    induction bs with
    | nil => rfl
    | cons b bs ih =>
      have hb := hbs b List.mem_cons_self
      have ih := ih fun c hc => hbs c (List.mem_cons_of_mem _ hc)
      rw [List.flatMap_cons, List.filter_append, ← ih, List.filter_map]
      cases ha : x.alive b.id with
      | false =>
        have hdead : x.live b.id id = false := by
          cases hl : x.live b.id id with
          | false => rfl
          | true =>
            rw [h.source b hb _ hl] at ha
            cases ha
        rw [List.filter_cons_of_neg (by simp [ha])]
        simp [Function.comp_def, hdead]
      | true =>
        obtain ⟨t, t', ht, ht', hsettles⟩ := h.terminator hs hb ha
        rw [List.filter_cons_of_pos (by simp [ha]), List.map_cons, List.flatMap_cons]
        congr 1
        simp only [Block.successors, ht, ht']
        rw [hsettles.filter_successors fun c hc => hid b hb c (hc ▸ ht)]
        simp only [List.filter_filter]
        refine congrArg (List.map _) (List.filter_congr ?_)
        intro s _
        by_cases he : s = id
        · subst he
          simp
        · rw [beq_false_of_ne he, Bool.false_and, Bool.and_false]
  exact hblocks f.blocks fun _ hb => hb

theorem mem_successors (h : f.Cuts x) (hs : f.Regular) (hb : b ∈ f.blocks)
    (ha : x.alive b.id = true) {s : Nat} :
    s ∈ (b.trimmed x).successors ↔ s ∈ b.successors ∧ x.live b.id s = true := by
  obtain ⟨t, t', ht, ht', hsettles⟩ := h.terminator hs hb ha
  rw [Block.successors, Block.successors, ht, ht']
  exact hsettles.mem_successors

theorem regular (h : f.Cuts x) (hs : f.Regular) : (f.trimmed x).Regular where
  ids := hs.ids_filter fun _ => rfl
  entry := hs.entry_filter (fun _ => rfl) fun b _ hzero => by rw [hzero]; exact h.entry
  ended := by
    intro c hc
    obtain ⟨b, hb, ha, rfl⟩ := mem_blocks_trimmed.mp hc
    obtain ⟨_, _, _, ht', _⟩ := h.terminator hs hb ha
    rw [ht']
    rfl
  targets := by
    intro c hc s hsucc
    obtain ⟨b, hb, ha, rfl⟩ := mem_blocks_trimmed.mp hc
    obtain ⟨hsucc, hlive⟩ := (h.mem_successors hs hb ha).mp hsucc
    obtain ⟨d, hd, rfl⟩ := hs.targets b hb s hsucc
    exact ⟨_, mem_blocks_trimmed.mpr ⟨d, hd, h.closed b hb ha _ hsucc hlive, rfl⟩, rfl⟩
  dsts := by
    intro c hc
    obtain ⟨b, hb, _, rfl⟩ := mem_blocks_trimmed.mp hc
    rw [dsts_trimmed]
    exact hs.dsts b hb
  disjoint := by
    intro c hc d hd v hv hv'
    obtain ⟨b, hb, _, rfl⟩ := mem_blocks_trimmed.mp hc
    obtain ⟨b', hb', _, rfl⟩ := mem_blocks_trimmed.mp hd
    rw [dsts_trimmed] at hv hv'
    exact hs.disjoint b hb b' hb' v hv hv'

theorem shaped (h : f.Cuts x) (hs : f.Shaped) : (f.trimmed x).Shaped where
  toRegular := h.regular hs.toRegular
  branches := by
    intro c hc
    obtain ⟨b, hb, ha, rfl⟩ := mem_blocks_trimmed.mp hc
    obtain ⟨t, t', ht, ht', hsettles⟩ := h.terminator hs.toRegular hb ha
    have hnodup := hs.branches b hb
    rw [Block.successors, ht] at hnodup
    rw [Block.successors, ht']
    exact hnodup.sublist hsettles.sublist

theorem operandType?_trimmed : (f.trimmed x).operandType? = f.operandType? := by
  funext o
  cases o <;> rfl

theorem typed (h : f.Cuts x) (hs : f.Regular) (ht : f.Typed) : (f.trimmed x).Typed where
  types := by
    intro c hc i hi
    obtain ⟨b, hb, _, rfl⟩ := mem_blocks_trimmed.mp hc
    obtain ⟨j, hj, rfl⟩ := mem_trimmed.mp hi
    rw [Instruction.type, Instruction.mapEdges, Operation.type_mapEdges]
    exact ht.types b hb j hj
  operations := by
    intro c hc i hi
    obtain ⟨b, hb, _, rfl⟩ := mem_blocks_trimmed.mp hc
    obtain ⟨j, hj, rfl⟩ := mem_trimmed.mp hi
    rw [operandType?_trimmed]
    exact (ht.operations b hb j hj).mapEdges mem_filter_edges
  terminators := by
    intro c hc t hterm
    obtain ⟨b, hb, ha, rfl⟩ := mem_blocks_trimmed.mp hc
    obtain ⟨t₀, t', ht₀, ht', hsettles⟩ := h.terminator hs hb ha
    cases ht'.symm.trans hterm
    rw [operandType?_trimmed]
    exact hsettles.typed (ht.terminators b hb t₀ ht₀)

theorem edged (h : f.Cuts x) (hs : f.Regular) (he : f.Edged)
    (hphi : ∀ b ∈ f.blocks, x.alive b.id = true → ∀ i ∈ b.instructions, i.op.isPhi = true →
      f.Forks b.id) : (f.trimmed x).Edged := by
  intro c hc i hi type incoming hop
  obtain ⟨b, hb, ha, rfl⟩ := mem_blocks_trimmed.mp hc
  obtain ⟨j, hj, rfl⟩ := mem_trimmed.mp hi
  obtain ⟨incoming', hop', rfl⟩ := Operation.eq_phi_of_mapEdges hop
  have hperm := (he b hb j hj type incoming' hop').filter fun p => x.live p b.id
  rw [List.filter_map] at hperm
  change List.Perm _ ((f.trimmed x).edgesInto b.id)
  rw [h.edgesInto hs (hphi b hb ha j hj (by rw [hop']; rfl))]
  exact hperm

theorem derives (h : f.Cuts x) (hs : f.Regular) : f.Derives (f.trimmed x) := by
  refine .of_mapEdges rfl rfl ?_ ?_
  · intro i hi
    obtain ⟨c, hc, hi⟩ := mem_instructions.mp hi
    obtain ⟨b, hb, _, rfl⟩ := mem_blocks_trimmed.mp hc
    obtain ⟨j, hj, rfl⟩ := mem_trimmed.mp hi
    exact ⟨j, mem_instructions.mpr ⟨b, hb, hj⟩, _, rfl⟩
  · intro hgives c hc ht
    obtain ⟨b, hb, ha, rfl⟩ := mem_blocks_trimmed.mp hc
    obtain ⟨t, t', hbt, ht', hsettles⟩ := h.terminator hs hb ha
    cases ht'.symm.trans ht
    cases hsettles
    exact hgives b hb hbt

end Cuts

namespace Trims

theorem flows (h : f.Trims w x) (hs : f.Regular) (hw : f.Flows w) : (f.trimmed x).Flows w where
  entry := hw.entry
  defined := by
    intro c hc v hv
    obtain ⟨b, hb, ha, rfl⟩ := mem_blocks_trimmed.mp hc
    obtain ⟨d, hd, ha', hv⟩ := h.defined b hb ha v hv
    exact ⟨_, mem_blocks_trimmed.mpr ⟨d, hd, ha', rfl⟩, by rw [dsts_trimmed]; exact hv⟩
  scope := by
    intro c hc
    obtain ⟨b, hb, _, rfl⟩ := mem_blocks_trimmed.mp hc
    exact (hw.scope b hb).mapEdges
  exits := by
    intro c hc t hterm v hv
    obtain ⟨b, hb, ha, rfl⟩ := mem_blocks_trimmed.mp hc
    obtain ⟨t₀, t', ht₀, ht', hsettles⟩ := h.terminator hs hb ha
    cases ht'.symm.trans hterm
    exact leaves_trimmed.mpr (hw.exits b hb t₀ ht₀ v (hsettles.operands hv))
  edges := by
    intro c hc s hsucc v hv
    obtain ⟨b, hb, ha, rfl⟩ := mem_blocks_trimmed.mp hc
    obtain ⟨hsucc, _⟩ := (h.mem_successors hs hb ha).mp hsucc
    exact leaves_trimmed.mpr (hw.edges b hb s hsucc v hv)
  rank := by
    intro c hc s hsucc
    obtain ⟨b, hb, ha, rfl⟩ := mem_blocks_trimmed.mp hc
    obtain ⟨hsucc, _⟩ := (h.mem_successors hs hb ha).mp hsucc
    exact hw.rank b hb s hsucc

theorem phis (h : f.Trims w x) (hs : f.Shaped) (hp : f.Phis w) : (f.trimmed x).Phis w where
  edges := h.edged hs.toRegular hp.edges fun b _ _ _ _ _ => forks_of_nodup hs.branches b.id
  entry := by
    intro c hc hid i hi
    obtain ⟨b, hb, _, rfl⟩ := mem_blocks_trimmed.mp hc
    obtain ⟨j, hj, rfl⟩ := mem_trimmed.mp hi
    rw [Instruction.mapEdges, Operation.mapEdges_isPhi]
    exact hp.entry b hb hid j hj
  avail := by
    intro c hc i hi type incoming hop v p hv d hd hid
    obtain ⟨b, hb, _, rfl⟩ := mem_blocks_trimmed.mp hc
    obtain ⟨b', hb', _, rfl⟩ := mem_blocks_trimmed.mp hd
    obtain ⟨j, hj, rfl⟩ := mem_trimmed.mp hi
    obtain ⟨incoming', hop', rfl⟩ := Operation.eq_phi_of_mapEdges hop
    have hmem := (List.mem_filter.mp hv).1
    exact leaves_trimmed.mpr (hp.avail b hb j hj type incoming' hop' v p hmem b' hb' hid)
  order := by
    intro c hc i hi hphi v hv d hd j hj hphi' hdst
    obtain ⟨b, hb, _, rfl⟩ := mem_blocks_trimmed.mp hc
    obtain ⟨b', hb', _, rfl⟩ := mem_blocks_trimmed.mp hd
    obtain ⟨i, hi', rfl⟩ := mem_trimmed.mp hi
    obtain ⟨j, hj', rfl⟩ := mem_trimmed.mp hj
    rw [Instruction.mapEdges, Operation.mapEdges_isPhi] at hphi hphi'
    exact hp.order b hb i hi' hphi v (operands_trimmed hv) b' hb' j hj' hphi' hdst

theorem sound (h : f.Trims w x) (hs : f.Sound w) : (f.trimmed x).Sound w :=
  ⟨h.shaped hs.shaped, h.typed hs.shaped.toRegular hs.typed, h.flows hs.shaped.toRegular hs.flows,
    h.phis hs.shaped hs.phis⟩

end Trims

structure Retraces (f : Func) (x : Trimming) (F G : Frame Const) : Prop where
  func : F.func = f
  target : G = { F with func := f.trimmed x }
  alive : x.alive F.block = true
  live : ∀ p, F.previous = some p → x.live p F.block = true

namespace Retraces

variable {F G : Frame Const} {i : Instruction}

theorem block? (ha : x.alive b.id = true) {id : Nat} (hb : f.block? id = some b) :
    (f.trimmed x).block? id = some (b.trimmed x) := by
  have hid : b.id = id := by simpa using List.find?_some hb
  simp only [Func.block?, Func.trimmed, List.find?_map, List.find?_filter] at hb ⊢
  rw [Option.map_eq_some_iff]
  refine ⟨b, ?_, rfl⟩
  rw [← hb]
  congr 1
  funext c
  by_cases hc : c.id = id
  · simp [Block.trimmed, hc, ← hid, ha]
  · simp [Block.trimmed, hc]

theorem stands (h : Retraces f x F G) {i : Option Instruction} (hi : F.Stands b i) :
    b ∈ f.blocks ∧ x.alive b.id = true ∧
      G.Stands (b.trimmed x) (i.map (·.mapEdges (·.filter fun e => x.live e.2 b.id))) := by
  have hb := hi.block
  rw [h.func] at hb
  have hid : b.id = F.block := by simpa using List.find?_some hb
  have ha : x.alive b.id = true := by rw [hid]; exact h.alive
  refine ⟨List.mem_of_find?_eq_some hb, ha, ?_⟩
  rw [h.target]
  constructor
  · exact block? ha hb
  · change (b.instructions.map _)[F.pc]? = _
    rw [List.getElem?_map, hi.pc]

theorem find? (h : Retraces f x F G) (o : Operand) : G.find? id o = F.find? id o := by
  rw [h.target]
  cases o <;> rfl

theorem value (h : Retraces f x F G) (hi : F.Stands b (some i)) :
    Machine.value G i.dst (i.op.mapEdges (·.filter fun e => x.live e.2 b.id)) =
      Machine.value F i.dst i.op := by
  have hget : G.get id = F.get id := by
    funext o
    unfold Frame.get
    rw [h.find?, h.target, h.func]
    rfl
  have hname : G.func.name = F.func.name := by
    rw [h.target, h.func]
    rfl
  have hid : b.id = F.block := by simpa using List.find?_some hi.block
  obtain ⟨dst, op⟩ := i
  cases op with
  | call callee args returns =>
    simp only [Operation.mapEdges, Machine.value, hname]
  | compute c =>
    simp only [Operation.mapEdges, Frame.value_compute, hget, hname]
  | phi type incoming =>
    have hprevious : G.previous = F.previous := by rw [h.target]
    simp only [Operation.mapEdges, Machine.value, hprevious, List.find?_filter, hget, hname]
    congr 2
    funext e
    rw [Bool.eq_iff_iff]
    simp only [decide_eq_true_eq, beq_iff_eq, and_iff_right_iff_imp, hid]
    intro he
    exact h.live e.2 he.symm

theorem mapM (h : Retraces f x F G) (os : List Operand) :
    os.mapM (G.get id) = os.mapM (F.get id) := by
  congr 1
  funext o
  unfold Frame.get
  rw [h.find?, h.target, h.func]
  rfl

theorem set (h : Retraces f x F G) (dst : Nat) (c : Const) :
    Retraces f x (F.next.set dst c) (G.next.set dst c) :=
  ⟨h.func, by rw [h.target]; rfl, h.alive, h.live⟩

theorem next (h : Retraces f x F G) : Retraces f x F.next G.next :=
  ⟨h.func, by rw [h.target]; rfl, h.alive, h.live⟩

end Retraces

theorem Cuts.simulation (h : f.Cuts x) (hs : f.Regular) :
    Frame.Simulation (Retraces f x) where
  returnTo := by
    intro F G hr
    rw [hr.target]
  computes := by
    intro F G hr v hv
    rw [hr.target] at hv
    obtain ⟨c, hc, hv⟩ := hv
    obtain ⟨b, hb, _, rfl⟩ := mem_blocks_trimmed.mp hc
    rw [hr.func]
    exact ⟨b, hb, by rw [dsts_trimmed] at hv; exact hv⟩
  goes := by
    intro F G F' hr hF
    have hm := F.moves
    rw [hF] at hm
    right
    cases hm with
    | @computes b i a hi hcall hv =>
      obtain ⟨_, _, hG⟩ := hr.stands hi
      refine ⟨_, Frame.action_computes hG ?_ ((hr.value hi).trans hv), hr.set i.dst a⟩
      simpa [Instruction.mapEdges] using hcall
    | @jumps b t target hi ht hchoose =>
      obtain ⟨hb, ha, hG⟩ := hr.stands hi
      obtain ⟨t₀, t', ht₀, ht', hsettles⟩ := h.terminator hs hb ha
      cases ht.symm.trans ht₀
      obtain ⟨hchoose', hlive⟩ := hsettles.chooses hchoose
      have hid : b.id = F.block := by simpa using List.find?_some hi.block
      refine ⟨_, Frame.action_jumps hG ht' (hchoose'.congr hr.find?),
        ⟨hr.func, by rw [hr.target]; rfl, ?_, ?_⟩⟩
      · exact h.closed b hb ha target (hchoose.mem_block ht) hlive
      · intro p hp
        cases hp
        rw [hid] at hlive
        exact hlive
  calls := by
    intro F G F' dst callee args hr hF
    have hm := F.moves
    rw [hF] at hm
    cases hm with
    | @calls b i _ operands returns _ hi hop ha =>
      obtain ⟨_, _, hG⟩ := hr.stands hi
      have hcalls := Frame.action_calls hG (Instruction.mapEdges_op hop rfl)
        ((hr.mapM operands).trans ha)
      exact ⟨G.next, hcalls, hr.next, hr.set i.dst⟩
  returns := by
    intro F G r hr hF
    have hm := F.moves
    rw [hF] at hm
    cases hm with
    | @ends b o _ hi ht hyields =>
      obtain ⟨hb, ha, hG⟩ := hr.stands hi
      obtain ⟨t₀, t', ht₀, ht', hsettles⟩ := h.terminator hs hb ha
      cases ht.symm.trans ht₀
      rw [hsettles.ret rfl] at ht'
      exact Frame.action_ends hG ht' (hyields.congr hr.find?)
  fails := by
    intro F G name i hr hF hcur _
    have hm := F.moves
    rw [hF] at hm
    cases hm with
    | @divides b j l r hi hop hv =>
      rw [hi.current?] at hcur
      cases hcur
      obtain ⟨_, _, hG⟩ := hr.stands hi
      have hdivides := Frame.action_divides hG (Instruction.mapEdges_op hop rfl)
        ((hr.value hi).trans hv)
      exact ⟨hdivides, _, hG.current?, rfl⟩

theorem Trims.improves (h : f.Trims w x) (hs : f.Sound w) : f.Improves (f.trimmed x) := by
  refine ⟨⟨w, h.sound hs⟩, h.derives hs.shaped.toRegular,
    fun _ => ⟨rfl, fun args returnTo => ⟨_, h.simulation hs.shaped.toRegular, ?_⟩⟩⟩
  exact ⟨rfl, rfl, h.entry, fun p hp => by cases hp⟩

end Func

end FormCompiler
