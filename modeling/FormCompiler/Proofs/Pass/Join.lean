import FormCompiler.Proofs.Pass.Branches
import Mathlib.Data.List.Find

namespace FormCompiler

structure Func.Joins (f : Func) (a n : Block) : Prop where
  source : a ∈ f.blocks
  target : n ∈ f.blocks
  jump : a.terminator = some (.br n.id)
  ne : n.id ≠ a.id
  entry : n.id ≠ 0
  clear : ∀ i ∈ n.instructions, i.op.isPhi = false
  sole : ∀ b ∈ f.blocks, n.id ∈ b.successors → b.id = a.id

def relabel (a n : Block) (p : Nat) : Nat := if p = n.id then a.id else p

def relabelEdges (a n : Block) (es : List (Operand × Nat)) : List (Operand × Nat) :=
  es.map fun e => (e.1, relabel a n e.2)

def Block.joined (a n b : Block) : Block :=
  { b with
    instructions := (if b.id = a.id then b.instructions ++ n.instructions else
      b.instructions).map (·.mapEdges (relabelEdges a n))
    terminator := if b.id = a.id then n.terminator else b.terminator }

def Func.joined (f : Func) (a n : Block) : Func :=
  { f with blocks := (f.blocks.filter fun b => b.id != n.id).map (Block.joined a n) }

namespace Func.Joins

variable {f : Func} {w : Flow} {a n b : Block}

@[simp] theorem id_joined (a n b : Block) : (Block.joined a n b).id = b.id := rfl

theorem mem_blocks {c : Block} :
    c ∈ (f.joined a n).blocks ↔ ∃ b ∈ f.blocks, b.id ≠ n.id ∧ Block.joined a n b = c := by
  simp [Func.joined, and_assoc]

theorem id_ne {c : Block} (hc : c ∈ (f.joined a n).blocks) : c.id ≠ n.id := by
  obtain ⟨b, _, hne, rfl⟩ := mem_blocks.mp hc
  exact hne

theorem dsts_joined (a n : Block) : (Block.joined a n a).dsts = a.dsts ++ n.dsts := by
  simp [Block.joined, Block.dsts, Function.comp_def]

theorem dsts_of_ne (hb : b.id ≠ a.id) : (Block.joined a n b).dsts = b.dsts := by
  simp [Block.joined, Block.dsts, Function.comp_def, hb]

theorem successors_joined (a n : Block) : (Block.joined a n a).successors = n.successors := by
  simp [Block.joined, Block.successors]

theorem successors_of_ne (hb : b.id ≠ a.id) : (Block.joined a n b).successors = b.successors := by
  simp [Block.joined, Block.successors, hb]

theorem successors_source (h : f.Joins a n) : a.successors = [n.id] := by
  rw [Block.successors, h.jump]
  rfl

theorem mem_relabelEdges (es : List (Operand × Nat)) :
    ∀ e ∈ relabelEdges a n es, ∃ e' ∈ es, e'.1 = e.1 := by
  intro e he
  obtain ⟨e', he', rfl⟩ := List.mem_map.mp he
  exact ⟨e', he', rfl⟩

theorem operands_relabel {i : Instruction} {o : Operand}
    (ho : o ∈ (i.mapEdges (relabelEdges a n)).operands) : o ∈ i.operands :=
  Instruction.operands_mapEdges mem_relabelEdges ho

theorem block_cases (h : f.Joins a n) (hs : f.Regular) {c : Block}
    (hc : c ∈ (f.joined a n).blocks) :
    c = Block.joined a n a ∨
      ∃ b ∈ f.blocks, b.id ≠ n.id ∧ b.id ≠ a.id ∧ c = Block.joined a n b := by
  obtain ⟨b, hb, hne, rfl⟩ := mem_blocks.mp hc
  by_cases he : b.id = a.id
  · rw [hs.eq_of_id hb h.source he]
    exact .inl rfl
  · exact .inr ⟨b, hb, hne, he, rfl⟩

theorem instruction_cases (h : f.Joins a n) (hs : f.Regular) {c : Block}
    (hc : c ∈ (f.joined a n).blocks) {i : Instruction} (hi : i ∈ c.instructions) :
    ∃ b ∈ f.blocks, ∃ j ∈ b.instructions, j.mapEdges (relabelEdges a n) = i ∧
      (b.id = c.id ∨ b = n ∧ c.id = a.id) := by
  rcases h.block_cases hs hc with rfl | ⟨b, hb, hne, hne', rfl⟩
  · simp only [Block.joined, if_true] at hi
    obtain ⟨j, hj, rfl⟩ := List.mem_map.mp hi
    rcases List.mem_append.mp hj with hj | hj
    · exact ⟨a, h.source, j, hj, rfl, .inl rfl⟩
    · exact ⟨n, h.target, j, hj, rfl, .inr ⟨rfl, rfl⟩⟩
  · simp only [Block.joined, hne', if_false] at hi
    obtain ⟨j, hj, rfl⟩ := List.mem_map.mp hi
    exact ⟨b, hb, j, hj, rfl, .inl rfl⟩

theorem rank_lt (h : f.Joins a n) (hw : f.Flows w) : w.rank a.id < w.rank n.id := by
  refine hw.rank a h.source n.id ?_
  rw [h.successors_source]
  exact List.mem_cons_self

theorem terminator_mem (h : f.Joins a n) (hs : f.Regular) {c : Block}
    (hc : c ∈ (f.joined a n).blocks) {t : Terminator} (ht : c.terminator = some t) :
    ∃ b ∈ f.blocks, b.terminator = some t := by
  rcases h.block_cases hs hc with rfl | ⟨b, hb, _, hne, rfl⟩
  · simp only [Block.joined, if_true] at ht
    exact ⟨n, h.target, ht⟩
  · simp only [Block.joined, hne, if_false] at ht
    exact ⟨b, hb, ht⟩

theorem leaves_source (h : f.Joins a n) (hw : f.Flows w) {v : Nat} (hv : n.Leaves w v) :
    (Block.joined a n a).Leaves w v := by
  rw [Block.Leaves, dsts_joined, List.mem_append]
  rcases hv with hv | hv
  · have hsucc : n.id ∈ a.successors := by
      rw [h.successors_source]
      exact List.mem_cons_self
    rcases hw.edges a h.source n.id hsucc v hv with hv | hv
    · exact .inl hv
    · exact .inr (.inl hv)
  · exact .inr (.inr hv)

theorem leaves (h : f.Joins a n) (hs : f.Regular) (hb : b ∈ f.blocks) {v : Nat}
    (hv : b.Leaves w v) : (Block.joined a n b).Leaves w v := by
  by_cases he : b.id = a.id
  · rw [hs.eq_of_id hb h.source he] at hv ⊢
    rw [Block.Leaves, dsts_joined, List.mem_append]
    rcases hv with hv | hv
    · exact .inl hv
    · exact .inr (.inl hv)
  · rw [Block.Leaves, dsts_of_ne he]
    exact hv

theorem regular (h : f.Joins a n) (hs : f.Regular) : (f.joined a n).Regular where
  ids := hs.ids_filter fun _ => rfl
  entry := by
    refine hs.entry_filter (fun _ => rfl) fun b _ hzero => ?_
    rw [hzero]
    simpa using Ne.symm h.entry
  ended := by
    intro c hc
    rcases h.block_cases hs hc with rfl | ⟨b, hb, _, hne, rfl⟩
    · simpa [Block.joined] using hs.ended n h.target
    · simpa [Block.joined, hne] using hs.ended b hb
  targets := by
    intro c hc s hsucc
    have hstay : ∀ s, s ≠ n.id → (∃ d ∈ f.blocks, d.id = s) →
        ∃ d ∈ (f.joined a n).blocks, d.id = s := by
      rintro s hne ⟨d, hd, rfl⟩
      exact ⟨_, mem_blocks.mpr ⟨d, hd, hne, rfl⟩, rfl⟩
    rcases h.block_cases hs hc with rfl | ⟨b, hb, _, hne, rfl⟩
    · rw [successors_joined] at hsucc
      refine hstay s ?_ (hs.targets n h.target s hsucc)
      rintro rfl
      exact h.ne (h.sole n h.target hsucc)
    · rw [successors_of_ne hne] at hsucc
      refine hstay s ?_ (hs.targets b hb s hsucc)
      rintro rfl
      exact hne (h.sole b hb hsucc)
  dsts := by
    intro c hc
    rcases h.block_cases hs hc with rfl | ⟨b, hb, _, hne, rfl⟩
    · rw [dsts_joined, List.nodup_append]
      refine ⟨hs.dsts a h.source, hs.dsts n h.target, ?_⟩
      rintro v hv _ hv' rfl
      exact h.ne (hs.disjoint a h.source n h.target v hv hv').symm
    · rw [dsts_of_ne hne]
      exact hs.dsts b hb
  disjoint := by
    intro c hc d hd v hv hv'
    obtain ⟨i, hi, rfl⟩ := List.mem_map.mp hv
    obtain ⟨j, hj, hdst⟩ := List.mem_map.mp hv'
    obtain ⟨b, hb, i', hi', rfl, hbc⟩ := h.instruction_cases hs hc hi
    obtain ⟨b', hb', j', hj', rfl, hbd⟩ := h.instruction_cases hs hd hj
    obtain ⟨rfl, _⟩ := hs.eq_of_dst hb hb' hi' hj' hdst.symm
    rcases hbc with hbc | ⟨rfl, hca⟩
    · rcases hbd with hbd | ⟨rfl, _⟩
      · exact hbc.symm.trans hbd
      · exact absurd hbc.symm (id_ne hc)
    · rcases hbd with hbd | ⟨_, hda⟩
      · exact absurd hbd.symm (id_ne hd)
      · exact hca.trans hda.symm

theorem shaped (h : f.Joins a n) (hs : f.Shaped) : (f.joined a n).Shaped where
  toRegular := h.regular hs.toRegular
  branches := by
    intro c hc
    rcases h.block_cases hs.toRegular hc with rfl | ⟨b, hb, _, hne, rfl⟩
    · rw [successors_joined]
      exact hs.branches n h.target
    · rw [successors_of_ne hne]
      exact hs.branches b hb

theorem operandType?_joined : (f.joined a n).operandType? = f.operandType? := by
  funext o
  cases o <;> rfl

theorem typed (h : f.Joins a n) (hs : f.Regular) (ht : f.Typed) : (f.joined a n).Typed where
  types := by
    intro c hc i hi
    obtain ⟨b, hb, j, hj, rfl, _⟩ := h.instruction_cases hs hc hi
    rw [Instruction.type, Instruction.mapEdges, Operation.type_mapEdges]
    exact ht.types b hb j hj
  operations := by
    intro c hc i hi
    obtain ⟨b, hb, j, hj, rfl, _⟩ := h.instruction_cases hs hc hi
    rw [operandType?_joined]
    exact (ht.operations b hb j hj).mapEdges mem_relabelEdges
  terminators := by
    intro c hc t hterm
    rw [operandType?_joined]
    obtain ⟨b, hb, hterm⟩ := h.terminator_mem hs hc hterm
    exact ht.terminators b hb t hterm

theorem computes (h : f.Joins a n) (hs : f.Regular) {v : Nat} (hv : f.Computes v) :
    (f.joined a n).Computes v := by
  obtain ⟨d, hd, hv⟩ := hv
  by_cases hn : d.id = n.id
  · rw [hs.eq_of_id hd h.target hn] at hv
    refine ⟨_, mem_blocks.mpr ⟨a, h.source, h.ne.symm, rfl⟩, ?_⟩
    rw [dsts_joined, List.mem_append]
    exact .inr hv
  · refine ⟨_, mem_blocks.mpr ⟨d, hd, hn, rfl⟩, ?_⟩
    by_cases ha : d.id = a.id
    · rw [hs.eq_of_id hd h.source ha] at hv ⊢
      rw [dsts_joined, List.mem_append]
      exact .inl hv
    · rw [dsts_of_ne ha]
      exact hv

theorem flows (h : f.Joins a n) (hs : f.Regular) (hw : f.Flows w) : (f.joined a n).Flows w where
  entry := hw.entry
  defined := by
    intro c hc v hv
    obtain ⟨b, hb, _, rfl⟩ := mem_blocks.mp hc
    exact h.computes hs (hw.defined b hb v hv)
  scope := by
    intro c hc
    rcases h.block_cases hs hc with rfl | ⟨b, hb, _, hne, rfl⟩
    · simp only [Block.joined, if_true]
      refine Scoped.mapEdges (scoped_append.mpr ⟨hw.scope a h.source, ?_⟩)
      refine (hw.scope n h.target).mono ?_
      intro v hv
      refine hw.edges a h.source n.id ?_ v hv
      rw [h.successors_source]
      exact List.mem_cons_self
    · simp only [Block.joined, hne, if_false]
      exact (hw.scope b hb).mapEdges
  exits := by
    intro c hc t hterm v hv
    rcases h.block_cases hs hc with rfl | ⟨b, hb, _, hne, rfl⟩
    · simp only [Block.joined, if_true] at hterm
      exact h.leaves_source hw (hw.exits n h.target t hterm v hv)
    · simp only [Block.joined, hne, if_false] at hterm
      exact h.leaves hs hb (hw.exits b hb t hterm v hv)
  edges := by
    intro c hc s hsucc v hv
    rcases h.block_cases hs hc with rfl | ⟨b, hb, _, hne, rfl⟩
    · rw [successors_joined] at hsucc
      exact h.leaves_source hw (hw.edges n h.target s hsucc v hv)
    · rw [successors_of_ne hne] at hsucc
      exact h.leaves hs hb (hw.edges b hb s hsucc v hv)
  rank := by
    intro c hc s hsucc
    rcases h.block_cases hs hc with rfl | ⟨b, hb, _, hne, rfl⟩
    · rw [successors_joined] at hsucc
      exact Nat.lt_trans (h.rank_lt hw) (hw.rank n h.target s hsucc)
    · rw [successors_of_ne hne] at hsucc
      exact hw.rank b hb s hsucc

def edges (id : Nat) (b : Block) : List Nat := (b.successors.filter (· == id)).map fun _ => b.id

theorem edges_joined {id : Nat} (hn : b.id ≠ n.id) (ha : b.id ≠ a.id) :
    edges id (Block.joined a n b) = (edges id b).map (relabel a n) := by
  simp only [edges, successors_of_ne ha, List.map_map, Function.comp_def, relabel, hn, if_false,
    id_joined]

theorem edgesInto (h : f.Joins a n) (hs : f.Regular) {id : Nat} (hid : id ≠ n.id) :
    ((f.edgesInto id).map (relabel a n)).Perm ((f.joined a n).edgesInto id) := by
  obtain ⟨l₁, l₂, hl⟩ := List.append_of_mem h.target
  have hmem : a ∈ l₁ ++ l₂ := by
    have ha := h.source
    rw [hl] at ha
    simp only [List.mem_append, List.mem_cons] at ha ⊢
    rcases ha with ha | rfl | ha
    · exact .inl ha
    · exact absurd rfl h.ne
    · exact .inr ha
  obtain ⟨m₁, m₂, hm⟩ := List.append_of_mem hmem
  have hblocks : f.blocks.Perm (n :: a :: (m₁ ++ m₂)) := by
    rw [hl]
    refine List.perm_middle.trans (.cons n ?_)
    rw [hm]
    exact List.perm_middle
  generalize m₁ ++ m₂ = rest at hblocks
  have hids := (hblocks.map Block.id).nodup hs.nodup_ids
  simp only [List.map_cons, List.nodup_cons, List.mem_cons, not_or] at hids
  have hrest : ∀ b ∈ rest, b.id ≠ n.id ∧ b.id ≠ a.id := by
    intro b hb
    constructor
    · intro he
      exact hids.1.2 (he ▸ List.mem_map_of_mem hb)
    · intro he
      exact hids.2.1 (he ▸ List.mem_map_of_mem hb)
  have hkept : (f.blocks.filter fun b => b.id != n.id).Perm (a :: rest) := by
    refine (hblocks.filter _).trans ?_
    rw [List.filter_cons_of_neg (by simp), List.filter_cons_of_pos (by simpa using h.ne.symm),
      List.filter_eq_self.mpr (by simpa using fun b hb => (hrest b hb).1)]
  have hnone : edges id a = [] := by
    simp [edges, h.successors_source, Ne.symm hid]
  have hjoined : edges id (Block.joined a n a) = (edges id n).map (relabel a n) := by
    simp [edges, successors_joined, relabel]
  have hother : (rest.map (Block.joined a n)).flatMap (edges id) =
      (rest.flatMap (edges id)).map (relabel a n) := by
    rw [List.flatMap_map, List.map_flatMap, List.flatMap_def, List.flatMap_def]
    refine congrArg _ (List.map_congr_left ?_)
    intro b hb
    exact edges_joined (hrest b hb).1 (hrest b hb).2
  have hleft := (hblocks.flatMap_right (edges id)).map (relabel a n)
  have hright := (hkept.map (Block.joined a n)).flatMap_right (edges id)
  refine hleft.trans (List.Perm.trans ?_ hright.symm)
  rw [List.flatMap_cons, List.flatMap_cons, hnone, List.nil_append, List.map_append,
    List.map_cons, List.flatMap_cons, hjoined, hother]

theorem phi_cases (h : f.Joins a n) (hs : f.Regular) {c : Block} {i : Instruction}
    (hc : c ∈ (f.joined a n).blocks) (hi : i ∈ c.instructions) (hphi : i.op.isPhi = true) :
    ∃ b ∈ f.blocks, ∃ j ∈ b.instructions,
      j.mapEdges (relabelEdges a n) = i ∧ b.id = c.id ∧ j.op.isPhi = true := by
  obtain ⟨b, hb, j, hj, rfl, hwhere⟩ := h.instruction_cases hs hc hi
  rw [Instruction.mapEdges, Operation.mapEdges_isPhi] at hphi
  rcases hwhere with hid | ⟨rfl, _⟩
  · exact ⟨b, hb, j, hj, rfl, hid, hphi⟩
  · rw [h.clear j hj] at hphi
    cases hphi

theorem edged (h : f.Joins a n) (hs : f.Regular) (he : f.Edged) : (f.joined a n).Edged := by
  intro c hc i hi type incoming hop
  obtain ⟨b, hb, j, hj, rfl, hid, _⟩ := h.phi_cases hs hc hi (by rw [hop]; rfl)
  obtain ⟨incoming', hop', rfl⟩ := Operation.eq_phi_of_mapEdges hop
  have hperm := (he b hb j hj type incoming' hop').map (relabel a n)
  rw [List.map_map] at hperm
  rw [← hid]
  have hne : b.id ≠ n.id := hid ▸ id_ne hc
  refine List.Perm.trans ?_ (hperm.trans (h.edgesInto hs hne))
  rw [relabelEdges, List.map_map]
  exact .refl _

theorem phis (h : f.Joins a n) (hs : f.Regular) (hw : f.Flows w) (hp : f.Phis w) :
    (f.joined a n).Phis w where
  edges := h.edged hs hp.edges
  entry := by
    intro c hc hid i hi
    cases hphi' : i.op.isPhi with
    | false => rfl
    | true =>
      obtain ⟨b, hb, j, hj, _, hid', hj'⟩ := h.phi_cases hs hc hi hphi'
      rw [hp.entry b hb (hid'.trans hid) j hj] at hj'
      cases hj'
  avail := by
    intro c hc i hi type incoming hop v p hv d hd hid
    obtain ⟨b, hb, j, hj, rfl, _, _⟩ := h.phi_cases hs hc hi (by rw [hop]; rfl)
    obtain ⟨incoming', hop', rfl⟩ := Operation.eq_phi_of_mapEdges hop
    obtain ⟨⟨o, q⟩, he, heq⟩ := List.mem_map.mp hv
    obtain ⟨rfl, hq⟩ := Prod.mk.inj heq
    have havail := hp.avail b hb j hj type incoming' hop' v q he
    obtain ⟨d', hd', _, rfl⟩ := mem_blocks.mp hd
    rw [id_joined, ← hq, relabel] at hid
    split at hid
    next hqn =>
      rw [hs.eq_of_id hd' h.source hid]
      exact h.leaves_source hw (havail n h.target hqn.symm)
    next => exact h.leaves hs hd' (havail d' hd' hid)
  order := by
    intro c hc i hi hphi₁ v hv d hd j hj hphi₂ hdst
    obtain ⟨b, hb, i, hi', rfl, hid, hphi₁'⟩ := h.phi_cases hs hc hi hphi₁
    obtain ⟨b', hb', j', hj', rfl, hid', hphi₂'⟩ := h.phi_cases hs hd hj hphi₂
    rw [← hid, ← hid']
    exact hp.order b hb i hi' hphi₁' v (operands_relabel hv) b' hb' j' hj' hphi₂' hdst

theorem sound (h : f.Joins a n) (hs : f.Sound w) : (f.joined a n).Sound w :=
  have hr := hs.shaped.toRegular
  ⟨h.shaped hs.shaped, h.typed hr hs.typed, h.flows hr hs.flows, h.phis hr hs.flows hs.phis⟩

theorem derives (h : f.Joins a n) (hs : f.Regular) : f.Derives (f.joined a n) := by
  refine .of_mapEdges rfl rfl ?_ ?_
  · intro i hi
    obtain ⟨c, hc, hi⟩ := mem_instructions.mp hi
    obtain ⟨b, hb, j, hj, rfl, _⟩ := h.instruction_cases hs hc hi
    exact ⟨j, mem_instructions.mpr ⟨b, hb, hj⟩, _, rfl⟩
  · intro hgives c hc ht
    obtain ⟨b, hb, ht⟩ := h.terminator_mem hs hc ht
    exact hgives b hb ht

theorem terminator_joined (h : f.Joins a n) (hs : f.Regular) (hb : b ∈ f.blocks)
    (ha : b.id ≠ a.id) :
    (Block.joined a n (if b.id = n.id then a else b)).terminator = b.terminator := by
  split
  next hn => simp [Block.joined, hs.eq_of_id hb h.target hn]
  next => simp [Block.joined, ha]

end Func.Joins

namespace Func

structure Merges (f : Func) (a n : Block) (F G : Frame Const) : Prop where
  func : F.func = f
  target : G.func = f.joined a n
  edge : F.previous = none ∨ ∃ c ∈ f.blocks, F.previous = some c.id ∧ F.block ∈ c.successors
  args : G.args = F.args
  values : G.values = F.values
  returnTo : G.returnTo = F.returnTo
  inside : ∀ b, f.block? F.block = some b → F.pc ≤ b.instructions.length
  block : G.block = relabel a n F.block
  pc : G.pc = if F.block = n.id then a.instructions.length + F.pc else F.pc
  previous : F.block ≠ n.id → G.previous = F.previous.map (relabel a n)

namespace Merges

variable {f : Func} {a n b : Block} {F G : Frame Const} {i : Option Instruction}

theorem block?_joined (hs : f.Regular) (hb : b ∈ f.blocks) (hne : b.id ≠ n.id) :
    (f.joined a n).block? b.id = some (Block.joined a n b) := by
  have hfind := hs.block?_eq_some.mpr ⟨hb, rfl⟩
  simp only [Func.block?, Func.joined, List.find?_map, List.find?_filter] at hfind ⊢
  rw [Option.map_eq_some_iff]
  refine ⟨b, ?_, rfl⟩
  rw [← hfind]
  congr 1
  funext c
  by_cases hc : c.id = b.id
  · simp [hc, hne]
  · simp [hc]

theorem mem (h : Merges f a n F G) (hi : F.Stands b i) : b ∈ f.blocks := by
  have hblock := hi.block
  rw [h.func] at hblock
  exact List.mem_of_find?_eq_some hblock

theorem stands (h : Merges f a n F G) (hj : f.Joins a n) (hs : f.Regular) (hi : F.Stands b i)
    (hend : i = none → b.id ≠ a.id) :
    G.Stands (Block.joined a n (if b.id = n.id then a else b))
      (i.map (·.mapEdges (relabelEdges a n))) := by
  have hblock := hi.block
  rw [h.func] at hblock
  obtain ⟨hb, hid⟩ := hs.block?_eq_some.mp hblock
  by_cases hn : b.id = n.id
  · have hbn := hs.eq_of_id hb hj.target hn
    subst hbn
    rw [if_pos rfl]
    constructor
    · rw [h.target, h.block, relabel, if_pos hid.symm]
      exact block?_joined hs hj.source hj.ne.symm
    · rw [h.pc, if_pos hid.symm]
      simp only [Block.joined, if_true]
      rw [List.getElem?_map, List.getElem?_append_right (Nat.le_add_right _ _),
        Nat.add_sub_cancel_left, hi.pc]
  · rw [if_neg hn]
    have hF : F.block ≠ n.id := hid ▸ hn
    constructor
    · rw [h.target, h.block, relabel, if_neg hF, ← hid]
      exact block?_joined hs hb hn
    · rw [h.pc, if_neg hF]
      by_cases ha : b.id = a.id
      · have hlt : F.pc < b.instructions.length := by
          cases i with
          | none => exact absurd ha (hend rfl)
          | some i => exact (List.getElem?_eq_some_iff.mp hi.pc).1
        simp only [Block.joined, ha, if_true]
        rw [List.getElem?_map, List.getElem?_append_left hlt, hi.pc]
      · simp only [Block.joined, ha, if_false]
        rw [List.getElem?_map, hi.pc]

theorem find? (h : Merges f a n F G) (o : Operand) : G.find? id o = F.find? id o := by
  cases o with
  | const c => rfl
  | param index => rw [Frame.find?_param, Frame.find?_param, h.args]
  | value v => simp only [Frame.find?, h.values]

theorem get (h : Merges f a n F G) : G.get id = F.get id := by
  funext o
  unfold Frame.get
  rw [h.find?, h.target, h.func]
  rfl

theorem relabel_eq (hj : f.Joins a n) (hs : f.Regular) {p q : Nat} (hb : b.id ≠ n.id)
    (hp : p ∈ f.edgesInto b.id) (hq : q ∈ f.edgesInto b.id) :
    relabel a n p = relabel a n q ↔ p = q := by
  have hne : ∀ {p}, p ∈ f.edgesInto b.id → p ≠ a.id := by
    rintro p hp rfl
    obtain ⟨c, hc, hsucc, hid⟩ := mem_edgesInto.mp hp
    rw [hs.eq_of_id hc hj.source hid, hj.successors_source] at hsucc
    exact hb (List.mem_singleton.mp hsucc)
  have hpa := hne hp
  have hqa := hne hq
  unfold relabel
  split <;> split <;> omega

theorem value (h : Merges f a n F G) (hj : f.Joins a n) (hs : f.Regular) (he : f.Edged)
    {i : Instruction} (hi : F.Stands b (some i)) :
    Machine.value G i.dst (i.op.mapEdges (relabelEdges a n)) = Machine.value F i.dst i.op := by
  have hblock := hi.block
  rw [h.func] at hblock
  obtain ⟨hb, hid⟩ := hs.block?_eq_some.mp hblock
  have hname : G.func.name = F.func.name := by
    rw [h.target, h.func]
    rfl
  have hmem := List.mem_of_getElem? hi.pc
  obtain ⟨dst, op⟩ := i
  cases op with
  | call callee args returns => simp only [Operation.mapEdges, Machine.value, hname]
  | compute c => simp only [Operation.mapEdges, Frame.value_compute, h.get, hname]
  | phi type incoming =>
    have hne : b.id ≠ n.id := by
      intro hn
      rw [hs.eq_of_id hb hj.target hn] at hmem
      cases hj.clear _ hmem
    have hfind : (relabelEdges a n incoming).find? (fun e => some e.2 == G.previous) =
        (incoming.find? fun e => some e.2 == F.previous).map
          fun e => (e.1, relabel a n e.2) := by
      rw [h.previous (hid ▸ hne), relabelEdges, List.find?_map]
      refine congrArg _ ?_
      rcases h.edge with hnone | ⟨c, hc, hprev, hsucc⟩
      · rw [hnone]
        rfl
      · have hperm := he b hb _ hmem type incoming rfl
        have hq : c.id ∈ f.edgesInto b.id := mem_edgesInto.mpr ⟨c, hc, hid ▸ hsucc, rfl⟩
        rw [hprev]
        refine List.find?_congr ?_
        intro e hmem
        have hp := hperm.mem_iff.mp (List.mem_map_of_mem hmem)
        rw [Bool.eq_iff_iff]
        simp only [Function.comp_apply, Option.map_some, beq_iff_eq, Option.some.injEq]
        exact relabel_eq hj hs hne hp hq
    simp only [Operation.mapEdges, Machine.value, hfind, h.get, hname]
    cases incoming.find? fun e => some e.2 == F.previous <;> rfl

theorem next (h : Merges f a n F G) {i : Instruction} (hi : F.Stands b (some i)) :
    Merges f a n F.next G.next where
  func := h.func
  target := h.target
  edge := h.edge
  args := h.args
  values := h.values
  returnTo := h.returnTo
  inside := by
    intro c hc
    have hblock := hi.block
    rw [h.func] at hblock
    cases hblock.symm.trans hc
    exact (List.getElem?_eq_some_iff.mp hi.pc).1
  block := h.block
  pc := by
    change G.pc + 1 = if F.block = n.id then a.instructions.length + (F.pc + 1) else F.pc + 1
    rw [h.pc]
    split <;> omega
  previous := h.previous

theorem set (h : Merges f a n F G) {i : Instruction} (hi : F.Stands b (some i)) (c : Const) :
    Merges f a n (F.next.set i.dst c) (G.next.set i.dst c) := by
  have hn := h.next hi
  refine { hn with values := ?_ }
  simp only [Frame.set]
  rw [hn.values]

theorem edge_jump (h : Merges f a n F G) (hs : f.Regular) (hi : F.Stands b i) {target : Nat}
    (ht : target ∈ b.successors) : (F.jump target).previous = none ∨
      ∃ c ∈ f.blocks, (F.jump target).previous = some c.id ∧
        (F.jump target).block ∈ c.successors := by
  have hblock := hi.block
  rw [h.func] at hblock
  obtain ⟨hb, hid⟩ := hs.block?_eq_some.mp hblock
  exact .inr ⟨b, hb, congrArg some hid.symm, ht⟩

theorem jump (h : Merges f a n F G) (hs : f.Regular) (hi : F.Stands b i) {target : Nat}
    (ht : target ∈ b.successors) (hn : target ≠ n.id) :
    Merges f a n (F.jump target) (G.jump target) where
  func := h.func
  target := h.target
  edge := h.edge_jump hs hi ht
  args := h.args
  values := h.values
  returnTo := h.returnTo
  inside := fun _ _ => Nat.zero_le _
  block := by
    simp [Frame.jump, relabel, hn]
  pc := by
    simp [Frame.jump, hn]
  previous := fun _ => congrArg some h.block

theorem arrive (h : Merges f a n F G) (hj : f.Joins a n) (hs : f.Regular)
    (hi : F.Stands a none) : Merges f a n (F.jump n.id) G where
  func := h.func
  target := h.target
  edge := by
    refine h.edge_jump hs hi ?_
    rw [hj.successors_source]
    exact List.mem_cons_self
  args := h.args
  values := h.values
  returnTo := h.returnTo
  inside := fun _ _ => Nat.zero_le _
  block := by
    have hid : a.id = F.block := by simpa using List.find?_some hi.block
    rw [h.block, ← hid]
    simp [Frame.jump, relabel, hj.ne.symm]
  pc := by
    have hblock := hi.block
    rw [h.func] at hblock
    have hid : a.id = F.block := by simpa using List.find?_some hi.block
    have hle := h.inside a hblock
    have hge := List.getElem?_eq_none_iff.mp hi.pc
    rw [h.pc, if_neg (hid ▸ hj.ne.symm)]
    simp only [Frame.jump, if_true]
    omega
  previous := fun hne => absurd rfl hne

theorem start (hj : f.Joins a n) (args : List Const) (returnTo : Option Nat) :
    Merges f a n (Frame.start f args returnTo) (Frame.start (f.joined a n) args returnTo) where
  func := rfl
  target := rfl
  edge := .inl rfl
  args := rfl
  values := rfl
  returnTo := rfl
  inside := fun _ _ => Nat.zero_le _
  block := by
    simp [Frame.start, relabel, Ne.symm hj.entry]
  pc := by
    simp [Frame.start, Ne.symm hj.entry]
  previous := fun _ => rfl

end Merges

theorem Joins.simulation {f : Func} {a n : Block} (hj : f.Joins a n) (hs : f.Regular)
    (he : f.Edged) : Frame.Simulation (Merges f a n) where
  returnTo := fun h => h.returnTo
  computes := by
    intro F G h v hv
    rw [h.target] at hv
    obtain ⟨c, hc, hv⟩ := hv
    obtain ⟨i, hi, rfl⟩ := List.mem_map.mp hv
    obtain ⟨b, hb, j, hj', rfl, _⟩ := hj.instruction_cases hs hc hi
    rw [h.func]
    exact ⟨b, hb, List.mem_map.mpr ⟨j, hj', rfl⟩⟩
  goes := by
    intro F G F' h hF
    have hm := F.moves
    rw [hF] at hm
    cases hm with
    | @computes b i c hi hcall hv =>
      have hG := h.stands hj hs hi (fun hnone => by cases hnone)
      refine .inr ⟨_, Frame.action_computes hG ?_ ((h.value hj hs he hi).trans hv), h.set hi c⟩
      simpa [Instruction.mapEdges] using hcall
    | @jumps b t target hi ht hchoose =>
      have hb := h.mem hi
      by_cases ha : b.id = a.id
      · have hba := hs.eq_of_id hb hj.source ha
        subst hba
        cases hj.jump.symm.trans ht
        cases hchoose
        exact .inl (h.arrive hj hs hi)
      · have hsucc := hchoose.mem_block ht
        have hne : target ≠ n.id := by
          rintro rfl
          exact ha (hj.sole b hb hsucc)
        have hG := h.stands hj hs hi fun _ => ha
        have hterm := (hj.terminator_joined hs hb ha).trans ht
        exact .inr ⟨_, Frame.action_jumps hG hterm (hchoose.congr h.find?),
          h.jump hs hi hsucc hne⟩
  calls := by
    intro F G F' dst callee args h hF
    have hm := F.moves
    rw [hF] at hm
    cases hm with
    | @calls b i _ operands returns _ hi hop ha =>
      have hG := h.stands hj hs hi (fun hnone => by cases hnone)
      have hcalls := Frame.action_calls hG (Instruction.mapEdges_op hop rfl)
        (by rw [h.get]; exact ha)
      exact ⟨G.next, hcalls, h.next hi, h.set hi⟩
  returns := by
    intro F G r h hF
    have hm := F.moves
    rw [hF] at hm
    cases hm with
    | @ends b o _ hi ht hyields =>
      have hb := h.mem hi
      have ha : b.id ≠ a.id := by
        intro ha
        rw [hs.eq_of_id hb hj.source ha, hj.jump] at ht
        cases ht
      have hG := h.stands hj hs hi fun _ => ha
      exact Frame.action_ends hG ((hj.terminator_joined hs hb ha).trans ht)
        (hyields.congr h.find?)
  fails := by
    intro F G name i h hF hcur _
    have hm := F.moves
    rw [hF] at hm
    cases hm with
    | @divides b j l r hi hop hv =>
      rw [hi.current?] at hcur
      cases hcur
      have hG := h.stands hj hs hi (fun hnone => by cases hnone)
      have hdivides := Frame.action_divides hG (Instruction.mapEdges_op hop rfl)
        ((h.value hj hs he hi).trans hv)
      exact ⟨hdivides, _, hG.current?, rfl⟩

theorem Joins.improves {f : Func} {w : Flow} {a n : Block} (hj : f.Joins a n) (hs : f.Sound w) :
    f.Improves (f.joined a n) :=
  ⟨⟨w, hj.sound hs⟩, hj.derives hs.shaped.toRegular, fun _ => ⟨rfl, fun args returnTo =>
    ⟨_, hj.simulation hs.shaped.toRegular hs.phis.edges, .start hj args returnTo⟩⟩⟩

end Func

end FormCompiler
