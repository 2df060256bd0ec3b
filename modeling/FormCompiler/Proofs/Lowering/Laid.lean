import FormCompiler.Proofs.Code.Sound
import FormCompiler.Proofs.Lowering.Growth

namespace FormCompiler

namespace Builder

def Visited (b : Builder) (i : Nat) : Prop :=
  i = b.current ∨ ∃ block, b.func.blocks[i]? = some block ∧ block.terminator ≠ none

def Knows (b : Builder) (w : Flow) (v : Nat) : Prop :=
  ∃ block, b.func.blocks[b.current]? = some block ∧ block.Leaves w v

def PhiFrom (b : Builder) (n v : Nat) : Prop :=
  ∀ (i : Nat) (block : Block), b.func.blocks[i]? = some block → ∀ j ∈ block.instructions,
    j.dst = v → j.op.isPhi = true → n ≤ i

/-- Every value is computed once, before it is used, and control goes to blocks of higher rank. -/
structure Laid (b : Builder) (w : Flow) : Prop where
  numbered : b.func.Numbered
  isOpen : ∃ block, b.Open block
  entry : ∀ v, ¬ w.avail 0 v
  types : ∀ (i : Nat) (block : Block), b.func.blocks[i]? = some block →
    ∀ j ∈ block.instructions, b.func.types[j.dst]? = some j.type
  dsts : ∀ (i : Nat) (block : Block), b.func.blocks[i]? = some block → block.dsts.Nodup
  disjoint : ∀ (i j : Nat) (block block' : Block), b.func.blocks[i]? = some block →
    b.func.blocks[j]? = some block' → ∀ v, v ∈ block.dsts → v ∈ block'.dsts → i = j
  defined : ∀ i, i < b.func.blocks.length → ∀ v, w.avail i v →
    ∃ (j : Nat) (block : Block), b.func.blocks[j]? = some block ∧ v ∈ block.dsts
  scope : ∀ (i : Nat) (block : Block), b.func.blocks[i]? = some block →
    Scoped (w.avail i) block.instructions
  exits : ∀ (i : Nat) (block : Block), b.func.blocks[i]? = some block →
    ∀ t, block.terminator = some t → ∀ v, .value v ∈ t.operands → block.Leaves w v
  branches : ∀ (i : Nat) (block : Block), b.func.blocks[i]? = some block → block.successors.Nodup
  targets : ∀ (i : Nat) (block : Block), b.func.blocks[i]? = some block →
    ∀ s ∈ block.successors, s < b.func.blocks.length
  edges : ∀ (i : Nat) (block : Block), b.func.blocks[i]? = some block →
    ∀ s ∈ block.successors, ∀ v, w.avail s v → block.Leaves w v
  rank : ∀ (i : Nat) (block : Block), b.func.blocks[i]? = some block →
    ∀ s ∈ block.successors, b.Visited s → w.rank i < w.rank s
  latest : ∀ i, b.Visited i → w.rank i ≤ w.rank b.current
  phiEntry : ∀ v, b.PhiFrom 1 v
  phiAvail : ∀ (i : Nat) (block : Block), b.func.blocks[i]? = some block →
    ∀ j ∈ block.instructions, ∀ type incoming, j.op = .phi type incoming →
    ∀ v p, (.value v, p) ∈ incoming →
    ∃ c, b.func.blocks[p]? = some c ∧ c.terminator ≠ none ∧ c.Leaves w v
  phiOrder : ∀ (i : Nat) (block : Block), b.func.blocks[i]? = some block →
    ∀ j ∈ block.instructions, j.op.isPhi = true → ∀ v, .value v ∈ j.operands →
    b.PhiFrom (i + 1) v

variable {b b' : Builder} {w : Flow} {op : Operation} {block : Block}

theorem add_cases (h : b.Open block) {i : Nat} {c : Block}
    (hc : (b.add op).func.blocks[i]? = some c) :
    i ≠ b.current ∧ b.func.blocks[i]? = some c ∨
    i = b.current ∧ c = { block with
      instructions := block.instructions ++ [⟨b.func.types.length, op⟩] } := by
  by_cases hi : b.current = i
  · subst hi
    have he := (h.add op).1
    exact .inr ⟨rfl, Option.some.inj (hc.symm.trans he)⟩
  · rw [getElem?_add] at hc
    simp only [hi, if_false, id_map'] at hc
    exact .inl ⟨Ne.symm hi, hc⟩

theorem mem_add (h : b.Open block) {i : Nat} {c : Block} (hc : (b.add op).func.blocks[i]? = some c)
    {j : Instruction} (hj : j ∈ c.instructions) :
    j = ⟨b.func.types.length, op⟩ ∧ i = b.current ∨
      ∃ d, b.func.blocks[i]? = some d ∧ j ∈ d.instructions := by
  rcases add_cases h hc with ⟨_, hc⟩ | ⟨rfl, rfl⟩
  · exact .inr ⟨c, hc, hj⟩
  · rcases List.mem_append.mp hj with hj | hj
    · exact .inr ⟨block, h.1, hj⟩
    · exact .inl ⟨List.mem_singleton.mp hj, rfl⟩

theorem terminate_cases (h : b.Open block) {t : Terminator} {i : Nat} {c : Block}
    (hc : (b.terminate t).func.blocks[i]? = some c) :
    i ≠ b.current ∧ b.func.blocks[i]? = some c ∨
    i = b.current ∧ c = { block with terminator := some t } := by
  rw [getElem?_terminate] at hc
  by_cases hi : b.current = i
  · subst hi
    rw [h.1] at hc
    simp only [if_true, Option.map_eq_map, Option.map_some, h.2, Option.none_or,
      Option.some.injEq] at hc
    exact .inr ⟨rfl, hc.symm⟩
  · simp only [hi, if_false, id_map'] at hc
    exact .inl ⟨Ne.symm hi, hc⟩

theorem branch_cases (h : b.Open block) {flag : Operand} {i : Nat} {c : Block}
    (hc : (b.branch flag).func.blocks[i]? = some c) :
    (i < b.func.blocks.length ∧ (i ≠ b.current ∧ b.func.blocks[i]? = some c ∨
      i = b.current ∧ c = { block with
        terminator := some (.condBr flag b.func.blocks.length (b.func.blocks.length + 1)) })) ∨
    (b.func.blocks.length ≤ i ∧ i < b.func.blocks.length + 3 ∧
      ∃ label, c = { id := i, label }) := by
  by_cases hi : i < b.func.blocks.length
  · rw [getElem?_branch_of_lt b flag hi] at hc
    exact .inl ⟨hi, terminate_cases h hc⟩
  · right
    have hlt := (List.getElem?_eq_some_iff.mp hc).1
    rw [length_blocks_branch] at hlt
    obtain ⟨k, rfl⟩ : ∃ k, i = b.func.blocks.length + k := ⟨i - b.func.blocks.length, by omega⟩
    obtain ⟨label, hnew⟩ := getElem?_branch_new b flag h.current_lt k (by omega)
    exact ⟨by omega, by omega, label, Option.some.inj (hc.symm.trans hnew)⟩

theorem jump_of_ne {join id i : Nat} {c : Block} (hi : i ≠ b.current)
    (hc : b.func.blocks[i]? = some c) : (b.jump join id).func.blocks[i]? = some c := by
  change (b.terminate (.br join)).func.blocks[i]? = _
  rw [getElem?_terminate, hc]
  simp [Ne.symm hi]

theorem jump_current (h : b.Open block) (join id : Nat) :
    (b.jump join id).func.blocks[b.current]? =
      some { block with terminator := some (.br join) } := by
  change (b.terminate (.br join)).func.blocks[b.current]? = _
  rw [getElem?_terminate, h.1]
  simp [h.2]

theorem getElem?_branch_of_ne {flag : Operand} {i : Nat} {c : Block} (hi : i ≠ b.current)
    (hc : b.func.blocks[i]? = some c) : (b.branch flag).func.blocks[i]? = some c := by
  rw [getElem?_branch_of_lt b flag (List.getElem?_eq_some_iff.mp hc).1, getElem?_terminate, hc]
  simp [Ne.symm hi]

theorem getElem?_branch_current (h : b.Open block) (flag : Operand) :
    (b.branch flag).func.blocks[b.current]? = some { block with
      terminator := some (.condBr flag b.func.blocks.length (b.func.blocks.length + 1)) } := by
  rw [getElem?_branch_of_lt b flag h.current_lt, getElem?_terminate, h.1]
  simp [h.2]

theorem visited_add (h : b.Open block) {i : Nat} : (b.add op).Visited i ↔ b.Visited i := by
  constructor
  · rintro (hi | ⟨c, hc, ht⟩)
    · exact .inl hi
    · rcases add_cases h hc with ⟨_, hc⟩ | ⟨hi, _⟩
      · exact .inr ⟨c, hc, ht⟩
      · exact .inl hi
  · rintro (hi | ⟨c, hc, ht⟩)
    · exact .inl hi
    · right
      have hi : b.current ≠ i := by
        rintro rfl
        rw [h.1] at hc
        cases hc
        exact ht h.2
      refine ⟨c, ?_, ht⟩
      rw [getElem?_add, hc]
      simp [hi]

theorem visited_branch (h : b.Open block) {flag : Operand} {i : Nat}
    (hi : (b.branch flag).Visited i) : i = b.func.blocks.length ∨ b.Visited i := by
  rcases hi with hi | ⟨c, hc, ht⟩
  · exact .inl hi
  · rcases branch_cases h hc with ⟨_, ⟨_, hc⟩ | ⟨rfl, _⟩⟩ | ⟨_, _, label, rfl⟩
    · exact .inr (.inr ⟨c, hc, ht⟩)
    · exact .inr (.inl rfl)
    · exact absurd rfl ht

theorem visited_jump (h : b.Open block) {join id i : Nat} (hi : (b.jump join id).Visited i) :
    i = id ∨ b.Visited i := by
  rcases hi with hi | ⟨c, hc, ht⟩
  · exact .inl hi
  · rcases terminate_cases h hc with ⟨_, hc⟩ | ⟨rfl, _⟩
    · exact .inr (.inr ⟨c, hc, ht⟩)
    · exact .inr (.inl rfl)

theorem not_visited {i : Nat} {c : Block} (hc : b.func.blocks[i]? = some c)
    (ht : c.terminator = none) (hi : b.current ≠ i) : ¬ b.Visited i := by
  rintro (he | ⟨d, hd, hd'⟩)
  · exact hi he.symm
  · rw [hc] at hd
    cases hd
    exact hd' ht

theorem Open.lt_of_visited (h : b.Open block) {i : Nat} (hi : b.Visited i) :
    i < b.func.blocks.length := by
  rcases hi with rfl | ⟨c, hc, _⟩
  · exact h.current_lt
  · exact (List.getElem?_eq_some_iff.mp hc).1

theorem add_of_ne {i : Nat} {c : Block} (hi : i ≠ b.current) (hc : b.func.blocks[i]? = some c) :
    (b.add op).func.blocks[i]? = some c := by
  rw [getElem?_add, hc]
  simp [Ne.symm hi]

theorem Open.ne_current (h : b.Open block) {i : Nat} {c : Block}
    (hc : b.func.blocks[i]? = some c) (ht : c.terminator ≠ none) : i ≠ b.current := by
  rintro rfl
  rw [h.1] at hc
  cases hc
  exact ht h.2

theorem Open.ended_add (h : b.Open block) {i : Nat} {c : Block}
    (hc : (b.add op).func.blocks[i]? = some c) (ht : c.terminator ≠ none) :
    b.func.blocks[i]? = some c := by
  rcases add_cases h hc with ⟨_, hc⟩ | ⟨_, rfl⟩
  · exact hc
  · exact absurd h.2 ht

theorem terminator_of_mem_successors {c : Block} {s : Nat} (hs : s ∈ c.successors) :
    c.terminator ≠ none := by
  intro ht
  simp [Block.successors, ht] at hs

theorem Open.leaves (h : b.Open block) {v : Nat} (hv : b.Knows w v) : block.Leaves w v := by
  obtain ⟨c, hc, hv⟩ := hv
  rw [h.1] at hc
  cases hc
  exact hv

structure SameCode (b b' : Builder) : Prop where
  types : b'.func.types = b.func.types
  old : ∀ (i : Nat) (c : Block), b'.func.blocks[i]? = some c → c.instructions = [] ∨
    ∃ d, b.func.blocks[i]? = some d ∧ c.instructions = d.instructions
  kept : ∀ (i : Nat) (d : Block), b.func.blocks[i]? = some d →
    ∃ c, b'.func.blocks[i]? = some c ∧ c.instructions = d.instructions
  ended : ∀ (i : Nat) (d : Block), b.func.blocks[i]? = some d → d.terminator ≠ none →
    b'.func.blocks[i]? = some d

theorem Open.sameCode_branch (h : b.Open block) (flag : Operand) : b.SameCode (b.branch flag) where
  types := rfl
  old := by
    intro i c hc
    rcases branch_cases h hc with ⟨_, ⟨_, hc⟩ | ⟨rfl, rfl⟩⟩ | ⟨_, _, label, rfl⟩
    · exact .inr ⟨c, hc, rfl⟩
    · exact .inr ⟨block, h.1, rfl⟩
    · exact .inl rfl
  kept := by
    intro i d hd
    by_cases hi : i = b.current
    · subst hi
      rw [h.1] at hd
      cases hd
      exact ⟨_, getElem?_branch_current h flag, rfl⟩
    · exact ⟨d, getElem?_branch_of_ne hi hd, rfl⟩
  ended := fun _ _ hd ht => getElem?_branch_of_ne (h.ne_current hd ht) hd

theorem Open.sameCode_jump (h : b.Open block) (join id : Nat) : b.SameCode (b.jump join id) where
  types := rfl
  old := by
    intro i c hc
    rcases terminate_cases h hc with ⟨_, hc⟩ | ⟨rfl, rfl⟩
    · exact .inr ⟨c, hc, rfl⟩
    · exact .inr ⟨block, h.1, rfl⟩
  kept := by
    intro i d hd
    by_cases hi : i = b.current
    · subst hi
      rw [h.1] at hd
      cases hd
      exact ⟨_, jump_current h join id, rfl⟩
    · exact ⟨d, jump_of_ne hi hd, rfl⟩
  ended := fun _ _ hd ht => jump_of_ne (h.ne_current hd ht) hd

namespace SameCode

theorem mem (h : b.SameCode b') {i : Nat} {c : Block} (hc : b'.func.blocks[i]? = some c)
    {j : Instruction} (hj : j ∈ c.instructions) :
    ∃ d, b.func.blocks[i]? = some d ∧ j ∈ d.instructions := by
  rcases h.old i c hc with he | ⟨d, hd, he⟩
  · rw [he] at hj
    cases hj
  · exact ⟨d, hd, he ▸ hj⟩

theorem mem_dsts (h : b.SameCode b') {i : Nat} {c : Block} (hc : b'.func.blocks[i]? = some c)
    {v : Nat} (hv : v ∈ c.dsts) : ∃ d, b.func.blocks[i]? = some d ∧ v ∈ d.dsts := by
  obtain ⟨j, hj, rfl⟩ := List.mem_map.mp hv
  obtain ⟨d, hd, hj⟩ := h.mem hc hj
  exact ⟨d, hd, List.mem_map_of_mem hj⟩

theorem exists_dsts (h : b.SameCode b') {v : Nat}
    (hv : ∃ (j : Nat) (d : Block), b.func.blocks[j]? = some d ∧ v ∈ d.dsts) :
    ∃ (j : Nat) (c : Block), b'.func.blocks[j]? = some c ∧ v ∈ c.dsts := by
  obtain ⟨j, d, hd, hv⟩ := hv
  obtain ⟨c, hc, he⟩ := h.kept j d hd
  exact ⟨j, c, hc, by rw [Block.dsts, he]; exact hv⟩

theorem phiFrom (h : b.SameCode b') {n v : Nat} (hv : b.PhiFrom n v) : b'.PhiFrom n v := by
  intro i c hc j hj hdst hphi
  obtain ⟨d, hd, hj⟩ := h.mem hc hj
  exact hv i d hd j hj hdst hphi

end SameCode

namespace Laid

theorem dst_lt (h : b.Laid w) {i : Nat} {c : Block} (hc : b.func.blocks[i]? = some c) {v : Nat}
    (hv : v ∈ c.dsts) : v < b.func.types.length := by
  obtain ⟨j, hj, rfl⟩ := List.mem_map.mp hv
  exact (List.getElem?_eq_some_iff.mp (h.types i c hc j hj)).1

theorem leaves_lt (h : b.Laid w) {i : Nat} {c : Block} (hc : b.func.blocks[i]? = some c) {v : Nat}
    (hv : c.Leaves w v) : v < b.func.types.length := by
  rcases hv with hv | hv
  · have hid := h.numbered i c hc
    rw [hid] at hv
    obtain ⟨j, d, hd, hv⟩ := h.defined i (List.getElem?_eq_some_iff.mp hc).1 v hv
    exact h.dst_lt hd hv
  · exact h.dst_lt hc hv

theorem knows_lt (h : b.Laid w) {v : Nat} (hv : b.Knows w v) : v < b.func.types.length := by
  obtain ⟨c, hc, hv⟩ := hv
  exact h.leaves_lt hc hv

theorem phi_lt (h : b.Laid w) (hphi : op.isPhi = true)
    (havail : ∀ type incoming, op = .phi type incoming → ∀ v p, (.value v, p) ∈ incoming →
      ∃ c, b.func.blocks[p]? = some c ∧ c.terminator ≠ none ∧ c.Leaves w v) {v : Nat}
    (hv : .value v ∈ op.operands) : v < b.func.types.length := by
  cases op with
  | phi type incoming =>
    obtain ⟨⟨_, p⟩, he, rfl⟩ := List.mem_map.mp hv
    obtain ⟨c, hc, _, hleaves⟩ := havail type incoming rfl v p he
    exact h.leaves_lt hc hleaves
  | compute c => cases hphi
  | call callee args returns => cases hphi

theorem phiFrom_add (h : b.Laid w) {n v : Nat} (hlt : v < b.func.types.length)
    (hv : b.PhiFrom n v) : (b.add op).PhiFrom n v := by
  obtain ⟨block, hopen⟩ := h.isOpen
  intro i c hc j hj hdst hphi
  rcases mem_add hopen hc hj with ⟨rfl, _⟩ | ⟨d, hd, hj⟩
  · exact absurd hdst.symm (Nat.ne_of_lt hlt)
  · exact hv i d hd j hj hdst hphi

theorem disjoint_add (h : b.Laid w) (i j : Nat) (c d : Block)
    (hc : (b.add op).func.blocks[i]? = some c) (hd : (b.add op).func.blocks[j]? = some d) (v : Nat)
    (hv : v ∈ c.dsts) (hv' : v ∈ d.dsts) : i = j := by
  obtain ⟨block, hopen⟩ := h.isOpen
  have hold : ∀ (k : Nat) (e : Block), (b.add op).func.blocks[k]? = some e → v ∈ e.dsts →
      v = b.func.types.length ∧ k = b.current ∨
      ∃ e', b.func.blocks[k]? = some e' ∧ v ∈ e'.dsts := by
    intro k e he hve
    obtain ⟨l, hl, rfl⟩ := List.mem_map.mp hve
    rcases mem_add hopen he hl with ⟨rfl, hk⟩ | ⟨e', he', hl⟩
    · exact .inl ⟨rfl, hk⟩
    · exact .inr ⟨e', he', List.mem_map_of_mem hl⟩
  rcases hold i c hc hv with ⟨rfl, hi⟩ | ⟨c', hc', hv₁⟩
  · rcases hold j d hd hv' with ⟨_, hj⟩ | ⟨d', hd', hv₂⟩
    · rw [hi, hj]
    · exact absurd (h.dst_lt hd' hv₂) (Nat.lt_irrefl _)
  · rcases hold j d hd hv' with ⟨rfl, hj⟩ | ⟨d', hd', hv₂⟩
    · exact absurd (h.dst_lt hc' hv₁) (Nat.lt_irrefl _)
    · exact h.disjoint i j c' d' hc' hd' v hv₁ hv₂

theorem dsts_add (h : b.Laid w) (i : Nat) (c : Block)
    (hc : (b.add op).func.blocks[i]? = some c) : c.dsts.Nodup := by
  obtain ⟨block, hopen⟩ := h.isOpen
  rcases add_cases hopen hc with ⟨_, hc⟩ | ⟨rfl, rfl⟩
  · exact h.dsts i c hc
  · simp only [Block.dsts, List.map_append, List.map_cons, List.map_nil]
    refine List.nodup_append.mpr ⟨h.dsts _ _ hopen.1, by simp, ?_⟩
    rintro v hv _ hv' rfl
    rw [List.mem_singleton] at hv'
    exact absurd (h.dst_lt hopen.1 hv) (by omega)

theorem defined_add (h : b.Laid w) (i : Nat) (hi : i < (b.add op).func.blocks.length) (v : Nat)
    (hv : w.avail i v) :
    ∃ (j : Nat) (c : Block), (b.add op).func.blocks[j]? = some c ∧ v ∈ c.dsts := by
  obtain ⟨block, hopen⟩ := h.isOpen
  rw [length_blocks_add] at hi
  obtain ⟨j, c, hc, hvc⟩ := h.defined i hi v hv
  by_cases hj : j = b.current
  · subst hj
    rw [hopen.1] at hc
    cases hc
    refine ⟨_, _, (hopen.add op).1, ?_⟩
    simp only [Block.dsts, List.map_append, List.mem_append]
    exact .inl hvc
  · exact ⟨j, c, add_of_ne hj hc, hvc⟩

theorem scope_add (h : b.Laid w)
    (hreads : ∀ v, (⟨b.func.types.length, op⟩ : Instruction).Reads v → b.Knows w v) (i : Nat)
    (c : Block) (hc : (b.add op).func.blocks[i]? = some c) :
    Scoped (w.avail i) c.instructions := by
  obtain ⟨block, hopen⟩ := h.isOpen
  rcases add_cases hopen hc with ⟨_, hc⟩ | ⟨rfl, rfl⟩
  · exact h.scope i c hc
  · refine scoped_append.mpr ⟨h.scope _ _ hopen.1, ?_, trivial⟩
    intro v hv
    rw [← h.numbered _ _ hopen.1]
    exact hopen.leaves (hreads v hv)

theorem add (h : b.Laid w)
    (hreads : ∀ v, (⟨b.func.types.length, op⟩ : Instruction).Reads v → b.Knows w v)
    (hentry : op.isPhi = true → b.current ≠ 0)
    (havail : ∀ type incoming, op = .phi type incoming → ∀ v p, (.value v, p) ∈ incoming →
      ∃ c, b.func.blocks[p]? = some c ∧ c.terminator ≠ none ∧ c.Leaves w v)
    (horder : op.isPhi = true → ∀ v, .value v ∈ op.operands → b.PhiFrom (b.current + 1) v) :
    (b.add op).Laid w := by
  obtain ⟨block, hopen⟩ := h.isOpen
  -- the block that has grown has not ended, so all endings are old
  have hended : ∀ {i : Nat} {c : Block}, (b.add op).func.blocks[i]? = some c →
      c.terminator ≠ none → b.func.blocks[i]? = some c := fun hc ht => hopen.ended_add hc ht
  exact {
    numbered := Numbered.of_modify h.numbered (fun _ => rfl)
    isOpen := ⟨_, hopen.add op⟩
    entry := h.entry
    types := by
      intro i c hc j hj
      rw [types_add]
      rcases mem_add hopen hc hj with ⟨rfl, _⟩ | ⟨d, hd, hj⟩
      · simp [Instruction.type]
      · have ht := h.types i d hd j hj
        rw [List.getElem?_append_left (List.getElem?_eq_some_iff.mp ht).1]
        exact ht
    dsts := h.dsts_add
    disjoint := h.disjoint_add
    defined := h.defined_add
    scope := h.scope_add hreads
    exits := by
      intro i c hc t ht
      exact h.exits i c (hended hc (by simp [ht])) t ht
    branches := by
      intro i c hc
      rcases add_cases hopen hc with ⟨_, hc⟩ | ⟨_, rfl⟩
      · exact h.branches i c hc
      · simp [Block.successors, hopen.2]
    targets := by
      intro i c hc s hs
      rw [length_blocks_add]
      exact h.targets i c (hended hc (terminator_of_mem_successors hs)) s hs
    edges := fun i c hc s hs =>
      h.edges i c (hended hc (terminator_of_mem_successors hs)) s hs
    rank := fun i c hc s hs hvis =>
      h.rank i c (hended hc (terminator_of_mem_successors hs)) s hs ((visited_add hopen).mp hvis)
    latest := fun i hi => h.latest i ((visited_add hopen).mp hi)
    phiEntry := by
      intro v i c hc j hj hdst hphi
      rcases mem_add hopen hc hj with ⟨rfl, rfl⟩ | ⟨d, hd, hj⟩
      · exact Nat.pos_of_ne_zero (hentry hphi)
      · exact h.phiEntry v i d hd j hj hdst hphi
    phiAvail := by
      intro i c hc j hj type incoming he v p hp
      have hmem : ∃ d, b.func.blocks[p]? = some d ∧ d.terminator ≠ none ∧ d.Leaves w v := by
        rcases mem_add hopen hc hj with ⟨rfl, _⟩ | ⟨d, hd, hj⟩
        · exact havail type incoming he v p hp
        · exact h.phiAvail i d hd j hj type incoming he v p hp
      obtain ⟨d, hd, ht, hleaves⟩ := hmem
      exact ⟨d, add_of_ne (hopen.ne_current hd ht) hd, ht, hleaves⟩
    phiOrder := by
      intro i c hc j hj hphi v hv
      rcases mem_add hopen hc hj with ⟨rfl, rfl⟩ | ⟨d, hd, hj⟩
      · exact h.phiFrom_add (h.phi_lt hphi havail hv) (horder hphi v hv)
      · exact h.phiFrom_add (h.phi_lt hphi (h.phiAvail i d hd j hj) hv)
          (h.phiOrder i d hd j hj hphi v hv) }

section SameCode

variable {w' : Flow}

theorem types_of (hl : b.Laid w) (h : b.SameCode b') (i : Nat) (c : Block)
    (hc : b'.func.blocks[i]? = some c) (j : Instruction) (hj : j ∈ c.instructions) :
    b'.func.types[j.dst]? = some j.type := by
  obtain ⟨d, hd, hj⟩ := h.mem hc hj
  rw [h.types]
  exact hl.types i d hd j hj

theorem dsts_of (hl : b.Laid w) (h : b.SameCode b') (i : Nat) (c : Block)
    (hc : b'.func.blocks[i]? = some c) : c.dsts.Nodup := by
  rcases h.old i c hc with he | ⟨d, hd, he⟩
  · simp [Block.dsts, he]
  · rw [Block.dsts, he]
    exact hl.dsts i d hd

theorem disjoint_of (hl : b.Laid w) (h : b.SameCode b') (i j : Nat) (c d : Block)
    (hc : b'.func.blocks[i]? = some c) (hd : b'.func.blocks[j]? = some d) (v : Nat)
    (hv : v ∈ c.dsts) (hv' : v ∈ d.dsts) : i = j := by
  obtain ⟨c', hc', hv⟩ := h.mem_dsts hc hv
  obtain ⟨d', hd', hv'⟩ := h.mem_dsts hd hv'
  exact hl.disjoint i j c' d' hc' hd' v hv hv'

theorem scope_of (hl : b.Laid w) (h : b.SameCode b')
    (havail : ∀ i, i < b.func.blocks.length → w'.avail i = w.avail i) (i : Nat) (c : Block)
    (hc : b'.func.blocks[i]? = some c) : Scoped (w'.avail i) c.instructions := by
  rcases h.old i c hc with he | ⟨d, hd, he⟩
  · rw [he]
    trivial
  · rw [he, havail i (List.getElem?_eq_some_iff.mp hd).1]
    exact hl.scope i d hd

theorem phiAvail_of (hl : b.Laid w) (h : b.SameCode b')
    (havail : ∀ i, i < b.func.blocks.length → w'.avail i = w.avail i) (i : Nat) (c : Block)
    (hc : b'.func.blocks[i]? = some c) (j : Instruction) (hj : j ∈ c.instructions)
    (type : NativeType) (incoming : List (Operand × Nat)) (he : j.op = .phi type incoming)
    (v p : Nat) (hp : (.value v, p) ∈ incoming) :
    ∃ e, b'.func.blocks[p]? = some e ∧ e.terminator ≠ none ∧ e.Leaves w' v := by
  obtain ⟨d, hd, hj⟩ := h.mem hc hj
  obtain ⟨e, he, ht, hleaves⟩ := hl.phiAvail i d hd j hj type incoming he v p hp
  refine ⟨e, h.ended p e he ht, ht, ?_⟩
  rwa [Block.Leaves, havail _ (hl.numbered p e he ▸ (List.getElem?_eq_some_iff.mp he).1)]

theorem phiOrder_of (hl : b.Laid w) (h : b.SameCode b') (i : Nat) (c : Block)
    (hc : b'.func.blocks[i]? = some c) (j : Instruction) (hj : j ∈ c.instructions)
    (hphi : j.op.isPhi = true) (v : Nat) (hv : .value v ∈ j.operands) : b'.PhiFrom (i + 1) v := by
  obtain ⟨d, hd, hj⟩ := h.mem hc hj
  exact h.phiFrom (hl.phiOrder i d hd j hj hphi v hv)

end SameCode

end Laid

def branchFlow (b : Builder) (w : Flow) : Flow where
  avail i v := if i < b.func.blocks.length then w.avail i v else b.Knows w v
  rank i := if i = b.func.blocks.length then w.rank b.current + 1 else w.rank i

theorem branchFlow_avail {i : Nat} (hi : i < b.func.blocks.length) :
    (b.branchFlow w).avail i = w.avail i := by
  funext v
  simp [branchFlow, hi]

theorem branchFlow_new {i : Nat} (hi : b.func.blocks.length ≤ i) :
    (b.branchFlow w).avail i = b.Knows w := by
  funext v
  simp [branchFlow, Nat.not_lt.mpr hi]

theorem leaves_branchFlow {c : Block} (hc : c.id < b.func.blocks.length) {v : Nat} :
    c.Leaves (b.branchFlow w) v ↔ c.Leaves w v := by
  simp [Block.Leaves, branchFlow_avail hc]

theorem Laid.defined_branch (h : b.Laid w) (i : Nat) (v : Nat) (hv : (b.branchFlow w).avail i v) :
    ∃ (j : Nat) (d : Block), b.func.blocks[j]? = some d ∧ v ∈ d.dsts := by
  obtain ⟨block, hopen⟩ := h.isOpen
  by_cases hi : i < b.func.blocks.length
  · rw [branchFlow_avail hi] at hv
    exact h.defined i hi v hv
  · rw [branchFlow_new (Nat.not_lt.mp hi)] at hv
    rcases hopen.leaves hv with hv | hv
    · rw [h.numbered _ _ hopen.1] at hv
      exact h.defined _ hopen.current_lt v hv
    · exact ⟨_, _, hopen.1, hv⟩

theorem Laid.rank_branch (h : b.Laid w) {flag : Operand} (i : Nat) (c : Block)
    (hc : (b.branch flag).func.blocks[i]? = some c) (s : Nat) (hs : s ∈ c.successors)
    (hvis : (b.branch flag).Visited s) : (b.branchFlow w).rank i < (b.branchFlow w).rank s := by
  obtain ⟨block, hopen⟩ := h.isOpen
  rcases branch_cases hopen hc with ⟨hi, ⟨_, hc⟩ | ⟨rfl, rfl⟩⟩ | ⟨_, _, label, rfl⟩
  · have hslt := h.targets i c hc s hs
    have hvis : b.Visited s := (visited_branch hopen hvis).resolve_left (Nat.ne_of_lt hslt)
    simp only [branchFlow, Nat.ne_of_lt hi, Nat.ne_of_lt hslt, if_false]
    exact h.rank i c hc s hs hvis
  · simp only [Block.successors, Terminator.successors, List.mem_cons, List.not_mem_nil,
      or_false] at hs
    rcases visited_branch hopen hvis with rfl | hvis
    · simp only [branchFlow, Nat.ne_of_lt hi, if_false, if_true]
      exact Nat.lt_succ_self _
    · have hslt := hopen.lt_of_visited hvis
      omega
  · simp [Block.successors] at hs

theorem Laid.branch (h : b.Laid w) {flag : Operand} (hflag : ∀ v, flag = .value v → b.Knows w v) :
    (b.branch flag).Laid (b.branchFlow w) := by
  obtain ⟨block, hopen⟩ := h.isOpen
  have hlt := hopen.current_lt
  have hid : block.id = b.current := h.numbered _ _ hopen.1
  have hsame := hopen.sameCode_branch flag
  have havail : ∀ i, i < b.func.blocks.length → (b.branchFlow w).avail i = w.avail i :=
    fun _ hi => branchFlow_avail hi
  exact {
    numbered := numbered_branch h.numbered hlt flag
    isOpen := by
      obtain ⟨label, ho⟩ := open_branch hlt flag
      exact ⟨_, ho⟩
    entry := by
      intro v hv
      rw [branchFlow_avail (by omega)] at hv
      exact h.entry v hv
    types := h.types_of hsame
    dsts := h.dsts_of hsame
    disjoint := h.disjoint_of hsame
    defined := fun i _ v hv => hsame.exists_dsts (h.defined_branch i v hv)
    scope := h.scope_of hsame havail
    exits := by
      intro i c hc t ht v hv
      rcases branch_cases hopen hc with ⟨hi, ⟨_, hc⟩ | ⟨rfl, rfl⟩⟩ | ⟨_, _, label, rfl⟩
      · rw [leaves_branchFlow (by rw [h.numbered i c hc]; exact hi)]
        exact h.exits i c hc t ht v hv
      · rw [leaves_branchFlow (by change block.id < _; omega)]
        cases ht
        simp only [Terminator.operands, List.mem_singleton] at hv
        exact hopen.leaves (hflag v hv.symm)
      · cases ht
    branches := by
      intro i c hc
      rcases branch_cases hopen hc with ⟨_, ⟨_, hc⟩ | ⟨rfl, rfl⟩⟩ | ⟨_, _, label, rfl⟩
      · exact h.branches i c hc
      · simp [Block.successors, Terminator.successors]
      · simp [Block.successors]
    targets := by
      intro i c hc s hs
      rw [length_blocks_branch]
      rcases branch_cases hopen hc with ⟨_, ⟨_, hc⟩ | ⟨rfl, rfl⟩⟩ | ⟨_, _, label, rfl⟩
      · exact Nat.lt_add_right 3 (h.targets i c hc s hs)
      · simp only [Block.successors, Terminator.successors, List.mem_cons, List.not_mem_nil,
          or_false] at hs
        omega
      · simp [Block.successors] at hs
    edges := by
      intro i c hc s hs v hv
      rcases branch_cases hopen hc with ⟨hi, ⟨_, hc⟩ | ⟨rfl, rfl⟩⟩ | ⟨_, _, label, rfl⟩
      · rw [leaves_branchFlow (by rw [h.numbered i c hc]; exact hi)]
        rw [branchFlow_avail (h.targets i c hc s hs)] at hv
        exact h.edges i c hc s hs v hv
      · rw [leaves_branchFlow (by change block.id < _; omega)]
        simp only [Block.successors, Terminator.successors, List.mem_cons, List.not_mem_nil,
          or_false] at hs
        rw [branchFlow_new (by omega)] at hv
        exact hopen.leaves hv
      · simp [Block.successors] at hs
    rank := h.rank_branch
    latest := by
      intro i hi
      rw [show (b.branch flag).current = b.func.blocks.length from rfl]
      rcases visited_branch hopen hi with rfl | hvis
      · exact Nat.le_refl _
      · have hle := h.latest i hvis
        have hne := Nat.ne_of_lt (hopen.lt_of_visited hvis)
        simp only [branchFlow, hne, if_false, if_true]
        omega
    phiEntry := fun v => hsame.phiFrom (h.phiEntry v)
    phiAvail := h.phiAvail_of hsame havail
    phiOrder := h.phiOrder_of hsame }

def jumpFlow (b : Builder) (w : Flow) (id : Nat) : Flow :=
  { w with rank := fun i => if i = id then w.rank b.current + 1 else w.rank i }

theorem Laid.rank_jump (h : b.Laid w) {join id : Nat} {c d : Block}
    (hid : b.func.blocks[id]? = some c) (hidOpen : c.terminator = none) (hidNe : b.current ≠ id)
    (hjoin : b.func.blocks[join]? = some d) (hjoinOpen : d.terminator = none)
    (hjoinNe : b.current ≠ join) (i : Nat) (e : Block)
    (he : (b.jump join id).func.blocks[i]? = some e) (s : Nat) (hs : s ∈ e.successors)
    (hvis : (b.jump join id).Visited s) :
    (b.jumpFlow w id).rank i < (b.jumpFlow w id).rank s := by
  obtain ⟨block, hopen⟩ := h.isOpen
  -- control has got to block `i`, which has ended, and has not got to block `id` or to the join
  have hi : b.Visited i := by
    rcases terminate_cases hopen he with ⟨_, he⟩ | ⟨hi, _⟩
    · exact .inr ⟨e, he, terminator_of_mem_successors hs⟩
    · exact .inl hi
  have hne : ∀ {k}, b.Visited k → k ≠ id := by
    rintro k hk rfl
    exact not_visited hid hidOpen hidNe hk
  simp only [jumpFlow, hne hi, if_false]
  rcases visited_jump hopen hvis with rfl | hvis'
  · simp only [if_true]
    exact Nat.lt_succ_of_le (h.latest i hi)
  · simp only [hne hvis', if_false]
    rcases terminate_cases hopen he with ⟨_, he⟩ | ⟨rfl, rfl⟩
    · exact h.rank i e he s hs hvis'
    · simp only [Block.successors, Terminator.successors, List.mem_singleton] at hs
      subst hs
      exact absurd hvis' (not_visited hjoin hjoinOpen hjoinNe)

theorem Laid.jump (h : b.Laid w) {join id : Nat} {c d : Block}
    (hid : b.func.blocks[id]? = some c) (hidOpen : c.terminator = none) (hidNe : b.current ≠ id)
    (hjoin : b.func.blocks[join]? = some d) (hjoinOpen : d.terminator = none)
    (hjoinNe : b.current ≠ join) (havail : ∀ v, w.avail join v → b.Knows w v) :
    (b.jump join id).Laid (b.jumpFlow w id) := by
  obtain ⟨block, hopen⟩ := h.isOpen
  have hsame := hopen.sameCode_jump join id
  exact {
    numbered := Numbered.of_modify h.numbered (fun _ => rfl)
    isOpen := ⟨c, open_jump hid hidOpen hidNe⟩
    entry := h.entry
    types := h.types_of hsame
    dsts := h.dsts_of hsame
    disjoint := h.disjoint_of hsame
    defined := by
      intro i hi v hv
      rw [length_blocks_jump] at hi
      exact hsame.exists_dsts (h.defined i hi v hv)
    scope := h.scope_of hsame fun _ _ => rfl
    exits := by
      intro i e he t ht v hv
      rcases terminate_cases hopen he with ⟨_, he⟩ | ⟨rfl, rfl⟩
      · exact h.exits i e he t ht v hv
      · cases ht
        simp [Terminator.operands] at hv
    branches := by
      intro i e he
      rcases terminate_cases hopen he with ⟨_, he⟩ | ⟨rfl, rfl⟩
      · exact h.branches i e he
      · simp [Block.successors, Terminator.successors]
    targets := by
      intro i e he s hs
      rw [length_blocks_jump]
      rcases terminate_cases hopen he with ⟨_, he⟩ | ⟨rfl, rfl⟩
      · exact h.targets i e he s hs
      · simp only [Block.successors, Terminator.successors, List.mem_singleton] at hs
        subst hs
        exact (List.getElem?_eq_some_iff.mp hjoin).1
    edges := by
      intro i e he s hs v hv
      rcases terminate_cases hopen he with ⟨_, he⟩ | ⟨rfl, rfl⟩
      · exact h.edges i e he s hs v hv
      · simp only [Block.successors, Terminator.successors, List.mem_singleton] at hs
        subst hs
        exact hopen.leaves (havail v hv)
    rank := h.rank_jump hid hidOpen hidNe hjoin hjoinOpen hjoinNe
    latest := by
      intro i hi
      rw [show (b.jump join id).current = id from rfl]
      simp only [jumpFlow, if_true]
      rcases visited_jump hopen hi with rfl | hvis
      · simp
      · have hle := h.latest i hvis
        split
        · exact Nat.le_refl _
        · omega
    phiEntry := fun v => hsame.phiFrom (h.phiEntry v)
    phiAvail := h.phiAvail_of hsame fun _ _ => rfl
    phiOrder := h.phiOrder_of hsame }

theorem laid_start (s : Signature) : (Builder.start s).Laid ⟨fun _ _ => False, fun _ => 0⟩ := by
  have hblock : ∀ (i : Nat) (c : Block), (Builder.start s).func.blocks[i]? = some c →
      i = 0 ∧ c = { id := 0, label := "entry" } := by
    intro i c hc
    cases i with
    | zero => exact ⟨rfl, (Option.some.inj hc).symm⟩
    | succ i => simp [Builder.start] at hc
  -- the entry is empty and has not ended, so there is next to nothing to show
  have hempty : ∀ {i : Nat} {c : Block}, (Builder.start s).func.blocks[i]? = some c →
      c.instructions = [] ∧ c.terminator = none := by
    intro i c hc
    obtain ⟨_, rfl⟩ := hblock i c hc
    exact ⟨rfl, rfl⟩
  have hnothing : ∀ {i : Nat} {c : Block}, (Builder.start s).func.blocks[i]? = some c →
      ∀ {j}, j ∉ c.instructions := by
    intro i c hc j hj
    rw [(hempty hc).1] at hj
    cases hj
  have hnowhere : ∀ {i : Nat} {c : Block}, (Builder.start s).func.blocks[i]? = some c →
      ∀ {t}, t ∉ c.successors := by
    intro i c hc t ht
    exact terminator_of_mem_successors ht (hempty hc).2
  exact {
    numbered := by
      intro i c hc
      obtain ⟨rfl, rfl⟩ := hblock i c hc
      rfl
    isOpen := ⟨_, rfl, rfl⟩
    entry := fun _ hv => hv
    types := fun _ _ hc _ hj => absurd hj (hnothing hc)
    dsts := fun _ _ hc => by simp [Block.dsts, (hempty hc).1]
    disjoint := fun _ _ _ _ hc _ _ hv _ => by simp [Block.dsts, (hempty hc).1] at hv
    defined := fun _ _ _ hv => hv.elim
    scope := fun _ _ hc => by rw [(hempty hc).1]; trivial
    exits := fun _ _ hc _ ht => by rw [(hempty hc).2] at ht; cases ht
    branches := fun _ _ hc => by simp [Block.successors, (hempty hc).2]
    targets := fun _ _ hc _ hs => absurd hs (hnowhere hc)
    edges := fun _ _ hc _ hs => absurd hs (hnowhere hc)
    rank := fun _ _ hc _ hs => absurd hs (hnowhere hc)
    latest := fun _ _ => Nat.le_refl _
    phiEntry := fun _ _ _ hc _ hj => absurd hj (hnothing hc)
    phiAvail := fun _ _ hc _ hj => absurd hj (hnothing hc)
    phiOrder := fun _ _ hc _ hj => absurd hj (hnothing hc) }

end Builder

end FormCompiler
