import FormCompiler.Proofs.Code.Sound
import FormCompiler.Proofs.Lowering.Growth

namespace FormCompiler

namespace Builder

def Waits (b : Builder) (i : Nat) : Prop :=
  i ≠ b.current ∧ ∃ block, b.func.blocks[i]? = some block ∧ block.terminator = none

variable {b b' b'' b₁ b₂ : Builder} {block : Block} {flag : Operand} {n : Nat}

theorem edgesInto_changeCurrent (h : b.Open block) (change : Block → Block)
    (hid : (change block).id = block.id) (id : Nat) :
    ((b.changeCurrent change).func.edgesInto id).Perm
      (((change block).successors.filter (· == id)).map (fun _ => block.id) ++
        b.func.edgesInto id) := by
  obtain ⟨hlt, hblock⟩ := List.getElem?_eq_some_iff.mp h.1
  have hold : b.func.blocks = b.func.blocks.take b.current ++
      block :: b.func.blocks.drop (b.current + 1) := by
    rw [← hblock, List.getElem_cons_drop, List.take_append_drop]
  have hnew : (b.changeCurrent change).func.blocks = b.func.blocks.take b.current ++
      change block :: b.func.blocks.drop (b.current + 1) := by
    rw [← hblock]
    exact List.modify_eq_take_cons_drop hlt
  have hnone : block.successors = [] := by simp [Block.successors, h.2]
  simp only [Func.edgesInto]
  rw [hnew, List.flatMap_append, List.flatMap_cons, hid]
  conv => rhs; rw [hold, List.flatMap_append, List.flatMap_cons, hnone]
  exact List.perm_append_comm_assoc _ _ _

theorem edgesInto_add (h : b.Open block) (op : Operation) (id : Nat) :
    ((b.add op).func.edgesInto id).Perm (b.func.edgesInto id) := by
  have hedges := edgesInto_changeCurrent h (fun c => { c with
    instructions := c.instructions ++ [⟨b.func.types.length, op⟩] }) rfl id
  have hnone : Block.successors { block with
      instructions := block.instructions ++ [⟨b.func.types.length, op⟩] } = [] := by
    simp [Block.successors, h.2]
  rw [hnone] at hedges
  exact hedges

theorem edgesInto_terminate (h : b.Open block) (t : Terminator) (id : Nat) :
    ((b.terminate t).func.edgesInto id).Perm
      ((t.successors.filter (· == id)).map (fun _ => block.id) ++ b.func.edgesInto id) := by
  have hedges := edgesInto_changeCurrent h (fun c => { c with
    terminator := c.terminator.or (some t) }) rfl id
  simp only [Block.successors, h.2, Option.none_or] at hedges
  exact hedges

theorem edgesInto_terminate_of_notMem (h : b.Open block) {t : Terminator} {id : Nat}
    (ht : id ∉ t.successors) : ((b.terminate t).func.edgesInto id).Perm (b.func.edgesInto id) := by
  have hedges := edgesInto_terminate h t id
  have hnone : t.successors.filter (· == id) = [] := by
    rw [List.filter_eq_nil_iff]
    intro s hs he
    rw [beq_iff_eq] at he
    exact ht (he ▸ hs)
  rw [hnone] at hedges
  exact hedges

theorem edgesInto_branch (h : b.Open block) (flag : Operand) {id : Nat}
    (h₁ : id ≠ b.func.blocks.length) (h₂ : id ≠ b.func.blocks.length + 1) :
    ((b.branch flag).func.edgesInto id).Perm (b.func.edgesInto id) := by
  -- the new blocks come first and lead nowhere
  have happend : ∀ (b : Builder) (label : String),
      (b.appendBlock label).2.func.edgesInto id = b.func.edgesInto id := by
    intro b label
    simp [Func.edgesInto, appendBlock, Block.successors]
  have hopen : ∀ {b : Builder} (label : String), b.Open block →
      (b.appendBlock label).2.Open block := by
    intro b label hb
    refine ⟨?_, hb.2⟩
    simp only [appendBlock]
    rw [List.getElem?_append_left hb.current_lt]
    exact hb.1
  have hedges := edgesInto_terminate_of_notMem (hopen "ifcont" (hopen "else" (hopen "then" h)))
    (t := .condBr flag b.func.blocks.length (b.func.blocks.length + 1))
    (show id ∉ _ by simp [Terminator.successors, h₁, h₂])
  simp only [happend] at hedges
  exact hedges

theorem edgesInto_jump (h : b.Open block) {join id next : Nat} (hne : id ≠ join) :
    ((b.jump join next).func.edgesInto id).Perm (b.func.edgesInto id) :=
  edgesInto_terminate_of_notMem h (by simp [Terminator.successors, hne])

theorem edgesInto_jump_self (h : b.Open block) (hn : b.func.Numbered) (join next : Nat) :
    ((b.jump join next).func.edgesInto join).Perm (b.current :: b.func.edgesInto join) := by
  have hedges := edgesInto_terminate h (.br join) join
  simp only [Terminator.successors, hn _ _ h.1, List.filter_cons_of_pos, beq_self_eq_true,
    List.filter_nil, List.map_cons, List.map_nil, List.cons_append, List.nil_append] at hedges
  exact hedges

structure Settles (b b' : Builder) : Prop where
  grows : b.Grows b'
  edges : ∀ id, id < b.func.blocks.length → (b'.func.edgesInto id).Perm (b.func.edgesInto id)
  waits : ∀ i, b'.Waits i → b.Waits i

theorem Settles.refl (h : b.Open block) : b.Settles b :=
  ⟨.refl h, fun _ _ => .refl _, fun _ hi => hi⟩

theorem Settles.trans (h : b.Settles b') (h' : b'.Settles b'') : b.Settles b'' := by
  refine ⟨h.grows.trans h'.grows, ?_, fun i hi => h.waits i (h'.waits i hi)⟩
  intro id hid
  exact (h'.edges id (Nat.lt_of_lt_of_le hid h.grows.length)).trans (h.edges id hid)

theorem Open.settles_add (h : b.Open block) (op : Operation) : b.Settles (b.add op) := by
  refine ⟨h.grows_add op, fun id _ => edgesInto_add h op id, ?_⟩
  rintro i ⟨hi, c, hc, ht⟩
  have hne : b.current ≠ i := Ne.symm hi
  rw [getElem?_add] at hc
  simp only [hne, if_false, id_map'] at hc
  exact ⟨hi, c, hc, ht⟩

theorem Open.settles_of_eq (h : b.Open block) {op : Operation} (he : b' = b.add op) :
    b.Settles b' := by
  subst he
  exact h.settles_add op

theorem waits_branch {i : Nat} (hi : (b.branch flag).Waits i) :
    b.Waits i ∨ i = b.func.blocks.length + 1 ∨ i = b.func.blocks.length + 2 := by
  obtain ⟨hne, c, hc, ht⟩ := hi
  by_cases hlt : i < b.func.blocks.length
  · left
    rw [getElem?_branch_of_lt b flag hlt, getElem?_terminate] at hc
    obtain ⟨d, hd, rfl⟩ := Option.map_eq_some_iff.mp hc
    by_cases hcurrent : b.current = i
    · simp only [hcurrent, if_true, Option.or_eq_none_iff, reduceCtorEq, and_false] at ht
    · simp only [hcurrent, if_false] at ht
      exact ⟨Ne.symm hcurrent, d, hd, ht⟩
  · right
    have hbound := (List.getElem?_eq_some_iff.mp hc).1
    rw [length_blocks_branch] at hbound
    have hfirst : i ≠ b.func.blocks.length := hne
    omega

theorem waits_jump {join next i : Nat} (hi : (b.jump join next).Waits i) :
    b.Waits i ∧ i ≠ next := by
  obtain ⟨hne, c, hc, ht⟩ := hi
  change (b.terminate (.br join)).func.blocks[i]? = some c at hc
  rw [getElem?_terminate] at hc
  obtain ⟨d, hd, rfl⟩ := Option.map_eq_some_iff.mp hc
  by_cases hcurrent : b.current = i
  · simp only [hcurrent, if_true, Option.or_eq_none_iff, reduceCtorEq, and_false] at ht
  · simp only [hcurrent, if_false] at ht
    exact ⟨⟨Ne.symm hcurrent, d, hd, ht⟩, hne⟩

theorem settles_diamond (hb : b.Open block) (hn : n = b.func.blocks.length)
    (h₁ : (b.branch flag).Settles b₁) (h₂ : (b₁.jump (n + 2) (n + 1)).Settles b₂) :
    b.Settles (b₂.jump (n + 2) (n + 2)) := by
  obtain ⟨_, ho₁⟩ := h₁.grows.isOpen
  obtain ⟨_, ho₂⟩ := h₂.grows.isOpen
  have hl₁ := h₁.grows.length
  rw [length_blocks_branch] at hl₁
  refine ⟨grows_diamond hb hn h₁.grows h₂.grows, ?_, ?_⟩
  · intro id hid
    have hthen := h₁.edges id (by rw [length_blocks_branch]; omega)
    have helse := h₂.edges id (by rw [length_blocks_jump]; omega)
    exact (edgesInto_jump ho₂ (by omega)).trans (helse.trans ((edgesInto_jump ho₁ (by omega)).trans
      (hthen.trans (edgesInto_branch hb flag (by omega) (by omega)))))
  · intro i hi
    obtain ⟨hi, hjoin⟩ := waits_jump hi
    obtain ⟨hi, helse⟩ := waits_jump (h₂.waits i hi)
    rcases waits_branch (h₁.waits i hi) with hi | hi | hi
    · exact hi
    · exact absurd (hn ▸ hi) helse
    · exact absurd (hn ▸ hi) hjoin

theorem edgesInto_join (hb : b.Open block) (hnum : b.func.Numbered)
    (hn : n = b.func.blocks.length) (hnew : b.func.edgesInto (n + 2) = [])
    (h₁ : (b.branch flag).Settles b₁) (h₂ : (b₁.jump (n + 2) (n + 1)).Settles b₂) :
    [b₁.current, b₂.current].Perm ((b₂.jump (n + 2) (n + 2)).func.edgesInto (n + 2)) := by
  obtain ⟨_, ho₁⟩ := h₁.grows.isOpen
  obtain ⟨_, ho₂⟩ := h₂.grows.isOpen
  have hl₁ := h₁.grows.length
  rw [length_blocks_branch] at hl₁
  have hnum₁ := h₁.grows.numbered (numbered_branch hnum hb.current_lt flag)
  have hnum₂ := h₂.grows.numbered (Numbered.of_modify hnum₁ (fun _ => rfl))
  have hbranch : (b.branch flag).func.edgesInto (n + 2) = [] := by
    have hne : n + 2 ≠ b.func.blocks.length ∧ n + 2 ≠ b.func.blocks.length + 1 := by omega
    have hperm := edgesInto_branch hb flag hne.1 hne.2
    rw [hnew] at hperm
    exact hperm.eq_nil
  have hthen := h₁.edges (n + 2) (by rw [length_blocks_branch]; omega)
  rw [hbranch] at hthen
  have helse := h₂.edges (n + 2) (by rw [length_blocks_jump]; omega)
  calc [b₁.current, b₂.current]
    _ |>.Perm [b₂.current, b₁.current] := List.Perm.swap _ _ _
    _ |>.Perm (b₂.current :: (b₁.jump (n + 2) (n + 1)).func.edgesInto (n + 2)) := by
      refine .cons _ (List.Perm.symm ?_)
      exact (edgesInto_jump_self ho₁ hnum₁ _ _).trans (.cons _ hthen)
    _ |>.Perm (b₂.current :: b₂.func.edgesInto (n + 2)) := .cons _ helse.symm
    _ |>.Perm _ := (edgesInto_jump_self ho₂ hnum₂ _ _).symm

end Builder

open Builder

variable {b b' : Builder} {block : Block}

theorem Coerced.settles {o o' : Operand} {target : NativeType} (h : Coerced b o target o' b')
    (hb : b.Open block) : b.Settles b' := by
  cases h with
  | identity => exact .refl hb
  | cast => exact hb.settles_add _

theorem Operated.settles {unsignedCompare : Bool} {op : BinaryOp} {l r o : Operand}
    {type : NativeType} (h : Operated unsignedCompare b op l r type o b') (hb : b.Open block) :
    b.Settles b' := by
  cases h with
  | float => exact hb.settles_add _
  | int => exact hb.settles_add _
  | floatTest _ _ h =>
    have h₁ := hb.settles_of_eq h
    exact h₁.trans (h₁.grows.isOpen.choose_spec.settles_add _)
  | intTest _ _ h =>
    have h₁ := hb.settles_of_eq h
    exact h₁.trans (h₁.grows.isOpen.choose_spec.settles_add _)

theorem Lowered.settles {x : LowerScope} {task : LowerTask} {os : List Operand}
    (h : Lowered x task b os b') {block : Block} (hb : b.Open block) : b.Settles b' := by
  induction h generalizing block with
  | int => exact .refl hb
  | float => exact .refl hb
  | var => exact .refl hb
  | binary _ _ hc ho ihl ihr =>
    have h₁ := ihl hb
    have h₂ := h₁.trans (ihr h₁.grows.isOpen.choose_spec)
    have h₃ := h₂.trans (hc.settles h₂.grows.isOpen.choose_spec)
    exact h₃.trans (ho.settles h₃.grows.isOpen.choose_spec)
  | call _ _ _ ih =>
    have h₁ := ih hb
    exact h₁.trans (h₁.grows.isOpen.choose_spec.settles_add _)
  | cond _ hc hb₃ hn _ _ _ he ihc iht ihe =>
    have h₁ := ihc hb
    have h₂ := h₁.trans (hc.settles h₁.grows.isOpen.choose_spec)
    have h₃ := h₂.trans (h₂.grows.isOpen.choose_spec.settles_of_eq hb₃)
    obtain ⟨_, hopen⟩ := h₃.grows.isOpen
    obtain ⟨_, hthen⟩ := open_branch hopen.current_lt _
    have h₄ := iht hthen
    obtain ⟨_, helse⟩ := open_else hopen.current_lt hn h₄.grows
    have h₅ := ihe helse
    have h₆ := h₅.trans (he.settles h₅.grows.isOpen.choose_spec)
    have h₇ := h₃.trans (settles_diamond hopen hn h₄ h₆)
    exact h₇.trans (h₇.grows.isOpen.choose_spec.settles_add _)
  | nil => exact .refl hb
  | cons _ hc _ ihe ihes =>
    have h₁ := ihe hb
    have h₂ := h₁.trans (hc.settles h₁.grows.isOpen.choose_spec)
    exact h₂.trans (ihes h₂.grows.isOpen.choose_spec)

end FormCompiler
