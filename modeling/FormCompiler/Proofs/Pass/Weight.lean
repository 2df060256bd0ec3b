import Mathlib
import FormCompiler.Pass.ControlFlow
import FormCompiler.Proofs.Pass.Settle

namespace FormCompiler

namespace Block

def weight (b : Block) : Nat :=
  1 + b.instructions.length + match b.terminator with
    | some (.condBr ..) => 1
    | _ => 0

theorem weight_pos (b : Block) : 0 < b.weight := by
  unfold weight
  omega

theorem weight_mapEdges (change : List (Operand × Nat) → List (Operand × Nat)) (b : Block) :
    (b.mapEdges change).weight = b.weight := by
  simp [weight, mapEdges]

theorem weight_mapOperands (change : Operand → Operand) (b : Block) :
    (b.mapOperands change).weight = b.weight := by
  obtain ⟨id, label, instructions, terminator⟩ := b
  rcases terminator with _ | t
  · simp [weight, mapOperands]
  · cases t <;> simp [weight, mapOperands, Terminator.mapOperands]

theorem weight_filter_le (keep : Instruction → Bool) (b : Block) :
    ({ b with instructions := b.instructions.filter keep } : Block).weight ≤ b.weight := by
  have hlength := List.length_filter_le keep b.instructions
  simp only [weight]
  omega

end Block

namespace Func

variable {f : Func}

theorem weight_eq (f : Func) : f.weight = (f.blocks.map Block.weight).sum := by
  obtain ⟨signature, blocks, types⟩ := f
  simp only [weight, instructionCount, instructions, branchCount]
  induction blocks with
  | nil => rfl
  | cons b bs ih =>
    rw [List.map_cons, List.sum_cons, ← ih, List.flatMap_cons, List.length_append,
      List.length_cons, List.countP_cons, Block.weight]
    rcases b.terminator with _ | t
    · simp only [Bool.false_eq_true, if_false]
      omega
    · cases t <;> simp only [Bool.false_eq_true, if_false, if_true] <;> omega

theorem weight_mapBlocks_le {change : Block → Block}
    (h : ∀ b ∈ f.blocks, (change b).weight ≤ b.weight) :
    (f.mapBlocks change).weight ≤ f.weight := by
  rw [weight_eq, weight_eq, mapBlocks, List.map_map]
  exact List.sum_le_sum h

theorem weight_mapBlocks_lt {change : Block → Block}
    (h : ∀ b ∈ f.blocks, (change b).weight ≤ b.weight)
    (hlt : ∃ b ∈ f.blocks, (change b).weight < b.weight) :
    (f.mapBlocks change).weight < f.weight := by
  rw [weight_eq, weight_eq, mapBlocks, List.map_map]
  exact List.sum_lt_sum _ _ h hlt

theorem weight_filterInstructions_le (keep : Instruction → Bool) :
    (f.filterInstructions keep).weight ≤ f.weight :=
  weight_mapBlocks_le fun b _ => b.weight_filter_le keep

theorem weight_filterInstructions_lt {keep : Instruction → Bool} {i : Instruction}
    (hi : i ∈ f.instructions) (hk : keep i = false) :
    (f.filterInstructions keep).weight < f.weight := by
  obtain ⟨b, hb, hi⟩ := List.mem_flatMap.mp hi
  have hlength : (b.instructions.filter keep).length < b.instructions.length :=
    List.length_filter_lt_length_iff_exists.mpr ⟨i, hi, Bool.eq_false_iff.mp hk⟩
  refine weight_mapBlocks_lt (fun b _ => b.weight_filter_le keep) ⟨b, hb, ?_⟩
  simp only [Block.weight]
  omega

theorem weight_mapBlocks_eq {change : Block → Block} (h : ∀ b, (change b).weight = b.weight) :
    (f.mapBlocks change).weight = f.weight := by
  rw [weight_eq, weight_eq, mapBlocks, List.map_map]
  exact congrArg List.sum (List.map_congr_left fun b _ => h b)

end Func

theorem Block.sum_update_le (id extra : Nat) {change : Block → Block} (bs : List Block)
    (h : ∀ b, (change b).weight ≤ b.weight + extra) :
    ((Block.update id change bs).map Block.weight).sum ≤ (bs.map Block.weight).sum + extra := by
  induction bs with
  | nil => exact Nat.zero_le _
  | cons b bs ih =>
    have hb := h b
    rw [Block.update]
    split
    · simp only [List.map_cons, List.sum_cons]
      omega
    · simp only [List.map_cons, List.sum_cons]
      omega

namespace Func

theorem weight_updateBlock_le {f : Func} (id extra : Nat) {change : Block → Block}
    (h : ∀ b, (change b).weight ≤ b.weight + extra) :
    (f.updateBlock id change).weight ≤ f.weight + extra := by
  rw [weight_eq, weight_eq]
  exact Block.sum_update_le id extra f.blocks h

theorem weight_foldl_le {α : Type} {step : Func → α → Func}
    (h : ∀ g a, (step g a).weight ≤ g.weight) (as : List α) (f : Func) :
    (as.foldl step f).weight ≤ f.weight := by
  induction as generalizing f with
  | nil => exact Nat.le_refl _
  | cons a as ih => exact Nat.le_trans (ih _) (h f a)

end Func

namespace ControlFlow

variable {f : Func}

theorem weight_settleBranch_le (b : Block) : (settleBranch b).weight ≤ b.weight := by
  unfold settleBranch
  split
  · simp only [Block.weight]
    omega
  · exact Nat.le_refl _

theorem weight_settleBranch_lt {b : Block} {target other : Nat}
    (h : decided? b.terminator = some (target, other)) : (settleBranch b).weight < b.weight := by
  obtain ⟨id, label, instructions, terminator⟩ := b
  rcases terminator with _ | ⟨⟨⟩ | _ | ⟨⟨c⟩ | _ | _, _, _⟩⟩
  all_goals first
    | cases h
    | skip
  cases c with
  | i1 taken =>
    simp only [settleBranch, decided?, Block.weight]
    omega
  | i32 n => cases h
  | f64 x => cases h

theorem eases_decideBranches : decideBranches.Eases := by
  have hdropped (f : Func) :
      (decideBranches f).func.weight ≤ (f.mapBlocks settleBranch).weight := by
    refine Func.weight_foldl_le ?_ _ _
    intro g e
    exact Func.weight_updateBlock_le e.2 0 fun b => (Block.weight_mapEdges _ b).le
  have hsettled (f : Func) := Func.weight_mapBlocks_le fun b (_ : b ∈ f.blocks) =>
    weight_settleBranch_le b
  refine ⟨fun f => Nat.le_trans (hdropped f) (hsettled f), ?_⟩
  intro f hc
  refine Nat.lt_of_le_of_lt (hdropped f) ?_
  refine Func.weight_mapBlocks_lt (fun b _ => weight_settleBranch_le b) ?_
  have hne : droppedEdges f ≠ [] := by
    intro hnil
    simp [decideBranches, hnil] at hc
  obtain ⟨e, he⟩ := List.exists_mem_of_ne_nil _ hne
  obtain ⟨b, hb, hd⟩ := List.mem_filterMap.mp he
  refine ⟨b, hb, ?_⟩
  cases hdecided : decided? b.terminator with
  | none =>
    rw [hdecided] at hd
    cases hd
  | some e => exact weight_settleBranch_lt hdecided

theorem eases_dropUnreachable : dropUnreachable.Eases := by
  have hfilter (f : Func) (keep : Block → Bool) (ids : List Nat) :
      (({ f with blocks := f.blocks.filter keep } : Func).mapBlocks (withoutEdgesFrom ids)).weight =
        ((f.blocks.filter keep).map Block.weight).sum := by
    rw [Func.weight_mapBlocks_eq, Func.weight_eq]
    exact fun b => Block.weight_mapEdges _ b
  have hle (f : Func) (keep : Block → Bool) :
      ((f.blocks.filter keep).map Block.weight).sum ≤ f.weight := by
    rw [Func.weight_eq]
    exact (List.filter_sublist.map Block.weight).sum_le_sum fun _ _ => Nat.zero_le _
  refine ⟨?_, ?_⟩
  · intro f
    unfold dropUnreachable
    simp only
    split
    · exact Nat.le_refl _
    · rw [hfilter]
      exact hle f _
  · intro f hc
    unfold dropUnreachable at hc ⊢
    simp only at hc ⊢
    split at hc
    · cases hc
    next hdead =>
      rw [if_neg hdead, hfilter, Func.weight_eq]
      simp only [Bool.or_eq_true, not_or, Bool.not_eq_true, List.isEmpty_eq_false_iff] at hdead
      obtain ⟨id, hid⟩ := List.exists_mem_of_ne_nil _ hdead.2
      obtain ⟨hid, hunreached⟩ := List.mem_filter.mp hid
      obtain ⟨b, hb, rfl⟩ := List.mem_map.mp hid
      -- the block that goes has a weight of its own
      obtain ⟨before, after, hblocks⟩ := List.append_of_mem hb
      have hgone : b.id ∉ reachable f := by simpa using hunreached
      have hbefore := (List.filter_sublist (l := before)
        (p := fun b => (reachable f).contains b.id)).map Block.weight
      have hafter := (List.filter_sublist (l := after)
        (p := fun b => (reachable f).contains b.id)).map Block.weight
      have hbefore := hbefore.sum_le_sum fun _ _ => Nat.zero_le _
      have hafter := hafter.sum_le_sum fun _ _ => Nat.zero_le _
      have hpos := b.weight_pos
      rw [hblocks, List.filter_append, List.filter_cons_of_neg (by simpa using hgone)]
      simp only [List.map_append, List.map_cons, List.sum_append, List.sum_cons] at hbefore hafter ⊢
      omega

theorem eases_collapsePhis : collapsePhis.Eases := by
  have hreplaced (f : Func) : (collapsePhis f).func.weight ≤
      (f.filterInstructions fun i => (trivial? i).isNone).weight := by
    refine Func.weight_foldl_le ?_ _ _
    intro g e
    exact Func.weight_mapBlocks_le fun b _ => (Block.weight_mapOperands _ b).le
  refine ⟨fun f => Nat.le_trans (hreplaced f) (Func.weight_filterInstructions_le _), ?_⟩
  intro f hc
  have hne : (f.instructions.filterMap fun i => (trivial? i).map fun o => (i.dst, o)) ≠ [] := by
    intro hnil
    simp [collapsePhis, hnil] at hc
  obtain ⟨e, he⟩ := List.exists_mem_of_ne_nil _ hne
  obtain ⟨i, hi, hfound⟩ := List.mem_filterMap.mp he
  obtain ⟨o, ho, _⟩ := Option.map_eq_some_iff.mp hfound
  refine Nat.lt_of_le_of_lt (hreplaced f) (Func.weight_filterInstructions_lt hi ?_)
  rw [ho]
  rfl

theorem sum_eraseBlock {bs : List Block} {next : Nat} {b : Block}
    (hb : bs.find? (·.id == next) = some b) :
    ((eraseBlock next bs).map Block.weight).sum + b.weight = (bs.map Block.weight).sum := by
  induction bs with
  | nil => cases hb
  | cons c bs ih =>
    rw [eraseBlock]
    by_cases hid : c.id = next
    · rw [List.find?_cons_of_pos (by simpa using hid)] at hb
      cases hb
      rw [if_pos hid, List.map_cons, List.sum_cons, Nat.add_comm]
    · rw [List.find?_cons_of_neg (by simpa using hid)] at hb
      rw [if_neg hid, List.map_cons, List.map_cons, List.sum_cons, List.sum_cons, ← ih hb]
      omega

theorem weight_join_lt {id next : Nat} {b : Block} (hb : f.block? next = some b) :
    (join f id next).weight < f.weight := by
  unfold join
  rw [hb]
  simp only
  refine Nat.lt_of_le_of_lt (Func.weight_foldl_le ?_ _ _) ?_
  · intro g s
    exact Func.weight_updateBlock_le s 0 fun b => (Block.weight_mapEdges _ b).le
  · have hpos := b.weight_pos
    have herased := sum_eraseBlock hb
    refine Nat.lt_of_le_of_lt (Func.weight_updateBlock_le id (b.weight - 1) ?_) ?_
    · intro a
      simp only [Block.weight, List.length_append]
      omega
    · rw [Func.weight_eq, Func.weight_eq]
      simp only
      omega

theorem eases_joinOnce : joinOnce.Eases := by
  have hjoined (f : Func) {id next : Nat} (h : f.blocks.findSome? (joinable? f) = some (id, next)) :
      (join f id next).weight < f.weight := by
    obtain ⟨b, _, hb⟩ := List.exists_of_findSome?_eq_some h
    unfold joinable? at hb
    split at hb
    next target _ =>
      cases hn : f.block? target with
      | none =>
        rw [hn] at hb
        cases hb
      | some n =>
        rw [hn] at hb
        simp only [Option.bind_eq_bind, Option.bind_some] at hb
        split at hb
        · cases hb
        · cases hb
          exact weight_join_lt hn
    next => cases hb
  refine ⟨?_, ?_⟩
  · intro f
    unfold joinOnce
    split
    · exact Nat.le_refl _
    next h => exact (hjoined f h).le
  · intro f hc
    unfold joinOnce at hc ⊢
    split at hc
    · cases hc
    next h => exact hjoined f h

theorem eases_round : round.Eases :=
  eases_decideBranches.andThen (eases_dropUnreachable.andThen
    (eases_collapsePhis.andThen eases_joinOnce.exhaust))

end ControlFlow

end FormCompiler
