import FormCompiler.Proofs.Pass.Collapse
import FormCompiler.Proofs.Pass.Join

namespace FormCompiler

namespace ControlFlow

variable {f : Func} {w : Flow} {a n b : Block}

theorem joinable?_eq_some (hb : b ∈ f.blocks) (hs : f.Regular) {id target : Nat}
    (h : joinable? f b = some (id, target)) :
    ∃ n, f.block? target = some n ∧ f.Joins b n ∧ id = b.id ∧ target = n.id := by
  unfold joinable? at h
  split at h
  next target' ht =>
    cases hn : f.block? target' with
    | none =>
      rw [hn] at h
      cases h
    | some n =>
      obtain ⟨hmem, rfl⟩ := hs.block?_eq_some.mp hn
      rw [hn] at h
      simp only [Option.bind_eq_bind, Option.bind_some] at h
      split at h
      · cases h
      next hc =>
        cases h
        simp only [Bool.or_eq_true, not_or, beq_iff_eq, bne_iff_ne, ne_eq, Classical.not_not,
          Bool.not_eq_true, List.any_eq_false] at hc
        obtain ⟨⟨⟨hself, hentry⟩, hclear⟩, hsole⟩ := hc
        refine ⟨n, hn, ⟨hb, hmem, ht, hself, ?_, hclear, ?_⟩, rfl, rfl⟩
        · intro he
          rw [hs.entry, he] at hentry
          exact hentry rfl
        · intro c hc hsucc
          have hpred : c.id ∈ f.predecessors n.id := by
            refine List.mem_map_of_mem (List.mem_filter.mpr ⟨hc, ?_⟩)
            simpa using hsucc
          rw [hsole] at hpred
          exact List.mem_singleton.mp hpred
  next => cases h

theorem eraseBlock_eq_filter {bs : List Block} (hn : (bs.map Block.id).Nodup) (id : Nat) :
    eraseBlock id bs = bs.filter fun b => b.id != id := by
  induction bs with
  | nil => rfl
  | cons b bs ih =>
    obtain ⟨hb, hn⟩ := List.nodup_cons.mp hn
    rw [eraseBlock]
    split
    next he =>
      rw [List.filter_cons_of_neg (by simp [he])]
      refine (List.filter_eq_self.mpr ?_).symm
      intro c hc
      simp only [bne_iff_ne]
      rintro rfl
      exact hb (he ▸ List.mem_map_of_mem hc)
    next he => rw [List.filter_cons_of_pos (by simpa using he), ih hn]

theorem foldl_update (change : Block → Block) (hid : ∀ b, (change b).id = b.id)
    (htwice : ∀ b, change (change b) = change b) (ids : List Nat) {f : Func}
    (hn : (f.blocks.map Block.id).Nodup) :
    ids.foldl (fun g s => g.updateBlock s change) f =
      f.mapBlocks fun b => if b.id ∈ ids then change b else b := by
  induction ids generalizing f with
  | nil => simp [Func.mapBlocks]
  | cons s ids ih =>
    have hupdate : f.updateBlock s change =
        f.mapBlocks fun b => if b.id = s then change b else b := by
      rw [Func.updateBlock, Block.update_eq_map hn, Func.mapBlocks]
    have hsame : ((f.updateBlock s change).blocks.map Block.id) = f.blocks.map Block.id := by
      rw [hupdate, Func.mapBlocks, List.map_map]
      refine List.map_congr_left ?_
      intro b _
      rw [Function.comp_apply]
      split
      · exact hid b
      · rfl
    rw [List.foldl_cons, ih (hsame ▸ hn), hupdate]
    simp only [Func.mapBlocks, List.map_map]
    congr 1
    refine List.map_congr_left ?_
    intro b _
    rw [Function.comp_apply]
    by_cases he : b.id = s
    · simp only [he, if_true, hid, List.mem_cons, true_or, htwice, ite_self]
    · simp [he]

theorem retarget_eq (a n b : Block) :
    retarget n.id a.id b = b.mapEdges (relabelEdges a n) := by
  have hedges : (fun es : List (Operand × Nat) => es.map fun e =>
      if e.2 = n.id then (e.1, a.id) else e) = relabelEdges a n := by
    funext es
    refine List.map_congr_left ?_
    intro e _
    simp only [relabel]
    split <;> rfl
  rw [retarget, hedges]

theorem retarget_retarget {id next : Nat} (hne : next ≠ id) (b : Block) :
    retarget next id (retarget next id b) = retarget next id b := by
  have htwice : ∀ e : Operand × Nat, (if (if e.2 = next then (e.1, id) else e).2 = next then
      ((if e.2 = next then (e.1, id) else e).1, id) else if e.2 = next then (e.1, id) else e) =
      if e.2 = next then (e.1, id) else e := by
    intro e
    by_cases he : e.2 = next
    · simp [he, Ne.symm hne]
    · simp [he]
  simp only [retarget, Block.mapEdges, List.map_map, Function.comp_def,
    Instruction.mapEdges_mapEdges, htwice]

theorem mapEdges_relabel (hs : f.Regular) (he : f.Edged) (hn : n ∈ f.blocks) (hb : b ∈ f.blocks)
    (hsucc : b.id ∉ n.successors) {i : Instruction} (hi : i ∈ b.instructions) :
    i.mapEdges (relabelEdges a n) = i := by
  obtain ⟨dst, op⟩ := i
  cases op with
  | compute c => rfl
  | call callee args returns => rfl
  | phi type incoming =>
    have hsame : relabelEdges a n incoming = incoming := by
      refine (List.map_congr_left ?_).trans (List.map_id' incoming)
      intro e hmem
      have hp := (he b hb _ hi type incoming rfl).mem_iff.mp (List.mem_map_of_mem hmem)
      obtain ⟨c, hc, hsucc', hid⟩ := Func.mem_edgesInto.mp hp
      have hne : e.2 ≠ n.id := by
        intro hen
        rw [hs.eq_of_id hc hn (hid.trans hen)] at hsucc'
        exact hsucc hsucc'
      simp [relabel, hne]
    simp [Instruction.mapEdges, Operation.mapEdges, hsame]

theorem instructions_relabel (hs : f.Regular) (he : f.Edged) (hn : n ∈ f.blocks)
    (hb : b ∈ f.blocks) (hsucc : b.id ∉ n.successors) :
    b.instructions.map (·.mapEdges (relabelEdges a n)) = b.instructions :=
  (List.map_congr_left fun _ hi => mapEdges_relabel hs he hn hb hsucc hi).trans (List.map_id' _)

def append (a n b : Block) : Block :=
  if b.id = a.id then
    { b with instructions := b.instructions ++ n.instructions, terminator := n.terminator }
  else b

@[simp] theorem id_append (a n b : Block) : (append a n b).id = b.id := by
  unfold append
  split <;> rfl

theorem joined_eq (hj : f.Joins a n) (hs : f.Regular) (he : f.Edged) (hb : b ∈ f.blocks) :
    Block.joined a n b =
      if b.id ∈ n.successors then retarget n.id a.id (append a n b) else append a n b := by
  rw [retarget_eq]
  have hn : n.instructions.map (·.mapEdges (relabelEdges a n)) = n.instructions := by
    refine (List.map_congr_left fun i hi => ?_).trans (List.map_id' _)
    rw [Instruction.mapEdges, Operation.mapEdges_of_not_phi (hj.clear i hi)]
  unfold append Block.joined Block.mapEdges
  by_cases hsucc : b.id ∈ n.successors
  · rw [if_pos hsucc]
    by_cases ha : b.id = a.id <;> simp only [ha, if_true, if_false]
  · have hsame := instructions_relabel (a := a) hs he hj.target hb hsucc
    rw [if_neg hsucc]
    by_cases ha : b.id = a.id
    · simp only [ha, if_true, List.map_append, hsame, hn]
    · simp only [ha, if_false, hsame]

theorem join_eq (hj : f.Joins a n) (hs : f.Regular) (he : f.Edged) :
    join f a.id n.id = f.joined a n := by
  have hn := hs.block?_eq_some.mpr ⟨hj.target, rfl⟩
  have hids : ((f.blocks.filter fun b => b.id != n.id).map Block.id).Nodup :=
    hs.nodup_ids.sublist (List.filter_sublist.map _)
  have happended : Block.update a.id (fun b => { b with
      instructions := b.instructions ++ n.instructions, terminator := n.terminator })
      (eraseBlock n.id f.blocks) =
        (f.blocks.filter fun b => b.id != n.id).map (append a n) := by
    rw [eraseBlock_eq_filter hs.nodup_ids, Block.update_eq_map hids]
    rfl
  unfold join
  rw [hn]
  simp only
  rw [foldl_update (retarget n.id a.id) (fun _ => rfl) (retarget_retarget hj.ne)]
  · rw [Func.updateBlock, happended, Func.mapBlocks, List.map_map, Func.joined]
    congr 1
    refine List.map_congr_left ?_
    intro b hb
    rw [Function.comp_apply, id_append, joined_eq hj hs he (List.mem_filter.mp hb).1]
  · rw [Func.updateBlock, happended, List.map_map]
    have hsame : Block.id ∘ append a n = Block.id := funext (id_append a n)
    rw [hsame]
    exact hids

theorem correct_joinOnce : Transformation.Correct joinOnce := by
  intro f w h
  unfold joinOnce
  split
  next => exact .refl h
  next id next hfind =>
    obtain ⟨b, hb, hjoin⟩ := List.exists_of_findSome?_eq_some hfind
    obtain ⟨n, _, hj, rfl, rfl⟩ := joinable?_eq_some hb h.shaped.toRegular hjoin
    rw [join_eq hj h.shaped.toRegular h.phis.edges]
    exact hj.improves h

theorem correct_run : Transformation.Correct run :=
  (correct_decideBranches.andThen (correct_dropUnreachable.andThen
    (correct_collapsePhis.andThen correct_joinOnce.exhaust))).exhaust

end ControlFlow

theorem Pass.correct_run (p : Pass) : Transformation.Correct p.run := by
  cases p with
  | constantFolding => exact ConstantFolding.correct_round.exhaust
  | deadCode => exact DeadCode.correct_round.exhaust
  | controlFlow => exact ControlFlow.correct_run

theorem Pass.correct_runAll (ps : List Pass) : Transformation.Correct (Pass.runAll ps) := by
  induction ps with
  | nil => exact fun f w h => .refl h
  | cons p ps ih => exact p.correct_run.andThen ih

end FormCompiler
