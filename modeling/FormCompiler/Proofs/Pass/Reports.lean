import FormCompiler.Pass.Pipeline
import FormCompiler.Proofs.Pass.DeadCode
import FormCompiler.Proofs.Pass.Weight

namespace FormCompiler

namespace Transformation

variable {r s : Transformation} {f : Func}

def Truthful (r : Transformation) : Prop := ∀ f, (r f).changed = false → (r f).func = f

def Rests (r : Transformation) : Prop :=
  ∀ f, (r f).changed = false → r (r f).func = ⟨(r f).func, false⟩

theorem Truthful.eq (hr : r.Truthful) (h : (r f).changed = false) : r f = ⟨f, false⟩ :=
  calc r f = ⟨(r f).func, (r f).changed⟩ := rfl
    _ = ⟨f, false⟩ := by rw [hr f h, h]

theorem Truthful.rests (hr : r.Truthful) : r.Rests := by
  intro f h
  have hsame := hr.eq h
  rw [hsame]
  exact hsame

theorem Truthful.andThen (hr : r.Truthful) (hs : s.Truthful) : Truthful (r.andThen s) := by
  intro f h
  obtain ⟨hfirst, hsecond⟩ := Bool.or_eq_false_iff.mp h
  exact (hs _ hsecond).trans (hr f hfirst)

theorem exhaust_of_unchanged (h : (r f).changed = false) : r.exhaust f = r f := by
  rw [exhaust, dif_neg]
  rintro ⟨hchanged, _⟩
  cases h.symm.trans hchanged

theorem exhaust_of_changed (hr : r.Lightens) (h : (r f).changed = true) :
    r.exhaust f = ⟨(r.exhaust (r f).func).func, true⟩ := by
  rw [exhaust, dif_pos ⟨h, hr f h⟩]

theorem exhaust_changed (hr : r.Lightens) (f : Func) :
    (r.exhaust f).changed = (r f).changed := by
  cases h : (r f).changed with
  | false => rw [exhaust_of_unchanged h, h]
  | true => rw [exhaust_of_changed hr h]

theorem Truthful.exhaust (hl : r.Lightens) (hr : r.Truthful) : Truthful r.exhaust := by
  intro f h
  rw [exhaust_changed hl] at h
  rw [exhaust_of_unchanged h]
  exact hr f h

theorem Truthful.eases (hl : r.Lightens) (hr : r.Truthful) : r.Eases where
  lt := hl
  le := by
    intro f
    cases h : (r f).changed with
    | false => rw [hr f h]
    | true => exact (hl f h).le

theorem Lightens.func_ne (hr : r.Lightens) (h : (r f).changed = true) : (r f).func ≠ f := by
  intro he
  have hlt := hr f h
  rw [he] at hlt
  exact Nat.lt_irrefl _ hlt

theorem Rests.exhaust (hl : r.Lightens) (hr : r.Rests) (f : Func) :
    r.exhaust (r.exhaust f).func = ⟨(r.exhaust f).func, false⟩ := by
  obtain ⟨g, hg, he⟩ := (settles_exhaust hl f).exists_last
  have hrest := hr g hg
  rw [he, exhaust_of_unchanged (by rw [hrest]), hrest]

end Transformation

namespace ConstantFolding

variable {f : Func}

theorem known_eq_nil : known f = [] ↔ ∀ i ∈ f.instructions, i.op.fold? = none := by
  simp only [known, List.reverse_eq_nil_iff, List.filterMap_eq_nil_iff, Option.map_eq_none_iff]

theorem round_changed : (round f).changed = false ↔ known f = [] := by
  simp only [round, Bool.not_eq_false', List.isEmpty_iff]

theorem replace_nil : replace [] = id := by
  funext o
  cases o <;> rfl

theorem truthful_round : Transformation.Truthful round := by
  intro f h
  have hnone := round_changed.mp h
  have hkept : (f.filterInstructions fun i => i.op.fold?.isNone) = f :=
    Func.filterInstructions_eq_self fun i hi => by rw [known_eq_nil.mp hnone i hi]; rfl
  simp only [round, hkept, hnone, replace_nil]
  exact f.mapOperands_id

theorem lightens_round : Transformation.Lightens round := by
  intro f h
  have hfolds : ∃ i ∈ f.instructions, i.op.fold? ≠ none := by
    by_contra hnone
    push Not at hnone
    cases h.symm.trans (round_changed.mpr (known_eq_nil.mpr hnone))
  obtain ⟨i, hi, hfold⟩ := hfolds
  have hsame : (round f).func.weight = (f.filterInstructions fun i => i.op.fold?.isNone).weight :=
    Func.weight_mapBlocks_eq fun b => Block.weight_mapOperands _ b
  rw [hsame]
  exact Func.weight_filterInstructions_lt hi (Option.isNone_eq_false_iff.mpr
    (Option.isSome_iff_ne_none.mpr hfold))

theorem eases_round : Transformation.Eases round := truthful_round.eases lightens_round

theorem truthful_run : Transformation.Truthful run := truthful_round.exhaust lightens_round

end ConstantFolding

namespace DeadCode

theorem truthful_round : Transformation.Truthful round := fun _ h => (round_unchanged h).1

theorem eases_round : Transformation.Eases round := truthful_round.eases lightens_round

theorem truthful_run : Transformation.Truthful run := truthful_round.exhaust lightens_round

end DeadCode

namespace ControlFlow

variable {f : Func}

/-- The block ends with a branch on a constant that leads to one block either way. -/
def Moot (b : Block) : Prop := ∃ target, decided? b.terminator = some (target, target)

theorem decided?_settleBranch (b : Block) : decided? (settleBranch b).terminator = none := by
  unfold settleBranch
  split
  · rfl
  next h => exact h

theorem settleBranch_of_decided (b : Block) (h : decided? b.terminator = none) :
    settleBranch b = b := by
  rw [settleBranch, h]

theorem decideBranches_of_droppedEdges (h : droppedEdges f = []) :
    decideBranches f = ⟨f.mapBlocks settleBranch, false⟩ := by
  rw [decideBranches, h]
  rfl

theorem droppedEdges_settled (f : Func) : droppedEdges (f.mapBlocks settleBranch) = [] := by
  refine List.filterMap_eq_nil_iff.mpr ?_
  intro b hb
  obtain ⟨b, _, rfl⟩ := List.mem_map.mp hb
  rw [decided?_settleBranch]
  rfl

theorem decideBranches_settled (f : Func) :
    decideBranches (f.mapBlocks settleBranch) = ⟨f.mapBlocks settleBranch, false⟩ := by
  rw [decideBranches_of_droppedEdges (droppedEdges_settled f)]
  congr 1
  simp only [Func.mapBlocks, List.map_map]
  congr 1
  refine List.map_congr_left ?_
  intro b _
  exact settleBranch_of_decided _ (decided?_settleBranch b)

theorem settled_eq (h : droppedEdges f = []) (hm : ∀ b ∈ f.blocks, ¬Moot b) :
    f.mapBlocks settleBranch = f := by
  have hsame : ∀ b ∈ f.blocks, settleBranch b = b := by
    intro b hb
    refine settleBranch_of_decided b ?_
    have hkept := List.filterMap_eq_nil_iff.mp h b hb
    cases hd : decided? b.terminator with
    | none => rfl
    | some ends =>
      obtain ⟨target, other⟩ := ends
      rw [hd] at hkept
      simp only [Option.bind_eq_bind, Option.bind_some, ite_eq_left_iff, reduceCtorEq, imp_false,
        not_not] at hkept
      exact absurd ⟨target, hkept ▸ hd⟩ (hm b hb)
  rw [Func.mapBlocks, List.map_congr_left hsame, List.map_id']

theorem settled_ne {b : Block} (hb : b ∈ f.blocks) (hm : Moot b) :
    f.mapBlocks settleBranch ≠ f := by
  obtain ⟨target, hd⟩ := hm
  have hlt := Func.weight_mapBlocks_lt (fun b (_ : b ∈ f.blocks) => weight_settleBranch_le b)
    ⟨b, hb, weight_settleBranch_lt hd⟩
  intro he
  rw [he] at hlt
  exact Nat.lt_irrefl _ hlt

theorem truthful_dropUnreachable : Transformation.Truthful dropUnreachable := by
  intro f h
  unfold dropUnreachable at h ⊢
  simp only at h ⊢
  split at h
  next hnone => rw [if_pos hnone]
  next => cases h

theorem truthful_collapsePhis : Transformation.Truthful collapsePhis := by
  intro f h
  have hnone : (f.instructions.filterMap fun i => (trivial? i).map fun o => (i.dst, o)) = [] := by
    simpa only [collapsePhis, Bool.not_eq_false', List.isEmpty_iff] using h
  have hkept : (f.filterInstructions fun i => (trivial? i).isNone) = f := by
    refine Func.filterInstructions_eq_self ?_
    intro i hi
    rw [Option.map_eq_none_iff.mp (List.filterMap_eq_nil_iff.mp hnone i hi)]
    rfl
  simp only [collapsePhis, hnone, hkept, List.foldl_nil]

theorem truthful_joinOnce : Transformation.Truthful joinOnce := by
  intro f h
  unfold joinOnce at h ⊢
  split at h
  next => rfl
  next => cases h

theorem truthful_tidying :
    Transformation.Truthful (dropUnreachable.andThen (collapsePhis.andThen joinBlocks)) :=
  truthful_dropUnreachable.andThen
    (truthful_collapsePhis.andThen (truthful_joinOnce.exhaust eases_joinOnce.lt))

/-- A round that reports no change has at most made jumps of branches to one block. -/
theorem round_of_unchanged (h : (round f).changed = false) : droppedEdges f = [] ∧
    round f = ⟨f.mapBlocks settleBranch, false⟩ ∧
    round (f.mapBlocks settleBranch) = ⟨f.mapBlocks settleBranch, false⟩ := by
  obtain ⟨hdecided, htidied⟩ := Bool.or_eq_false_iff.mp h
  have hdropped : droppedEdges f = [] := by
    simpa only [decideBranches, Bool.not_eq_false', List.isEmpty_iff] using hdecided
  have hfirst := decideBranches_of_droppedEdges hdropped
  rw [hfirst] at htidied
  -- only the first step can change what it does not report, and not a second time
  have hrest := truthful_tidying.eq htidied
  have hround : ∀ g, decideBranches g = ⟨f.mapBlocks settleBranch, false⟩ →
      round g = ⟨f.mapBlocks settleBranch, false⟩ := by
    intro g hg
    rw [round, Transformation.andThen, hg]
    simp only [hrest, Bool.or_self]
  exact ⟨hdropped, hround f hfirst, hround _ (decideBranches_settled f)⟩

theorem rests_round : Transformation.Rests round := by
  intro f h
  obtain ⟨_, hround, hagain⟩ := round_of_unchanged h
  rw [hround]
  exact hagain

end ControlFlow

namespace Pass

theorem eases_run (p : Pass) : Transformation.Eases p.run := by
  cases p with
  | constantFolding => exact ConstantFolding.eases_round.exhaust
  | deadCode => exact DeadCode.eases_round.exhaust
  | controlFlow => exact ControlFlow.eases_round.exhaust

theorem run_rests (p : Pass) (f : Func) : p.run (p.run f).func = ⟨(p.run f).func, false⟩ := by
  cases p with
  | constantFolding =>
    exact ConstantFolding.truthful_round.rests.exhaust ConstantFolding.lightens_round f
  | deadCode => exact DeadCode.truthful_round.rests.exhaust DeadCode.lightens_round f
  | controlFlow => exact ControlFlow.rests_round.exhaust ControlFlow.eases_round.lt f

end Pass

namespace ControlFlow

variable {f : Func}

theorem run_of_unchanged (h : (run f).changed = false) : run f = ⟨f, false⟩ ∨
    (∃ b ∈ f.blocks, Moot b) ∧ droppedEdges f = [] ∧
      run f = ⟨f.mapBlocks settleBranch, false⟩ := by
  rw [run, Transformation.exhaust_changed eases_round.lt] at h
  obtain ⟨hdropped, hround, _⟩ := round_of_unchanged h
  have hrun : run f = ⟨f.mapBlocks settleBranch, false⟩ :=
    (Transformation.exhaust_of_unchanged h).trans hround
  by_cases hm : ∃ b ∈ f.blocks, Moot b
  · exact .inr ⟨hm, hdropped, hrun⟩
  · left
    rw [hrun, settled_eq hdropped]
    exact fun b hb hmoot => hm ⟨b, hb, hmoot⟩

end ControlFlow

/-- A pass leaves a function as it was and says so, or changes it and says so; it finds nothing to
do when it is run again. The one change that goes without saying is that of branches on constants
which lead to one block either way, where no other branch is on a constant. -/
theorem Pass.run_reports (p : Pass) (f : Func) :
    (p.run f = ⟨f, false⟩ ∨ ((p.run f).changed = true ∧ (p.run f).func ≠ f) ∨
      p = .controlFlow ∧ (∃ b ∈ f.blocks, ControlFlow.Moot b) ∧ ControlFlow.droppedEdges f = [] ∧
        p.run f = ⟨f.mapBlocks ControlFlow.settleBranch, false⟩ ∧ (p.run f).func ≠ f) ∧
    p.run (p.run f).func = ⟨(p.run f).func, false⟩ := by
  refine ⟨?_, p.run_rests f⟩
  cases h : (p.run f).changed with
  | true => exact .inr (.inl ⟨rfl, p.eases_run.lt.func_ne h⟩)
  | false =>
    cases p with
    | constantFolding => exact .inl (ConstantFolding.truthful_run.eq h)
    | deadCode => exact .inl (DeadCode.truthful_run.eq h)
    | controlFlow =>
      refine (ControlFlow.run_of_unchanged h).imp_right fun hmoot => .inr ?_
      obtain ⟨⟨b, hb, hm⟩, hdropped, hrun⟩ := hmoot
      refine ⟨rfl, ⟨b, hb, hm⟩, hdropped, hrun, ?_⟩
      change (ControlFlow.run f).func ≠ f
      rw [hrun]
      exact ControlFlow.settled_ne hb hm

namespace Func

def detour : Func :=
  let b := ((Builder.start ⟨"detour", [("p0", .i1)], .i32⟩).appendBlock "then").2
  let b := ((b.appendBlock "join").2.terminate (.condBr (.param 0) 1 2)).moveTo 1
  let b := (b.terminate (.condBr (.const (.i1 true)) 2 2)).moveTo 2
  (b.terminate (.ret (some (.const (.i32 1))))).func

theorem built_detour : detour.Built := by
  refine ⟨_, ?_, rfl⟩
  refine .terminate _ (.moveTo (.terminate _ (.moveTo (.terminate _ ?_) (by decide))) (by decide))
  exact .appendBlock _ (.appendBlock _ (.start _))

end Func

theorem Pass.not_run_reports :
    Func.detour.Built ∧ Func.detour.verify ⟨"main", .host, ∅⟩ = .ok () ∧
      (Pass.controlFlow.run .detour).changed = false ∧
      (Pass.controlFlow.run .detour).func ≠ .detour := by
  refine ⟨Func.built_detour, ?_, ?_, ?_⟩
  all_goals decide +kernel

end FormCompiler
