import FormCompiler.Pass.Pipeline

namespace FormCompiler

def Signature.named (s : Signature) (name : String) : Signature := { s with name }

def Func.named (f : Func) (name : String) : Func :=
  { f with signature := f.signature.named name }

theorem Func.foldl_named {α : Type} {change : Func → α → Func} {name : String}
    (h : ∀ f a, change (f.named name) a = (change f a).named name) (as : List α) (f : Func) :
    as.foldl change (f.named name) = (as.foldl change f).named name := by
  induction as generalizing f with
  | nil => rfl
  | cons a as ih => rw [List.foldl_cons, List.foldl_cons, h, ih]

def Transformed.named (t : Transformed) (name : String) : Transformed :=
  { t with func := t.func.named name }

namespace Transformation

variable {r s : Transformation}

def Blind (r : Transformation) : Prop := ∀ f name, r (f.named name) = (r f).named name

theorem Blind.andThen (hr : r.Blind) (hs : s.Blind) : (r.andThen s).Blind := by
  intro f name
  simp only [Transformation.andThen, hr f name]
  simp only [Transformed.named, hs (r f).func name]

theorem Blind.exhaust (hr : r.Blind) : Blind (exhaust r) := by
  intro f name
  fun_induction Transformation.exhaust r f with
  | case1 f g h ih =>
    have hg : r (f.named name) = g.named name := hr f name
    rw [Transformation.exhaust, hg]
    refine (dif_pos (show (g.named name).changed = true ∧ _ from h)).trans ?_
    exact congrArg (fun t => Transformed.mk t.func true) ih
  | case2 f g h =>
    have hg : r (f.named name) = g.named name := hr f name
    rw [Transformation.exhaust, hg]
    exact dif_neg h

end Transformation

theorem ConstantFolding.blind_round : round.Blind := fun _ _ => rfl

theorem DeadCode.blind_round : round.Blind := fun _ _ => rfl

namespace ControlFlow

theorem blind_decideBranches : decideBranches.Blind := by
  intro f name
  have hfold : (droppedEdges f).foldl (fun g e => g.updateBlock e.2 (withoutEdgesFrom [e.1]))
      ((f.mapBlocks settleBranch).named name) = _ := Func.foldl_named (fun _ _ => rfl) _ _
  exact congrArg (Transformed.mk · (!(droppedEdges f).isEmpty)) hfold

theorem reachable_named (f : Func) (name : String) : reachable (f.named name) = reachable f := by
  have hin : ∀ n ids, reachIn (f.named name) n ids = reachIn f n ids := by
    intro n
    induction n with
    | zero => exact fun _ => rfl
    | succ n ih => exact fun ids => ih (reachOut f ids)
  exact hin _ _

theorem blind_dropUnreachable : dropUnreachable.Blind := by
  intro f name
  unfold dropUnreachable
  simp only [reachable_named, show (f.named name).blocks = f.blocks from rfl]
  split
  · rfl
  · rfl

theorem blind_collapsePhis : collapsePhis.Blind := by
  intro f name
  have hfold : ∀ found : List (Nat × Operand), ∀ g : Func,
      found.foldl (fun g e => g.replaceUses e.1 e.2) (g.named name) = _ :=
    fun found g => Func.foldl_named (fun _ _ => rfl) found g
  exact congrArg (Transformed.mk · _) (hfold _ (f.filterInstructions fun i => (trivial? i).isNone))

theorem join_named (f : Func) (name : String) (id next : Nat) :
    join (f.named name) id next = (join f id next).named name := by
  have hfold : ∀ ids : List Nat, ∀ g : Func,
      ids.foldl (fun g s => g.updateBlock s (retarget next id)) (g.named name) = _ :=
    fun ids g => Func.foldl_named (fun _ _ => rfl) ids g
  unfold join
  rw [show (f.named name).block? next = f.block? next from rfl]
  cases f.block? next with
  | none => rfl
  | some b =>
    let shorter : Func := { f with blocks := eraseBlock next f.blocks }
    exact hfold b.successors (shorter.updateBlock id fun a =>
      { a with instructions := a.instructions ++ b.instructions, terminator := b.terminator })

theorem blind_joinOnce : joinOnce.Blind := by
  intro f name
  unfold joinOnce
  rw [show (f.named name).blocks.findSome? (joinable? (f.named name)) =
    f.blocks.findSome? (joinable? f) from rfl]
  cases f.blocks.findSome? (joinable? f) with
  | none => rfl
  | some e => exact congrArg (Transformed.mk · true) (join_named f name e.1 e.2)

theorem blind_round : round.Blind :=
  blind_decideBranches.andThen
    (blind_dropUnreachable.andThen (blind_collapsePhis.andThen blind_joinOnce.exhaust))

end ControlFlow

theorem Pass.blind_run (pass : Pass) : pass.run.Blind := by
  cases pass with
  | constantFolding => exact ConstantFolding.blind_round.exhaust
  | deadCode => exact DeadCode.blind_round.exhaust
  | controlFlow => exact ControlFlow.blind_round.exhaust

theorem Pass.blind_runAll (passes : List Pass) : (runAll passes).Blind := by
  induction passes with
  | nil => exact fun _ _ => rfl
  | cons pass passes ih => exact pass.blind_run.andThen ih

end FormCompiler
