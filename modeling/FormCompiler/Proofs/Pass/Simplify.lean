import Mathlib.Data.List.Pairwise
import FormCompiler.Proofs.Pass.Levels
import FormCompiler.Proofs.Pass.Sweep
import FormCompiler.Proofs.Pass.Weight

/-!
Simplifying the control flow of any code that has passed the check, loops and all. It comes to an
end, and what it gives is accepted again and returns what it did, unless the code is of one of the
kinds that simplification does not treat well.
-/

namespace FormCompiler

namespace Func

variable {f : Func} {u : CodeUnit}

theorem Built.valid (hb : f.Built) (hv : f.verify u = .ok ()) : f.Valid u := by
  have ho := hb.orderly
  obtain ⟨_, hverified⟩ := verify_eq_ok.mp hv
  have hnodup := List.pairwise_flatMap.mp (List.pairwise_map.mp ho.once)
  refine ⟨?_, ⟨?_, ?_, ?_⟩, ?_, ?_, ?_⟩
  · refine {
      ids := ho.numbered.ids
      entry := ho.entry_eq
      ended := fun b hb => (hverified b hb).ended
      targets := fun b hb => (hverified b hb).targets
      dsts := fun b hb => List.pairwise_map.mpr (hnodup.1 b hb)
      disjoint := ?_ }
    intro b hb c hc v hv hv'
    obtain ⟨i, hi, rfl⟩ := List.mem_map.mp hv
    obtain ⟨j, hj, hdst⟩ := List.mem_map.mp hv'
    by_contra hne
    have : Std.Symm fun b c : Block =>
        ∀ i ∈ b.instructions, ∀ j ∈ c.instructions, i.dst ≠ j.dst :=
      ⟨fun _ _ h i hi j hj => (h j hj i hi).symm⟩
    have hapart := hnodup.2.forall hb hc fun hbc => hne (congrArg Block.id hbc)
    exact hapart i hi j hj hdst.symm
  · exact fun b hb i hi => ho.types i (mem_instructions.mpr ⟨b, hb, hi⟩)
  · exact fun b hb i hi => ((hverified b hb).instructions i hi).1
  · exact fun b hb t ht => ((hverified b hb).terminator t ht).1
  · intro b hb o ho
    rcases mem_operands.mp ho with ⟨i, hi, ho⟩ | ⟨t, ht, ho⟩
    · exact ((hverified b hb).instructions i hi).2.1 o ho
    · exact ((hverified b hb).terminator t ht).2 o ho
  · intro i hi
    obtain ⟨b, hb, hi⟩ := mem_instructions.mp hi
    exact ((hverified b hb).instructions i hi).2.2.1
  · exact fun b hb i hi => ((hverified b hb).instructions i hi).2.2.2

theorem operands_pruned {b : Block} {keep : Instruction → Bool} {σ : Operand → Operand}
    {o : Operand} (ho : o ∈ (b.pruned keep σ).operands) : ∃ o' ∈ b.operands, σ o' = o := by
  rcases mem_operands.mp ho with ⟨i, hi, ho⟩ | ⟨t, ht, ho⟩
  · obtain ⟨j, hj, _, rfl⟩ := mem_pruned.mp hi
    rw [Instruction.operands, Instruction.mapOperands, Operation.operands_mapOperands] at ho
    obtain ⟨o', ho', rfl⟩ := List.mem_map.mp ho
    exact ⟨o', mem_operands.mpr (.inl ⟨j, hj, ho'⟩), rfl⟩
  · obtain ⟨t', ht', rfl⟩ := Option.map_eq_some_iff.mp ht
    rw [Terminator.operands_mapOperands] at ho
    obtain ⟨o', ho', rfl⟩ := List.mem_map.mp ho
    exact ⟨o', mem_operands.mpr (.inr ⟨t', ht', ho'⟩), rfl⟩

theorem Valid.defines_uses (h : f.Valid u) {o : Operand} (ho : o ∈ f.uses) : f.Defines o := by
  obtain ⟨b, hb, ho⟩ := List.mem_flatMap.mp ho
  exact h.defined b hb o ho

/-- Cutting off what control does not come to keeps a function valid, if nothing is used that goes,
and no branch that is decided leads to one block on both of its edges and to phis there. -/
theorem Valid.trimmed (h : f.Valid u) {x : Trimming} (hx : f.Cuts x)
    (hforks : ∀ b ∈ f.blocks, x.alive b.id = true → ∀ i ∈ b.instructions, i.op.isPhi = true →
      f.Forks b.id)
    (hused : ∀ b ∈ f.blocks, x.alive b.id = false → ∀ v ∈ b.dsts, .value v ∉ (f.trimmed x).uses) :
    (f.trimmed x).Valid u where
  regular := hx.regular h.regular
  typed := hx.typed h.regular h.typed
  defined := by
    rintro c hc o ho v rfl
    have huse : .value v ∈ (f.trimmed x).uses := List.mem_flatMap.mpr ⟨c, hc, ho⟩
    obtain ⟨b, hb, ha, rfl⟩ := mem_blocks_trimmed.mp hc
    have hv : f.Computes v := by
      refine h.defined b hb (.value v) ?_ v rfl
      rcases mem_operands.mp ho with ⟨i, hi, ho⟩ | ⟨t, ht, ho⟩
      · obtain ⟨j, hj, rfl⟩ := mem_trimmed.mp hi
        exact mem_operands.mpr (.inl ⟨j, hj, operands_trimmed ho⟩)
      · obtain ⟨t₀, t', ht₀, ht', hsettles⟩ := hx.terminator h.regular hb ha
        cases ht'.symm.trans ht
        exact mem_operands.mpr (.inr ⟨t₀, ht₀, hsettles.operands ho⟩)
    obtain ⟨d, hd, hv⟩ := hv
    cases hd' : x.alive d.id with
    | true => exact ⟨_, mem_blocks_trimmed.mpr ⟨d, hd, hd', rfl⟩, by rw [dsts_trimmed]; exact hv⟩
    | false => exact absurd huse (hused d hd hd' v hv)
  calls := (hx.derives h.regular).callFits h.calls
  edges := hx.edged h.regular h.edges hforks

theorem Valid.joined (h : f.Valid u) {a n : Block} (hj : f.Joins a n) : (f.joined a n).Valid u where
  regular := hj.regular h.regular
  typed := hj.typed h.regular h.typed
  defined := by
    rintro c hc o ho v rfl
    refine hj.computes h.regular ?_
    rcases mem_operands.mp ho with ⟨i, hi, ho⟩ | ⟨t, ht, ho⟩
    · obtain ⟨b, hb, j, hmem, rfl, _⟩ := hj.instruction_cases h.regular hc hi
      exact h.defined b hb _ (mem_operands.mpr (.inl ⟨j, hmem, Joins.operands_relabel ho⟩)) v rfl
    · obtain ⟨b, hb, ht⟩ := hj.terminator_mem h.regular hc ht
      exact h.defined b hb _ (mem_operands.mpr (.inr ⟨t, ht, ho⟩)) v rfl
  calls := (hj.derives h.regular).callFits h.calls
  edges := hj.edged h.regular h.edges

theorem Cuts.serves {x : Trimming} (hx : f.Cuts x) (hs : f.Regular) : f.Serves (f.trimmed x) :=
  .of_mirrors (hx.simulation hs).mirrors rfl
    fun _ _ => ⟨rfl, rfl, hx.entry, fun p hp => by cases hp⟩

theorem Joins.serves {a n : Block} (hj : f.Joins a n) (hs : f.Regular) (he : f.Edged) :
    f.Serves (f.joined a n) :=
  .of_mirrors (hj.simulation hs he).mirrors rfl (Merges.start hj)

end Func

namespace ControlFlow

def settle (found : List (Nat × Operand)) (o : Operand) : Operand :=
  found.foldl (fun o e => Operand.replace e.1 e.2 o) o

section Settle

variable {found : List (Nat × Operand)} {e : Nat × Operand} {o : Operand} {v : Nat}

theorem settle_cons : settle (e :: found) o = settle found (Operand.replace e.1 e.2 o) := rfl

/-- What holds of all that a replaced value is replaced by holds of what stands for it. -/
theorem settle_induction {P : Operand → Prop} (hstep : ∀ e ∈ found, P (.value e.1) → P e.2)
    (ho : P o) : P (settle found o) := by
  induction found generalizing o with
  | nil => exact ho
  | cons e found ih =>
    rw [settle_cons]
    refine ih (fun e' he' => hstep e' (List.mem_cons_of_mem _ he')) ?_
    unfold Operand.replace
    split
    next heq => exact hstep e List.mem_cons_self (heq ▸ ho)
    next => exact ho

theorem settle_of_ne (h : ∀ e ∈ found, o ≠ .value e.1) : settle found o = o :=
  settle_induction (P := (· = o)) (fun e he heq => absurd heq.symm (h e he)) rfl

theorem settle_ne (ho : o ≠ .value v) (h : ∀ e ∈ found, e.2 ≠ .value v) :
    settle found o ≠ .value v :=
  settle_induction (P := (· ≠ .value v)) (fun e he _ => h e he) ho

theorem settle_ne_replaced (hself : ∀ e ∈ found, e.2 ≠ .value e.1)
    (horder : found.Pairwise fun e e' => e'.2 ≠ .value e.1) (he : e ∈ found) :
    settle found o ≠ .value e.1 := by
  induction found generalizing o with
  | nil => cases he
  | cons e' found ih =>
    obtain ⟨hlater, horder⟩ := List.pairwise_cons.mp horder
    rw [settle_cons]
    rcases List.mem_cons.mp he with rfl | he
    · refine settle_ne ?_ hlater
      unfold Operand.replace
      split
      next => exact hself e List.mem_cons_self
      next hne => exact hne
    · exact ih (fun e he => hself e (List.mem_cons_of_mem _ he)) horder he

theorem settle_replaced (honce : (found.map Prod.fst).Nodup)
    (horder : found.Pairwise fun e e' => e'.2 ≠ .value e.1) (he : e ∈ found) :
    settle found (.value e.1) = settle found e.2 := by
  induction found with
  | nil => cases he
  | cons e' found ih =>
    obtain ⟨hlater, horder⟩ := List.pairwise_cons.mp horder
    obtain ⟨hnotin, honce⟩ := List.nodup_cons.mp honce
    rw [settle_cons, settle_cons]
    rcases List.mem_cons.mp he with rfl | he
    · simp only [Operand.replace, if_true, ite_self]
    · have hne : Operand.value e.1 ≠ .value e'.1 := by
        intro heq
        injection heq with heq
        exact hnotin (heq ▸ List.mem_map_of_mem he)
      rw [replace_of_ne hne, replace_of_ne (hlater e he)]
      exact ih honce horder he

theorem foldl_replaceUses_eq (found : List (Nat × Operand)) (f : Func) :
    found.foldl (fun g e => g.replaceUses e.1 e.2) f = f.mapOperands (settle found) := by
  induction found generalizing f with
  | nil => exact f.mapOperands_id.symm
  | cons e found ih =>
    rw [List.foldl_cons, ih, Func.replaceUses, Func.mapOperands_mapOperands]
    rfl

end Settle

variable {f : Func} {u : CodeUnit}

theorem collapsePhis_eq (f : Func) : (collapsePhis f).func =
    f.pruned (fun i => (trivial? i).isNone) (settle (trivials f)) := by
  rw [← Func.mapOperands_filterInstructions, ← foldl_replaceUses_eq]
  rfl

theorem nodup_trivials (h : f.Regular) : ((trivials f).map Prod.fst).Nodup := by
  refine List.pairwise_map.mpr (List.Pairwise.filterMap _ ?_ (List.pairwise_map.mp h.once))
  intro i j hne e he e' he'
  obtain ⟨o, _, rfl⟩ := Option.map_eq_some_iff.mp he
  obtain ⟨o', _, rfl⟩ := Option.map_eq_some_iff.mp he'
  exact hne

theorem settle_kept (h : f.Regular) {i : Instruction} (hi : i ∈ f.instructions)
    (hk : (trivial? i).isNone = true) : settle (trivials f) (.value i.dst) = .value i.dst := by
  refine settle_of_ne ?_
  intro e he heq
  injection heq with heq
  obtain ⟨j, hj, ho, hdst⟩ := mem_trivials.mp he
  obtain ⟨b, hb, hi⟩ := Func.mem_instructions.mp hi
  obtain ⟨c, hc, hj⟩ := Func.mem_instructions.mp hj
  obtain ⟨_, rfl⟩ := h.eq_of_dst hc hb hj hi (hdst.trans heq.symm)
  rw [ho] at hk
  cases hk

theorem ne_of_mem_trivials {e : Nat × Operand} (he : e ∈ trivials f) : e.2 ≠ .value e.1 := by
  obtain ⟨i, _, ho, hdst⟩ := mem_trivials.mp he
  obtain ⟨_, _, _, _, _, hne⟩ := trivial?_eq_some.mp ho
  exact hdst ▸ hne

theorem mem_uses_of_mem_trivials (h : f.Typed) {e : Nat × Operand} (he : e ∈ trivials f) :
    e.2 ∈ f.uses ∧ f.operandType? e.2 = f.operandType? (.value e.1) := by
  obtain ⟨i, hi, ho, hdst⟩ := mem_trivials.mp he
  obtain ⟨b, hb, hi⟩ := Func.mem_instructions.mp hi
  obtain ⟨type, incoming, hop, ⟨block, rest, hfirst⟩, _⟩ := trivial?_eq_some.mp ho
  have hmem : (e.2, block) ∈ incoming := by
    rw [hfirst]
    exact List.mem_cons_self
  have htyped := h.operations b hb i hi
  have htype := h.types b hb i hi
  rw [hop] at htyped
  rw [Instruction.type, hop, hdst] at htype
  refine ⟨Func.mem_uses_instruction hb hi ?_, (htyped _ hmem).trans htype.symm⟩
  rw [Instruction.operands, hop]
  exact List.mem_map_of_mem hmem

/-- Phis that are collapsed at once do not need one another, their operands do not only compare
equal, and where one is used, what it is replaced by has not been computed again. -/
structure Collapses (f : Func) : Prop where
  order : (trivials f).Pairwise fun e e' => e'.2 ≠ .value e.1
  exact : ∀ i ∈ f.instructions, ∀ o, trivial? i = some o → ∀ o' ∈ i.operands, o' = o
  fresh : f.Fresh (settle (trivials f))

theorem Collapses.replaces (h : Collapses f) (hs : f.Regular) :
    f.Replaces (fun i => (trivial? i).isNone) (settle (trivials f)) where
  const := fun c => settle_of_ne fun _ _ => by rintro ⟨⟩
  param := fun n => settle_of_ne fun _ _ => by rintro ⟨⟩
  kept := fun i hi hk => settle_kept hs hi hk
  removed := by
    intro i hi hk
    obtain ⟨o, ho⟩ := Option.isSome_iff_exists.mp (Option.isNone_eq_false_iff.mp hk)
    obtain ⟨type, incoming, hop, _⟩ := trivial?_eq_some.mp ho
    refine ⟨type, incoming, hop, ?_⟩
    intro e he
    have heq : e.1 = o := by
      refine h.exact i hi o ho e.1 ?_
      rw [Instruction.operands, hop]
      exact List.mem_map_of_mem he
    have hmem : (i.dst, o) ∈ trivials f := mem_trivials.mpr ⟨i, hi, ho, rfl⟩
    rw [heq]
    exact (settle_replaced (nodup_trivials hs) h.order hmem).symm
  fresh := h.fresh

def Local (f : Func) : Prop :=
  ∀ b ∈ f.blocks, ∀ pc ≤ b.instructions.length, ∀ e ∈ trivials f, .value e.1 ∈ b.operandsAt pc →
    e.1 ∈ b.dsts.take pc ∧ settle (trivials f) (.value e.1) ∉ b.dsts.map .value

instance (f : Func) : Decidable (Local f) :=
  inferInstanceAs (Decidable (∀ b ∈ f.blocks, ∀ pc ≤ b.instructions.length, ∀ e ∈ trivials f,
    .value e.1 ∈ b.operandsAt pc → e.1 ∈ b.dsts.take pc ∧
      settle (trivials f) (.value e.1) ∉ b.dsts.map .value))

theorem Local.fresh (h : Local f) : f.Fresh (settle (trivials f)) := by
  intro passed id previous pc hway v x hread hx hstale
  obtain ⟨b, hblock, ho⟩ := Func.exists_operandsAt hread
  by_cases hv : ∃ e ∈ trivials f, e.1 = v
  · obtain ⟨e, he, rfl⟩ := hv
    obtain ⟨hpc, rest, rfl⟩ := hway.block_passed hblock
    obtain ⟨hmem, hother⟩ := h b (List.mem_of_find?_eq_some hblock) pc hpc e he ho
    have hafter := List.mem_reverse.mp (Stale.mem_of_append (List.mem_reverse.mpr hmem) hstale)
    rw [hx] at hother
    exact hother (List.mem_map_of_mem (List.mem_of_mem_take hafter))
  · have hsame : settle (trivials f) (.value v) = .value v := by
      refine settle_of_ne ?_
      intro e he heq
      injection heq with heq
      exact hv ⟨e, he, heq.symm⟩
    cases hsame.symm.trans hx
    exact Stale.irrefl hstale

theorem operandType?_settle (h : f.Typed) (o : Operand) :
    f.operandType? (settle (trivials f) o) = f.operandType? o :=
  settle_induction (P := fun o' => f.operandType? o' = f.operandType? o)
    (fun _ he heq => (mem_uses_of_mem_trivials h he).2.trans heq) rfl

theorem defines_settle (h : f.Valid u)
    (horder : (trivials f).Pairwise fun e e' => e'.2 ≠ .value e.1) {o : Operand}
    (ho : f.Defines o) :
    (f.pruned (fun i => (trivial? i).isNone) (settle (trivials f))).Defines
      (settle (trivials f) o) := by
  intro v hv
  have hdefined : f.Defines (settle (trivials f) o) :=
    settle_induction (P := f.Defines)
      (fun _ he _ => h.defines_uses (mem_uses_of_mem_trivials h.typed he).1) ho
  obtain ⟨b, hb, hdst⟩ := hdefined v hv
  obtain ⟨i, hi, rfl⟩ := List.mem_map.mp hdst
  have hi := Func.mem_instructions.mpr ⟨b, hb, hi⟩
  refine Func.computes_pruned.mpr ⟨i, hi, ?_, rfl⟩
  cases ht : trivial? i with
  | none => rfl
  | some o =>
    have hmem : (i.dst, o) ∈ trivials f := mem_trivials.mpr ⟨i, hi, ht, rfl⟩
    exact absurd hv (settle_ne_replaced (fun _ => ne_of_mem_trivials) horder hmem)

theorem valid_collapsePhis (h : f.Valid u)
    (horder : (trivials f).Pairwise fun e e' => e'.2 ≠ .value e.1) :
    (collapsePhis f).func.Valid u := by
  rw [collapsePhis_eq]
  refine ⟨h.regular.pruned _ _, h.typed.pruned _ fun o _ => operandType?_settle h.typed o, ?_,
    (Func.derives_pruned fun o _ => operandType?_settle h.typed o).callFits h.calls,
    h.edges.pruned _ _⟩
  intro c hc o ho
  obtain ⟨b, hb, rfl⟩ := Func.mem_blocks_pruned.mp hc
  obtain ⟨o', ho', rfl⟩ := Func.operands_pruned ho
  exact defines_settle h horder (h.defined b hb o' ho')

theorem forks_decision (ht : f.Typed) (id : Nat) : (f.trimmed (decision f)).Forks id := by
  intro c hc k hterm
  obtain ⟨b, hb, _, rfl⟩ := Func.mem_blocks_trimmed.mp hc
  change (decision f).settle b.terminator = _ at hterm
  simp only [decision] at hterm
  split at hterm
  next => cases hterm
  next hnone =>
    have htype : k.type = .i1 := Option.some.inj (ht.terminators b hb _ hterm)
    rw [hterm] at hnone
    cases k with
    | i1 taken => cases hnone
    | i32 value | f64 value => cases htype

/-- A round of simplification does no harm: phis are told apart where a branch on a constant is
decided, no value is used that is only computed out of reach, and phis can be collapsed. -/
structure Harmless (f : Func) : Prop where
  forks : ∀ b ∈ f.blocks, ∀ i ∈ b.instructions, i.op.isPhi = true → f.Forks b.id
  gone : ∀ b ∈ (decideBranches f).func.blocks, b.id ∉ reachable (decideBranches f).func →
    ∀ v ∈ b.dsts, .value v ∉ (dropUnreachable (decideBranches f).func).func.uses
  collapses : Collapses (dropUnreachable (decideBranches f).func).func

theorem harmless_of_local (hbranches : ∀ b ∈ f.blocks, b.successors.Nodup)
    (hgone : ∀ b ∈ (decideBranches f).func.blocks, b.id ∉ reachable (decideBranches f).func →
      ∀ v ∈ b.dsts, .value v ∉ (dropUnreachable (decideBranches f).func).func.uses)
    {g : Func} (hg : (dropUnreachable (decideBranches f).func).func = g)
    (horder : (trivials g).Pairwise fun e e' => e'.2 ≠ .value e.1)
    (hexact : ∀ i ∈ g.instructions, ∀ o ∈ trivial? i, ∀ o' ∈ i.operands, o' = o)
    (hlocal : Local g) : Harmless f := by
  subst hg
  exact ⟨fun b _ _ _ _ => Func.forks_of_nodup hbranches b.id, hgone,
    ⟨horder, hexact, hlocal.fresh⟩⟩

theorem decideBranches_preserves (h : f.Valid u)
    (hforks : ∀ b ∈ f.blocks, ∀ i ∈ b.instructions, i.op.isPhi = true → f.Forks b.id) :
    (decideBranches f).func.Valid u ∧ f.Serves (decideBranches f).func := by
  have hx := cuts_decision h.regular
  rw [decideBranches_eq h.regular]
  refine ⟨h.trimmed hx (fun b hb _ => hforks b hb) ?_, hx.serves h.regular⟩
  intro b _ ha
  cases ha

theorem dropUnreachable_preserves (h : f.Valid u) (hforks : ∀ id, f.Forks id)
    (hgone : ∀ b ∈ f.blocks, b.id ∉ reachable f → ∀ v ∈ b.dsts,
      .value v ∉ (dropUnreachable f).func.uses) :
    (dropUnreachable f).func.Valid u ∧ f.Serves (dropUnreachable f).func := by
  rcases @dropUnreachable_eq f with he | he
  · rw [he]
    exact ⟨h, .refl f⟩
  · have hx := cuts_reach h.regular
    rw [he] at hgone ⊢
    refine ⟨h.trimmed hx (fun b _ _ _ _ _ => hforks b.id) ?_, hx.serves h.regular⟩
    intro b hb ha
    refine hgone b hb ?_
    rw [← alive_reach, ha]
    exact Bool.false_ne_true

theorem collapsePhis_preserves (h : f.Valid u) (hc : Collapses f) :
    (collapsePhis f).func.Valid u ∧ f.Serves (collapsePhis f).func := by
  refine ⟨valid_collapsePhis h hc.order, ?_⟩
  rw [collapsePhis_eq]
  exact (hc.replaces h.regular).serves

theorem joinOnce_preserves (h : f.Valid u) :
    (joinOnce f).func.Valid u ∧ f.Serves (joinOnce f).func := by
  unfold joinOnce
  split
  next => exact ⟨h, .refl f⟩
  next id next hfind =>
    obtain ⟨b, hb, hjoin⟩ := List.exists_of_findSome?_eq_some hfind
    obtain ⟨n, _, hj, rfl, rfl⟩ := joinable?_eq_some hb h.regular hjoin
    rw [join_eq hj h.regular h.edges]
    exact ⟨h.joined hj, hj.serves h.regular h.edges⟩

theorem settles_joinBlocks (f : Func) : joinOnce.Settles f (joinBlocks f).func :=
  Transformation.settles_exhaust eases_joinOnce.lt f

theorem joinBlocks_preserves (h : f.Valid u) :
    (joinBlocks f).func.Valid u ∧ f.Serves (joinBlocks f).func := by
  refine (settles_joinBlocks f).keeps (P := fun g => g.Valid u ∧ f.Serves g) ?_ ⟨h, .refl f⟩
  rintro g ⟨hg, hserves⟩
  obtain ⟨hvalid, hnext⟩ := joinOnce_preserves hg
  exact ⟨hvalid, hserves.trans hnext⟩

/-- One round leaves a function that is valid and serves for the one it was made of. -/
theorem round_preserves (h : f.Valid u) (hf : Harmless f) :
    (round f).func.Valid u ∧ f.Serves (round f).func := by
  have hforks : ∀ id, (decideBranches f).func.Forks id := by
    rw [decideBranches_eq h.regular]
    exact forks_decision h.typed
  obtain ⟨hdecided, hd⟩ := decideBranches_preserves h hf.forks
  obtain ⟨hdropped, hr⟩ := dropUnreachable_preserves hdecided hforks hf.gone
  obtain ⟨hcollapsed, hc⟩ := collapsePhis_preserves hdropped hf.collapses
  obtain ⟨hjoined, hj⟩ := joinBlocks_preserves hcollapsed
  exact ⟨hjoined, ((hd.trans hr).trans hc).trans hj⟩

/-- Simplifying comes to an end, whatever the code. What a builder has made and the check accepts is
accepted afterwards, and its calls return what they returned, if no round does harm. -/
theorem run_preserves (f : Func) (u : CodeUnit) :
    (joinOnce.Settles f (joinBlocks f).func ∧ round.Settles f (run f).func) ∧
      (f.Built → f.verify u = .ok () → (∀ g, round.Stage f g → Harmless g) →
        (run f).func.verify u = .ok () ∧ f.Serves (run f).func) := by
  have hrun : round.Settles f (run f).func := Transformation.settles_exhaust eases_round.lt f
  refine ⟨⟨settles_joinBlocks f, hrun⟩, ?_⟩
  intro hb hv hharmless
  have hstages : ∀ g, round.Stage f g → g.Valid u ∧ f.Serves g := by
    intro g hg
    induction hg with
    | start => exact ⟨hb.valid hv, .refl f⟩
    | again hg _ ih =>
      obtain ⟨hvalid, hserves⟩ := round_preserves ih.1 (hharmless _ hg)
      exact ⟨hvalid, ih.2.trans hserves⟩
  obtain ⟨g, hg, he⟩ := hrun.exists_stage
  obtain ⟨hvalid, hserves⟩ := hstages g hg
  obtain ⟨hlast, hafter⟩ := round_preserves hvalid (hharmless g hg)
  rw [he]
  exact ⟨hlast.verify, hserves.trans hafter⟩

end ControlFlow

namespace Func

def counting : Func :=
  let b := ((Builder.start ⟨"counting", [("p0", .i32)], .i32⟩).appendBlock "head").2
  let b := ((b.appendBlock "body").2.appendBlock "exit").2
  let b := (b.appendBlock "latch").2.appendBlock "skip"
  let b := (b.2.terminate (.condBr (.const (.i1 true)) 1 5)).moveTo 1
  let b := (b.emit (.phi .i32 [(.const (.i32 0), 0), (.value 3, 4)])).2
  let b := (b.emit (.compute (.icmp .slt (.value 0) (.param 0)))).2
  let b := ((b.terminate (.condBr (.value 1) 2 3)).moveTo 2).emit (.phi .i32 [(.value 0, 1)])
  let b := (b.2.emit (.compute (.int .add (.value 2) (.const (.i32 1))))).2.terminate (.br 4)
  let b := ((b.moveTo 3).emit (.phi .i32 [(.value 0, 1), (.const (.i32 7), 5)])).2
  let b := ((b.terminate (.ret (some (.value 4)))).moveTo 4).terminate (.br 1)
  ((b.moveTo 5).terminate (.br 3)).func

theorem built_counting : counting.Built := by
  refine ⟨_, ?_, rfl⟩
  refine .terminate _ (.moveTo (.terminate _ (.moveTo (.terminate _ (.emit _ (.moveTo
    (.terminate _ (.emit _ (.emit _ (.moveTo (.terminate _ (.emit _ (.emit _ (.moveTo ?_
      (by decide))))) (by decide))))) (by decide)))) (by decide))) (by decide))
  exact .terminate _ (.appendBlock _ (.appendBlock _ (.appendBlock _ (.appendBlock _
    (.appendBlock _ (.start _))))))

end Func

namespace ControlFlow

theorem harmless_counting {g : Func} (h : round.Stage .counting g) : Harmless g := by
  have hstage : g = .counting ∨ g = (round .counting).func := by
    induction h with
    | start => exact .inl rfl
    | again _ hc ih =>
      rcases ih with rfl | rfl
      · exact .inr rfl
      · have hunchanged : (round (round .counting).func).changed = false := by decide +kernel
        cases hunchanged.symm.trans hc
  rcases hstage with rfl | rfl
  all_goals
    refine harmless_of_local ?_ ?_ rfl ?_ ?_ ?_
    all_goals decide +kernel

theorem run_preserves_counting :
    (run .counting).func.verify ⟨"main", .host, ∅⟩ = .ok () ∧
      ((Program.load {} (run .counting).func).call 40 "counting" [.i32 2]).map Outcome.result =
        some (.ok (some (.i32 2))) := by
  have hcall : ((Program.load {} .counting).call 40 "counting" [.i32 2]).map Outcome.result =
      some (.ok (some (.i32 2))) := by decide +kernel
  obtain ⟨⟨_, log⟩, hcall, hr⟩ := Option.map_eq_some_iff.mp hcall
  cases hr
  obtain ⟨hverify, hserves⟩ := (run_preserves .counting ⟨"main", .host, ∅⟩).2
    Func.built_counting (by decide +kernel) fun _ => harmless_counting
  refine ⟨hverify, ?_⟩
  rw [hserves _ _ _ _ _ _ hcall]
  rfl

end ControlFlow

namespace Func

def chained : Func :=
  let b := ((Builder.start ⟨"chained", [], .i32⟩).appendBlock "first").2
  let b := ((b.appendBlock "second").2.terminate (.br 1)).moveTo 1
  let b := ((b.emit (.phi .i32 [(.const (.i32 7), 0)])).2.terminate (.br 2)).moveTo 2
  ((b.emit (.phi .i32 [(.value 0, 1)])).2.terminate (.ret (some (.value 1)))).func

def agreed : Func :=
  let b := ((Builder.start ⟨"agreed", [], .i32⟩).appendBlock "join").2
  let b := (b.terminate (.condBr (.const (.i1 true)) 1 1)).moveTo 1
  let b := (b.emit (.phi .i32 [(.const (.i32 1), 0), (.const (.i32 2), 0)])).2
  (b.terminate (.ret (some (.value 0)))).func

def orphaned : Func :=
  let b := ((Builder.start ⟨"orphaned", [("p0", .i1)], .i32⟩).appendBlock "used").2
  let b := (b.appendBlock "other").2.appendBlock "dead" |>.2
  let b := (b.terminate (.condBr (.param 0) 1 2)).moveTo 3
  let b := (b.emit (.compute (.int .add (.const (.i32 1)) (.const (.i32 1))))).2.terminate (.br 3)
  let b := (b.moveTo 1).terminate (.ret (some (.value 0)))
  ((b.moveTo 2).terminate (.ret (some (.const (.i32 3))))).func

def lagging : Func :=
  let b := ((Builder.start ⟨"lagging", [], .i32⟩).appendBlock "head").2
  let b := ((b.appendBlock "body").2.appendBlock "exit").2.terminate (.br 1)
  let b := ((b.moveTo 1).emit (.phi .i32 [(.const (.i32 0), 0), (.const (.i32 1), 2)])).2
  let b := (b.emit (.phi .i32 [(.const (.i32 0), 0), (.value 3, 2)])).2
  let b := (b.emit (.compute (.icmp .slt (.value 0) (.const (.i32 1))))).2
  let b := ((b.terminate (.condBr (.value 2) 2 3)).moveTo 2).emit (.phi .i32 [(.value 0, 1)])
  ((b.2.terminate (.br 1)).moveTo 3).terminate (.ret (some (.value 1))) |>.func

theorem built_chained : chained.Built := by
  refine ⟨_, ?_, rfl⟩
  refine .terminate _ (.emit _ (.moveTo ?_ (by decide)))
  refine .terminate _ (.emit _ (.moveTo ?_ (by decide)))
  exact .terminate _ (.appendBlock _ (.appendBlock _ (.start _)))

theorem built_agreed : agreed.Built := by
  refine ⟨_, ?_, rfl⟩
  exact .terminate _ (.emit _ (.moveTo (.terminate _ (.appendBlock _ (.start _))) (by decide)))

theorem built_orphaned : orphaned.Built := by
  refine ⟨_, ?_, rfl⟩
  refine .terminate _ (.moveTo (.terminate _ (.moveTo (.terminate _ (.emit _ (.moveTo ?_
    (by decide)))) (by decide))) (by decide))
  exact .terminate _ (.appendBlock _ (.appendBlock _ (.appendBlock _ (.start _))))

theorem built_lagging : lagging.Built := by
  refine ⟨_, ?_, rfl⟩
  refine .terminate _ (.moveTo (.terminate _ (.emit _ (.moveTo (.terminate _ (.emit _
    (.emit _ (.emit _ (.moveTo ?_ (by decide)))))) (by decide)))) (by decide))
  exact .terminate _ (.appendBlock _ (.appendBlock _ (.appendBlock _ (.start _))))

end Func

namespace ControlFlow

def Spoils (f : Func) : Prop :=
  f.Built ∧ f.verify ⟨"main", .host, ∅⟩ = .ok () ∧ (run f).func.verify ⟨"main", .host, ∅⟩ ≠ .ok ()

def Alters (f : Func) (args : List Const) (c : Const) : Prop :=
  f.Built ∧ f.verify ⟨"main", .host, ∅⟩ = .ok () ∧
    (∃ fuel, ((Program.load {} f).call fuel f.name args).map Outcome.result =
      some (.ok (some c))) ∧
    ¬ ∃ fuel, ((Program.load {} (run f).func).call fuel f.name args).map Outcome.result =
      some (.ok (some c))

theorem alters_of_call {f : Func} {args : List Const} {c : Const} (fuel : Nat) (c' : Const)
    (hb : f.Built) (hv : f.verify ⟨"main", .host, ∅⟩ = .ok ())
    (hc : ((Program.load {} f).call fuel f.name args).map Outcome.result = some (.ok (some c)))
    (hc' : ((Program.load {} (run f).func).call fuel f.name args).map Outcome.result =
      some (.ok (some c'))) (hne : c' ≠ c) : Alters f args c := by
  refine ⟨hb, hv, ⟨fuel, hc⟩, ?_⟩
  rintro ⟨n, h⟩
  obtain ⟨o, ho, hr⟩ := Option.map_eq_some_iff.mp h
  obtain ⟨o', ho', hr'⟩ := Option.map_eq_some_iff.mp hc'
  cases Program.call_unique ho' ho
  cases hr'.symm.trans hr
  exact hne rfl

/-- One function for each kind of harm. -/
theorem not_run_preserves : Spoils .chained ∧ Spoils .agreed ∧ Spoils .orphaned ∧
    Alters .lagging [] (.i32 0) ∧ Alters (.either 0.0 (-0.0)) [.i1 false] (.f64 (-0.0)) := by
  refine ⟨⟨Func.built_chained, ?_, ?_⟩, ⟨Func.built_agreed, ?_, ?_⟩, ⟨Func.built_orphaned, ?_, ?_⟩,
    alters_of_call 20 (.i32 1) Func.built_lagging ?_ ?_ ?_ ?_,
    alters_of_call 10 (.f64 0.0) (Func.built_either _ _) ?_ ?_ ?_ ?_⟩
  all_goals decide +kernel

end ControlFlow

end FormCompiler
