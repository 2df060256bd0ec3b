import FormCompiler.Proofs.Pass.Trim

namespace FormCompiler

theorem Block.update_eq_map {bs : List Block} (hn : (bs.map Block.id).Nodup) (id : Nat)
    (change : Block → Block) :
    Block.update id change bs = bs.map fun b => if b.id = id then change b else b := by
  induction bs with
  | nil => rfl
  | cons b bs ih =>
    obtain ⟨hb, hn⟩ := List.nodup_cons.mp hn
    rw [Block.update, List.map_cons]
    split
    next he =>
      congr 1
      have hsame : bs.map (fun c => if c.id = id then change c else c) = bs.map fun c => c := by
        refine List.map_congr_left ?_
        intro c hc
        rw [if_neg]
        rintro rfl
        exact hb (he ▸ List.mem_map_of_mem hc)
      rw [hsame, List.map_id']
    next he => rw [ih hn]

theorem Func.Regular.nodup_ids {f : Func} (h : f.Regular) : (f.blocks.map Block.id).Nodup := by
  refine List.pairwise_map.mpr (h.ids.imp ?_)
  intro b c hlt he
  omega

theorem Instruction.mapEdges_mapEdges (i : Instruction)
    (f g : List (Operand × Nat) → List (Operand × Nat)) :
    (i.mapEdges f).mapEdges g = i.mapEdges (fun es => g (f es)) := by
  obtain ⟨dst, op⟩ := i
  cases op <;> rfl

theorem Instruction.mapEdges_id {f : List (Operand × Nat) → List (Operand × Nat)}
    (h : ∀ es, f es = es) (i : Instruction) : i.mapEdges f = i := by
  obtain ⟨dst, op⟩ := i
  cases op with
  | phi type incoming => simp [mapEdges, Operation.mapEdges, h]
  | compute c => rfl
  | call callee args returns => rfl

namespace ControlFlow

def withoutEdges (dropped : List (Nat × Nat)) (b : Block) : Block :=
  b.mapEdges (·.filter fun e => !dropped.contains (e.2, b.id))

theorem withoutEdges_nil (b : Block) : withoutEdges [] b = b := by
  have hnone : ∀ i : Instruction,
      i.mapEdges (·.filter fun e => !([] : List (Nat × Nat)).contains (e.2, b.id)) = i :=
    Instruction.mapEdges_id fun es => List.filter_eq_self.mpr fun _ _ => rfl
  simp only [withoutEdges, Block.mapEdges, hnone, List.map_id']

theorem withoutEdges_cons (e : Nat × Nat) (dropped : List (Nat × Nat)) (b : Block) :
    withoutEdges dropped (if b.id = e.2 then withoutEdgesFrom [e.1] b else b) =
      withoutEdges (e :: dropped) b := by
  have hid : (if b.id = e.2 then withoutEdgesFrom [e.1] b else b).id = b.id := by split <;> rfl
  have hinst : (if b.id = e.2 then withoutEdgesFrom [e.1] b else b).instructions =
      b.instructions.map (·.mapEdges (·.filter fun x => !((x.2, b.id) == e))) := by
    split
    next he =>
      simp only [withoutEdgesFrom, Block.mapEdges]
      congr 1
      funext i
      congr 1
      funext es
      refine List.filter_congr ?_
      intro x _
      rw [Bool.eq_iff_iff]
      simp [he, Prod.ext_iff]
    next he =>
      have hall : ∀ i : Instruction, i.mapEdges (·.filter fun x => !((x.2, b.id) == e)) = i := by
        refine Instruction.mapEdges_id fun es => List.filter_eq_self.mpr ?_
        intro x _
        simp [Prod.ext_iff, he]
      simp only [hall, List.map_id']
  have hterm : (if b.id = e.2 then withoutEdgesFrom [e.1] b else b).terminator = b.terminator ∧
      (if b.id = e.2 then withoutEdgesFrom [e.1] b else b).label = b.label := by
    split <;> exact ⟨rfl, rfl⟩
  simp only [withoutEdges, Block.mapEdges, hid, hinst, hterm.1, hterm.2, List.map_map]
  congr 1
  refine List.map_congr_left ?_
  intro i _
  rw [Function.comp_apply, Instruction.mapEdges_mapEdges]
  congr 1
  funext es
  simp only [List.filter_filter]
  refine List.filter_congr ?_
  intro x _
  rw [List.contains_cons, Bool.not_or, Bool.and_comm]

theorem foldl_updateBlock (dropped : List (Nat × Nat)) {f : Func}
    (hn : (f.blocks.map Block.id).Nodup) :
    dropped.foldl (fun g e => g.updateBlock e.2 (withoutEdgesFrom [e.1])) f =
      f.mapBlocks (withoutEdges dropped) := by
  induction dropped generalizing f with
  | nil =>
    have hid : withoutEdges [] = id := funext withoutEdges_nil
    rw [List.foldl_nil, hid, Func.mapBlocks, List.map_id]
  | cons e dropped ih =>
    have hupdate : f.updateBlock e.2 (withoutEdgesFrom [e.1]) =
        f.mapBlocks fun b => if b.id = e.2 then withoutEdgesFrom [e.1] b else b := by
      rw [Func.updateBlock, Block.update_eq_map hn, Func.mapBlocks]
    have hids : ((f.updateBlock e.2 (withoutEdgesFrom [e.1])).blocks.map Block.id) =
        f.blocks.map Block.id := by
      rw [hupdate, Func.mapBlocks, List.map_map]
      refine List.map_congr_left ?_
      intro b _
      rw [Function.comp_apply]
      split <;> rfl
    rw [List.foldl_cons, ih (hids ▸ hn), hupdate]
    simp only [Func.mapBlocks, List.map_map]
    congr 1
    refine List.map_congr_left ?_
    intro b _
    exact withoutEdges_cons e dropped b

def decision (f : Func) : Trimming where
  alive := fun _ => true
  live := fun p s => !(droppedEdges f).contains (p, s)
  settle := fun t => match decided? t with
    | some (target, _) => some (.br target)
    | none => t

theorem decideBranches_eq {f : Func} (h : f.Regular) :
    (decideBranches f).func = f.trimmed (decision f) := by
  have hids : (f.mapBlocks settleBranch).blocks.map Block.id = f.blocks.map Block.id := by
    rw [Func.mapBlocks, List.map_map]
    refine List.map_congr_left ?_
    intro b _
    rw [Function.comp_apply, settleBranch]
    split <;> rfl
  have hall : (f.blocks.filter fun b => (decision f).alive b.id) = f.blocks :=
    List.filter_eq_self.mpr fun _ _ => rfl
  simp only [decideBranches]
  rw [foldl_updateBlock _ (hids ▸ h.nodup_ids), Func.mapBlocks, Func.mapBlocks, Func.trimmed,
    List.map_map, hall]
  congr 1
  refine List.map_congr_left ?_
  intro b _
  rw [Function.comp_apply, settleBranch, Block.trimmed]
  cases hd : decided? b.terminator with
  | none =>
    have hsettle : (decision f).settle b.terminator = b.terminator := by simp only [decision, hd]
    rw [hsettle]
    rfl
  | some e =>
    have hsettle : (decision f).settle b.terminator = some (.br e.1) := by simp only [decision, hd]
    rw [hsettle]
    rfl

theorem mem_droppedEdges {f : Func} {p s : Nat} :
    (p, s) ∈ droppedEdges f ↔ ∃ b ∈ f.blocks, b.id = p ∧ ∃ target,
      decided? b.terminator = some (target, s) ∧ s ≠ target := by
  simp only [droppedEdges, List.mem_filterMap]
  constructor
  · rintro ⟨b, hb, h⟩
    cases hd : decided? b.terminator with
    | none =>
      rw [hd] at h
      cases h
    | some e =>
      obtain ⟨target, other⟩ := e
      rw [hd] at h
      simp only [Option.bind_eq_bind, Option.bind_some] at h
      split at h
      · cases h
      next hne =>
        cases h
        exact ⟨b, hb, rfl, target, hd, hne⟩
  · rintro ⟨b, hb, rfl, target, hd, hne⟩
    refine ⟨b, hb, ?_⟩
    rw [hd]
    simp [hne]

theorem decided?_eq_some {t : Option Terminator} {target other : Nat}
    (h : decided? t = some (target, other)) :
    t = some (.condBr (.const (.i1 true)) target other) ∨
      t = some (.condBr (.const (.i1 false)) other target) := by
  unfold decided? at h
  split at h
  next taken _ _ =>
    cases taken with
    | true => cases h; exact .inl rfl
    | false => cases h; exact .inr rfl
  next => cases h

theorem cuts_decision {f : Func} (h : f.Regular) : f.Cuts (decision f) where
  source := fun _ _ _ _ => rfl
  entry := rfl
  closed := fun _ _ _ _ _ _ => rfl
  settles := by
    intro b hb _ t ht
    have hdropped : ∀ s, (b.id, s) ∈ droppedEdges f →
        ∃ target, decided? (some t) = some (target, s) ∧ s ≠ target := by
      intro s hs
      obtain ⟨c, hc, hid, target, hd, hne⟩ := mem_droppedEdges.mp hs
      rw [h.eq_of_id hc hb hid, ht] at hd
      exact ⟨target, hd, hne⟩
    have hlive : ∀ s, (decision f).live b.id s = true ↔ (b.id, s) ∉ droppedEdges f := by
      intro s
      simp [decision]
    cases hd : decided? (some t) with
    | none =>
      refine ⟨t, by simp only [decision, hd], .keep ?_⟩
      intro s _
      refine (hlive s).mpr ?_
      intro hs
      obtain ⟨_, hd', _⟩ := hdropped s hs
      rw [hd] at hd'
      cases hd'
    | some e =>
      obtain ⟨target, other⟩ := e
      refine ⟨.br target, by simp only [decision, hd], ?_⟩
      have htarget : (decision f).live b.id target = true := by
        refine (hlive target).mpr ?_
        intro hs
        obtain ⟨_, hd', hne'⟩ := hdropped target hs
        rw [hd] at hd'
        cases hd'
        exact hne' rfl
      by_cases hne : other = target
      · subst hne
        rcases decided?_eq_some hd with he | he
        · cases he
          exact .both htarget
        · cases he
          exact .both htarget
      -- the two ways of the branch differ, so one of them is dropped
      have hother : (decision f).live b.id other = false := by
        rw [Bool.eq_false_iff, ne_eq, hlive, Classical.not_not]
        exact mem_droppedEdges.mpr ⟨b, hb, rfl, target, ht ▸ hd, hne⟩
      rcases decided?_eq_some hd with he | he
      · cases he
        exact .whenTrue htarget hother
      · cases he
        exact .whenFalse htarget hother

theorem trims_decision {f : Func} {w : Flow} (h : f.Sound w) : f.Trims w (decision f) where
  toCuts := cuts_decision h.shaped.toRegular
  defined := by
    intro b hb _ v hv
    obtain ⟨c, hc, hv⟩ := h.flows.defined b hb v hv
    exact ⟨c, hc, rfl, hv⟩

theorem correct_decideBranches : Transformation.Correct decideBranches := by
  intro f w h
  rw [decideBranches_eq h.shaped.toRegular]
  exact (trims_decision h).improves h

def Closed (f : Func) (ids : List Nat) : Prop :=
  ∀ b ∈ f.blocks, b.id ∈ ids → ∀ s ∈ b.successors, s ∈ ids

variable {f : Func} {w : Flow} {ids : List Nat}

theorem mem_reachOut (h : f.Regular) {s : Nat} :
    s ∈ reachOut f ids ↔ s ∈ ids ∨ ∃ b ∈ f.blocks, b.id ∈ ids ∧ s ∈ b.successors := by
  have hsucc : s ∈ (ids.flatMap fun id => ((f.block? id).map Block.successors).getD []) ↔
      ∃ b ∈ f.blocks, b.id ∈ ids ∧ s ∈ b.successors := by
    rw [List.mem_flatMap]
    constructor
    · rintro ⟨id, hid, hs⟩
      cases hb : f.block? id with
      | none => simp [hb] at hs
      | some b =>
        obtain ⟨hmem, rfl⟩ := h.block?_eq_some.mp hb
        exact ⟨b, hmem, hid, by simpa [hb] using hs⟩
    · rintro ⟨b, hb, hid, hs⟩
      refine ⟨b.id, hid, ?_⟩
      rw [h.block?_eq_some.mpr ⟨hb, rfl⟩]
      exact hs
  simp only [reachOut, List.mem_append, List.mem_filter, List.mem_eraseDups, hsucc]
  by_cases hs : s ∈ ids <;> simp [hs]

theorem Closed.reachOut (h : f.Regular) (hc : Closed f ids) : Closed f (reachOut f ids) := by
  have hmem : ∀ s, s ∈ ControlFlow.reachOut f ids ↔ s ∈ ids := by
    intro s
    rw [mem_reachOut h]
    refine ⟨?_, .inl⟩
    rintro (hs | ⟨b, hb, hid, hs⟩)
    · exact hs
    · exact hc b hb hid s hs
  intro b hb hid s hs
  exact (hmem s).mpr (hc b hb ((hmem b.id).mp hid) s hs)

theorem Closed.reachIn (h : f.Regular) (n : Nat) (hc : Closed f ids) :
    Closed f (reachIn f n ids) := by
  induction n generalizing ids with
  | zero => exact hc
  | succ n ih => exact ih (hc.reachOut h)

theorem countP_lt {α : Type} {p q : α → Bool} {l : List α} (hle : ∀ a, p a = true → q a = true)
    {a : α} (ha : a ∈ l) (hp : p a = false) (hq : q a = true) : l.countP p < l.countP q := by
  obtain ⟨before, after, rfl⟩ := List.append_of_mem ha
  have hb := List.countP_mono_left (l := before) fun x _ => hle x
  have hc := List.countP_mono_left (l := after) fun x _ => hle x
  simp only [List.countP_append, List.countP_cons, hp, hq, if_true, Bool.false_eq_true, if_false]
  omega

theorem closed_reachIn (h : f.Regular) {n : Nat}
    (hn : f.blocks.countP (fun b => !ids.contains b.id) ≤ n) : Closed f (reachIn f n ids) := by
  induction n generalizing ids with
  | zero =>
    intro b hb _ s hs
    obtain ⟨c, hc, rfl⟩ := h.targets b hb s hs
    have hnone := List.countP_eq_zero.mp (Nat.le_zero.mp hn) c hc
    change c.id ∈ ids
    simpa using hnone
  | succ n ih =>
    by_cases hc : Closed f ids
    · exact hc.reachIn h (n + 1)
    · simp only [Closed, Classical.not_forall] at hc
      obtain ⟨b, hb, hid, s, hs, hnew⟩ := hc
      obtain ⟨c, hc, rfl⟩ := h.targets b hb s hs
      refine ih ?_
      have hlt := countP_lt (p := fun b => !(reachOut f ids).contains b.id)
        (q := fun b => !ids.contains b.id) (l := f.blocks) ?_ hc ?_ ?_
      · omega
      · intro d hd
        simp only [Bool.not_eq_true', List.contains_eq_mem, decide_eq_false_iff_not,
          mem_reachOut h] at hd ⊢
        exact fun hmem => hd (.inl hmem)
      · simp only [Bool.not_eq_false', List.contains_eq_mem, decide_eq_true_eq, mem_reachOut h]
        exact .inr ⟨b, hb, hid, hs⟩
      · simpa using hnew

/-- What holds of the entry and of what follows holds of all that can be reached. -/
theorem reachIn_induction {P : Nat → Prop} (h : f.Regular)
    (hstep : ∀ b ∈ f.blocks, P b.id → ∀ s ∈ b.successors, P s) (n : Nat)
    (hids : ∀ id ∈ ids, P id) : ∀ id ∈ reachIn f n ids, P id := by
  induction n generalizing ids with
  | zero => exact hids
  | succ n ih =>
    refine ih ?_
    intro id hid
    rcases (mem_reachOut h).mp hid with hid | ⟨b, hb, hb', hs⟩
    · exact hids id hid
    · exact hstep b hb (hids b.id hb') id hs

theorem subset_reachIn (h : f.Regular) (n : Nat) {id : Nat} (hid : id ∈ ids) :
    id ∈ reachIn f n ids := by
  induction n generalizing ids with
  | zero => exact hid
  | succ n ih => exact ih ((mem_reachOut h).mpr (.inl hid))

theorem closed_reachable (h : f.Regular) : Closed f (reachable f) :=
  closed_reachIn h List.countP_le_length

theorem entry_mem_reachable (h : f.Regular) : 0 ∈ reachable f := by
  refine subset_reachIn h _ ?_
  rw [h.entry]
  exact List.mem_cons_self

theorem avail_reachable (h : f.Sound w) {id : Nat} (hid : id ∈ reachable f) {v : Nat}
    (hv : w.avail id v) : ∃ c ∈ f.blocks, c.id ∈ reachable f ∧ v ∈ c.dsts := by
  have hall : ∀ id ∈ reachable f, id ∈ reachable f ∧ ∀ v, w.avail id v →
      ∃ c ∈ f.blocks, c.id ∈ reachable f ∧ v ∈ c.dsts := by
    refine reachIn_induction (P := fun id => id ∈ reachable f ∧ ∀ v, w.avail id v →
      ∃ c ∈ f.blocks, c.id ∈ reachable f ∧ v ∈ c.dsts) h.shaped.toRegular ?_ _ ?_
    · rintro b hb ⟨hmem, havail⟩ s hs
      refine ⟨closed_reachable h.shaped.toRegular b hb hmem s hs, ?_⟩
      intro v hv
      rcases h.flows.edges b hb s hs v hv with hv | hv
      · exact havail v hv
      · exact ⟨b, hb, hmem, hv⟩
    · intro id hid
      rw [h.shaped.entry] at hid
      obtain rfl := List.mem_singleton.mp hid
      exact ⟨entry_mem_reachable h.shaped.toRegular, fun v hv => absurd hv (h.flows.entry v)⟩
  exact (hall id hid).2 v hv

def reach (f : Func) : Trimming where
  alive := fun id => (reachable f).contains id
  live := fun p _ => !((f.blocks.map Block.id).filter (!(reachable f).contains ·)).contains p
  settle := id

theorem alive_reach {id : Nat} : (reach f).alive id = true ↔ id ∈ reachable f := by
  simp [reach]

theorem cuts_reach (h : f.Regular) : f.Cuts (reach f) := by
  have hlive : ∀ b ∈ f.blocks, ∀ s, (reach f).live b.id s = (reach f).alive b.id := by
    intro b hb s
    rw [Bool.eq_iff_iff]
    simp only [reach, Bool.not_eq_true', List.contains_eq_mem, decide_eq_false_iff_not,
      List.mem_filter, decide_eq_true_eq, Classical.not_and_iff_not_or_not, Classical.not_not]
    exact ⟨fun hor => hor.resolve_left (not_not_intro (List.mem_map_of_mem hb)), .inr⟩
  refine ⟨?_, ?_, ?_, ?_⟩
  · intro b hb s hs
    rw [← hlive b hb s]
    exact hs
  · exact alive_reach.mpr (entry_mem_reachable h)
  · intro b hb ha s hs _
    exact alive_reach.mpr (closed_reachable h b hb (alive_reach.mp ha) s hs)
  · intro b hb ha t ht
    refine ⟨t, rfl, .keep ?_⟩
    intro s _
    rw [hlive b hb s]
    exact ha

theorem trims_reach (h : f.Sound w) : f.Trims w (reach f) where
  toCuts := cuts_reach h.shaped.toRegular
  defined := by
    intro b hb ha v hv
    obtain ⟨c, hc, hid, hv⟩ := avail_reachable h (alive_reach.mp ha) hv
    exact ⟨c, hc, alive_reach.mpr hid, hv⟩

theorem dropUnreachable_eq :
    (dropUnreachable f).func = f ∨ (dropUnreachable f).func = f.trimmed (reach f) := by
  unfold dropUnreachable
  simp only
  split
  next => exact .inl rfl
  next =>
    right
    simp only [Func.mapBlocks, Func.trimmed]
    congr 1

theorem correct_dropUnreachable : Transformation.Correct dropUnreachable := by
  intro f w h
  rcases @dropUnreachable_eq f with he | he
  · rw [he]
    exact .refl h
  · rw [he]
    exact (trims_reach h).improves h

end ControlFlow

end FormCompiler
