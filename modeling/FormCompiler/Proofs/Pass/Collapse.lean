import FormCompiler.Proofs.Pass.Folding

namespace FormCompiler.ControlFlow

def collapse (f : Func) (e : Nat × Operand) : Func :=
  f.pruned (fun i => i.dst != e.1) (Operand.replace e.1 e.2)

def Collapsible (f : Func) (e : Nat × Operand) : Prop :=
  ∃ i ∈ f.instructions, i.dst = e.1 ∧ ∃ type incoming, i.op = .phi type incoming ∧
    incoming ≠ [] ∧ (∀ x ∈ incoming, x.1.agrees e.2 = true) ∧ e.2 ≠ .value e.1 ∧
    f.operandType? e.2 = some type

variable {f : Func} {w : Flow} {e : Nat × Operand}

theorem replace_of_ne {o : Operand} (h : o ≠ .value e.1) : Operand.replace e.1 e.2 o = o :=
  if_neg h

theorem Collapsible.prunes (h : f.Sound w) (he : Collapsible f e) :
    f.Prunes (fun i => i.dst != e.1) (Operand.replace e.1 e.2) := by
  obtain ⟨i, hi, hdst, type, incoming, hop, hne, hall, hself, htype⟩ := he
  have hsame : ∀ j ∈ f.instructions, (j.dst != e.1) = false → j = i := by
    intro j hj hk
    obtain ⟨b, hb, hj⟩ := Func.mem_instructions.mp hj
    obtain ⟨c, hc, hi⟩ := Func.mem_instructions.mp hi
    exact (h.shaped.eq_of_dst hb hc hj hi (by simpa [hdst] using hk)).2
  refine ⟨fun _ => rfl, fun _ => rfl, ?_, ?_, ?_⟩
  · intro j hj hk
    refine replace_of_ne ?_
    intro heq
    injection heq with heq
    simp [heq] at hk
  · intro j hj hk
    rw [hsame j hj hk, hop]
    rfl
  · intro j hj hk
    have hji := hsame j hj hk
    subst hji
    have hreplace : Operand.replace e.1 e.2 (.value j.dst) = e.2 := if_pos (by rw [hdst])
    rw [hreplace]
    cases ho : e.2 with
    | const c =>
      refine .const ?_
      rw [ho] at htype
      cases htype
      rw [Instruction.type, hop]
      rfl
    | param index =>
      refine .phi hop hne ?_ fun k _ hk => by cases hk
      intro x hx
      rcases Operand.agrees_cases (hall x hx) with heq | ⟨_, _, _, hc, _⟩
      · rw [heq, ho]
      · rw [ho] at hc
        cases hc
    | value v =>
      refine .phi hop hne ?_ ?_
      · intro x hx
        rcases Operand.agrees_cases (hall x hx) with heq | ⟨_, _, _, hc, _⟩
        · rw [heq, ho]
        · rw [ho] at hc
          cases hc
      · intro k _ hk
        rw [← ho] at hk
        rw [hk] at hself
        simpa using hself

theorem Collapsible.foretold (h : f.Sound w) (he : Collapsible f e) (hp : f.Plain) :
    f.Foretold (fun i => i.dst != e.1) (Operand.replace e.1 e.2) := by
  obtain ⟨i, hi, hdst, type, incoming, hop, _, hall, _, htype⟩ := he
  intro j hj hk c hσ F a hv
  have hji : j = i := by
    obtain ⟨b, hb, hj⟩ := Func.mem_instructions.mp hj
    obtain ⟨c, hc, hi⟩ := Func.mem_instructions.mp hi
    exact (h.shaped.eq_of_dst hb hc hj hi (by simpa [hdst] using hk)).2
  subst hji
  have hreplace : Operand.replace e.1 e.2 (.value j.dst) = e.2 := if_pos (by rw [hdst])
  rw [hreplace] at hσ
  have hplain := hp j hj (by rw [hop]; rfl)
  rw [Instruction.type, hop] at hplain
  have hsame : ∀ x ∈ incoming, x.1 = .const c := by
    intro x hx
    rw [← hσ]
    exact Operand.eq_of_agrees f.operandType?_const (hall x hx) htype hplain
  rw [hop] at hv
  exact (Option.some.inj (Frame.value_phi hsame hv)).symm

theorem Collapsible.improves (h : f.Sound w) (he : Collapsible f e) : f.Improves (collapse f e) :=
  (he.prunes h).improves h (he.foretold h)

theorem Collapsible.later {e' : Nat × Operand} (he' : Collapsible f e') (hdst : e.1 ≠ e'.1)
    (hne : e'.2 ≠ .value e.1) : Collapsible (collapse f e) e' := by
  obtain ⟨i, hi, hdst', type, incoming, hop, hnil, hall, hself, htype⟩ := he'
  obtain ⟨b, hb, hi⟩ := Func.mem_instructions.mp hi
  refine ⟨i.mapOperands (Operand.replace e.1 e.2), ?_, hdst', type,
    incoming.map fun x => (Operand.replace e.1 e.2 x.1, x.2), ?_, ?_, ?_, hself, ?_⟩
  · refine Func.mem_instructions.mpr ⟨_, Func.mem_blocks_pruned.mpr ⟨b, hb, rfl⟩, ?_⟩
    refine Func.mem_pruned.mpr ⟨i, hi, ?_, rfl⟩
    simpa [hdst'] using Ne.symm hdst
  · rw [Instruction.mapOperands, hop]
    rfl
  · simpa using hnil
  · intro x hx
    obtain ⟨y, hy, rfl⟩ := List.mem_map.mp hx
    have hagree := hall y hy
    have hkeep : y.1 ≠ .value e.1 := by
      intro heq
      rcases Operand.agrees_cases hagree with h | ⟨_, _, h, _⟩
      · exact hne (h.symm.trans heq)
      · rw [heq] at h
        cases h
    rw [replace_of_ne hkeep]
    exact hagree
  · rw [← htype]
    cases e'.2 <;> rfl

theorem improves_foldl (found : List (Nat × Operand)) {f : Func} {w : Flow} (h : f.Sound w)
    (hall : ∀ e ∈ found, Collapsible f e)
    (horder : found.Pairwise fun e e' => e.1 ≠ e'.1 ∧ e'.2 ≠ .value e.1) :
    f.Improves (found.foldl collapse f) := by
  induction found generalizing f w with
  | nil => exact .refl h
  | cons e found ih =>
    obtain ⟨hfirst, horder⟩ := List.pairwise_cons.mp horder
    have he := hall e List.mem_cons_self
    have himproves := he.improves h
    obtain ⟨w', hw'⟩ := himproves.sound
    refine himproves.trans (ih hw' ?_ horder)
    intro e' he'
    obtain ⟨hdst, hne⟩ := hfirst e' he'
    exact (hall e' (List.mem_cons_of_mem _ he')).later hdst hne

theorem foldl_replaceUses (found : List (Nat × Operand)) (f : Func) :
    found.foldl (fun g e => g.replaceUses e.1 e.2)
      (f.filterInstructions fun i => !(found.map Prod.fst).contains i.dst) =
      found.foldl collapse f := by
  induction found generalizing f with
  | nil =>
    have hall : ∀ is : List Instruction, is.filter (fun _ => true) = is :=
      fun is => List.filter_eq_self.mpr fun _ _ => rfl
    simp [Func.filterInstructions, Func.mapBlocks, hall]
  | cons e found ih =>
    rw [List.foldl_cons, List.foldl_cons, ← ih (collapse f e)]
    congr 1
    simp only [collapse, Func.pruned, Func.filterInstructions, Func.replaceUses, Func.mapOperands,
      Func.mapBlocks, List.map_map]
    congr 1
    refine List.map_congr_left ?_
    intro b _
    simp only [Function.comp_apply, Block.mapOperands, Block.pruned, List.filter_map,
      List.filter_filter, Block.mk.injEq, true_and, and_true]
    congr 2
    funext i
    simp only [Instruction.mapOperands_dst, List.map_cons, List.contains_cons, Bool.not_or, bne]
    rw [Bool.and_comm]

theorem trivial?_eq_some {i : Instruction} {o : Operand} :
    trivial? i = some o ↔ ∃ type incoming, i.op = .phi type incoming ∧
      (∃ block rest, incoming = (o, block) :: rest) ∧
      (∀ x ∈ incoming, x.1.agrees o = true) ∧ o ≠ .value i.dst := by
  unfold trivial?
  constructor
  · intro h
    split at h
    next type first block rest hop =>
      split at h
      next hc =>
        cases h
        simp only [Bool.and_eq_true, List.all_eq_true, bne_iff_ne] at hc
        exact ⟨type, _, hop, ⟨block, rest, rfl⟩, hc.1, hc.2⟩
      next => cases h
    next => cases h
  · rintro ⟨type, _, hop, ⟨block, rest, rfl⟩, hall, hne⟩
    rw [hop]
    simp only
    rw [if_pos]
    simp only [Bool.and_eq_true, List.all_eq_true, bne_iff_ne]
    exact ⟨hall, hne⟩

theorem pairwise_instructions (h : f.Sound w) :
    f.instructions.Pairwise fun i j => i.dst ≠ j.dst ∧
      (i.op.isPhi = true → j.op.isPhi = true → .value i.dst ∉ j.operands) := by
  refine List.pairwise_flatMap.mpr ⟨?_, ?_⟩
  · intro b hb
    have hn : b.instructions.Pairwise fun i j => i.dst ≠ j.dst :=
      List.pairwise_map.mp (h.shaped.dsts b hb)
    refine hn.imp_of_mem ?_
    intro i j hi hj hne
    refine ⟨hne, ?_⟩
    intro hphi hphi' hreads
    exact Nat.lt_irrefl _ (h.phis.order b hb j hj hphi' _ hreads b hb i hi hphi rfl)
  · refine h.shaped.ids.imp_of_mem ?_
    intro b c hb hc hlt i hi j hj
    refine ⟨?_, ?_⟩
    · intro he
      obtain ⟨rfl, _⟩ := h.shaped.eq_of_dst hb hc hi hj he
      exact Nat.lt_irrefl _ hlt
    · intro hphi hphi' hreads
      exact Nat.lt_asymm hlt (h.phis.order c hc j hj hphi' _ hreads b hb i hi hphi rfl)

def trivials (f : Func) : List (Nat × Operand) :=
  f.instructions.filterMap fun i => (trivial? i).map fun o => (i.dst, o)

theorem mem_trivials {e : Nat × Operand} :
    e ∈ trivials f ↔ ∃ i ∈ f.instructions, trivial? i = some e.2 ∧ i.dst = e.1 := by
  simp only [trivials, List.mem_filterMap, Option.map_eq_some_iff]
  constructor
  · rintro ⟨i, hi, o, ho, rfl⟩
    exact ⟨i, hi, ho, rfl⟩
  · rintro ⟨i, hi, ho, hdst⟩
    exact ⟨i, hi, e.2, ho, Prod.ext hdst rfl⟩

theorem collapsible_of_mem (h : f.Sound w) (he : e ∈ trivials f) : Collapsible f e := by
  obtain ⟨i, hi, ho, hdst⟩ := mem_trivials.mp he
  obtain ⟨type, incoming, hop, ⟨block, rest, hfirst⟩, hall, hne⟩ := trivial?_eq_some.mp ho
  refine ⟨i, hi, hdst, type, incoming, hop, ?_, hall, hdst ▸ hne, ?_⟩
  · rw [hfirst]
    exact List.cons_ne_nil _ _
  · obtain ⟨b, hb, hi⟩ := Func.mem_instructions.mp hi
    have htyped := h.typed.operations b hb i hi
    rw [hop, hfirst] at htyped
    exact htyped _ List.mem_cons_self

theorem pairwise_trivials (h : f.Sound w) :
    (trivials f).Pairwise fun e e' => e.1 ≠ e'.1 ∧ e'.2 ≠ .value e.1 := by
  refine List.Pairwise.filterMap _ ?_ (pairwise_instructions h)
  rintro i j ⟨hdst, hreads⟩ e he e' he'
  obtain ⟨o, ho, rfl⟩ := Option.map_eq_some_iff.mp he
  obtain ⟨o', ho', rfl⟩ := Option.map_eq_some_iff.mp he'
  obtain ⟨type, incoming, hop, _⟩ := trivial?_eq_some.mp ho
  obtain ⟨type', incoming', hop', ⟨block, rest, hfirst⟩, _⟩ := trivial?_eq_some.mp ho'
  refine ⟨hdst, ?_⟩
  intro heq
  refine hreads (by rw [hop]; rfl) (by rw [hop']; rfl) ?_
  rw [Instruction.operands, hop', hfirst, ← heq]
  exact List.mem_cons_self

theorem filterInstructions_trivial (h : f.Sound w) :
    (f.filterInstructions fun i => (trivial? i).isNone) =
      f.filterInstructions fun i => !((trivials f).map Prod.fst).contains i.dst := by
  simp only [Func.filterInstructions, Func.mapBlocks]
  congr 1
  refine List.map_congr_left ?_
  intro b hb
  congr 1
  refine List.filter_congr ?_
  intro i hi
  have hmem : i.dst ∈ (trivials f).map Prod.fst ↔ (trivial? i).isSome = true := by
    constructor
    · intro hdst
      obtain ⟨e, he, heq⟩ := List.mem_map.mp hdst
      obtain ⟨j, hj, ho, hdst⟩ := mem_trivials.mp he
      obtain ⟨c, hc, hj⟩ := Func.mem_instructions.mp hj
      obtain ⟨_, rfl⟩ := h.shaped.eq_of_dst hc hb hj hi (hdst.trans heq)
      rw [ho]
      rfl
    · intro hsome
      obtain ⟨o, ho⟩ := Option.isSome_iff_exists.mp hsome
      exact List.mem_map.mpr ⟨(i.dst, o),
        mem_trivials.mpr ⟨i, Func.mem_instructions.mpr ⟨b, hb, hi⟩, ho, rfl⟩, rfl⟩
  rw [Bool.eq_iff_iff]
  simp [hmem]

theorem correct_collapsePhis : Transformation.Correct collapsePhis := by
  intro f w h
  have he : (collapsePhis f).func = (trivials f).foldl collapse f := by
    rw [← foldl_replaceUses, ← filterInstructions_trivial h]
    rfl
  rw [he]
  exact improves_foldl _ h (fun _ => collapsible_of_mem h) (pairwise_trivials h)

end FormCompiler.ControlFlow
