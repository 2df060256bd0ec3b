import FormCompiler.Pass.DeadCode
import FormCompiler.Proofs.Machine.Mirror
import FormCompiler.Proofs.Machine.Simulation
import FormCompiler.Proofs.Pass.Exact
import FormCompiler.Proofs.Pass.Settle

namespace FormCompiler

structure Func.Discards (f : Func) (keep : Instruction → Bool) : Prop where
  calls : ∀ i ∈ f.instructions, i.op.isCall = true → keep i = true
  unused : ∀ i ∈ f.instructions, keep i = false → .value i.dst ∉ (f.filterInstructions keep).uses

namespace Func

variable {f : Func} {keep keep' : Instruction → Bool}

theorem instructions_filterInstructions (f : Func) (keep : Instruction → Bool) :
    (f.filterInstructions keep).instructions = f.instructions.filter keep := by
  simp only [filterInstructions, mapBlocks, instructions, List.flatMap_map, List.filter_flatMap]

theorem filterInstructions_filterInstructions (f : Func) (keep keep' : Instruction → Bool) :
    (f.filterInstructions keep).filterInstructions keep' =
      f.filterInstructions fun i => keep i && keep' i := by
  simp only [filterInstructions, mapBlocks, List.map_map, Function.comp_def, List.filter_filter,
    Bool.and_comm]

theorem filterInstructions_congr (h : ∀ i ∈ f.instructions, keep' i = keep i) :
    f.filterInstructions keep' = f.filterInstructions keep := by
  simp only [filterInstructions, mapBlocks]
  congr 1
  refine List.map_congr_left ?_
  intro b hb
  have hi : b.instructions.filter keep' = b.instructions.filter keep :=
    List.filter_congr fun i hi => h i (mem_instructions.mpr ⟨b, hb, hi⟩)
  rw [hi]

theorem filterInstructions_eq_self (h : ∀ i ∈ f.instructions, keep i = true) :
    f.filterInstructions keep = f :=
  calc f.filterInstructions keep = f.filterInstructions fun _ => true := filterInstructions_congr h
    _ = f.pruned (fun _ => true) id := (DeadCode.pruned_id f _).symm
    _ = f := f.pruned_nothing

theorem uses_filterInstructions {o : Operand} (ho : o ∈ (f.filterInstructions keep).uses) :
    o ∈ f.uses := by
  obtain ⟨c, hc, ho⟩ := List.mem_flatMap.mp ho
  obtain ⟨b, hb, rfl⟩ := List.mem_map.mp hc
  refine List.mem_flatMap.mpr ⟨b, hb, ?_⟩
  rcases List.mem_append.mp ho with ho | ho
  · obtain ⟨i, hi, ho⟩ := List.mem_flatMap.mp ho
    exact List.mem_append_left _ (List.mem_flatMap.mpr ⟨i, (List.mem_filter.mp hi).1, ho⟩)
  · exact List.mem_append_right _ ho

theorem Discards.trans (h : f.Discards keep) (h' : (f.filterInstructions keep).Discards keep') :
    f.Discards fun i => keep i && keep' i := by
  have hmem {i : Instruction} (hi : i ∈ f.instructions) (hk : keep i = true) :
      i ∈ (f.filterInstructions keep).instructions := by
    rw [instructions_filterInstructions]
    exact List.mem_filter.mpr ⟨hi, hk⟩
  constructor
  · intro i hi hcall
    have hk := h.calls i hi hcall
    rw [hk, h'.calls i (hmem hi hk) hcall]
    rfl
  · intro i hi hk
    rw [← filterInstructions_filterInstructions]
    cases hfirst : keep i with
    | false => exact fun ho => h.unused i hi hfirst (uses_filterInstructions ho)
    | true =>
      rw [hfirst, Bool.true_and] at hk
      exact h'.unused i (hmem hi hfirst) hk

end Func

structure Frame.Skips (keep : Instruction → Bool) (F G : Frame Const) : Prop
    extends Frame.Shadows keep id F G where
  discards : F.func.Discards keep
  values : ∀ v, .value v ∈ G.func.uses → G.find? id (.value v) = F.find? id (.value v)

section Values

variable {get get' : Operand → Except Fault Const}

theorem Computation.run_congr (c : Computation) (fault : ArithError → Fault)
    (h : ∀ o ∈ c.operands, get' o = get o) : c.run get' fault = c.run get fault := by
  cases c <;> simp only [operands, List.mem_cons, List.not_mem_nil, or_false, forall_eq_or_imp,
    forall_eq] at h <;> simp only [run, h]

theorem mapM_congr {os : List Operand} (h : ∀ o ∈ os, get' o = get o) :
    os.mapM get' = os.mapM get := by
  induction os with
  | nil => rfl
  | cons o os ih =>
    rw [List.mapM_cons, List.mapM_cons, h o List.mem_cons_self,
      ih fun o' ho' => h o' (List.mem_cons_of_mem _ ho')]

end Values

namespace Frame.Skips

variable {keep : Instruction → Bool} {F G : Frame Const} {b : Block} {i : Instruction}
  {o : Operand}

theorem func (h : Skips keep F G) : G.func = F.func.filterInstructions keep :=
  h.target.trans (DeadCode.pruned_id _ _)

theorem get (h : Skips keep F G) (ho : o ∈ G.func.uses) : G.get id o = F.get id o := by
  have hfind : G.find? id o = F.find? id o := by
    cases o with
    | const c => rfl
    | param n => rw [find?_param, find?_param, h.args]
    | value v => exact h.values v ho
  unfold Frame.get
  rw [hfind, h.name]

theorem stands_kept (h : Skips keep F G) (hi : F.Stands b (some i)) (hk : keep i = true) :
    G.Stands (b.pruned keep id) (some i) :=
  i.mapOperands_id ▸ h.stands hi hk

theorem mem_uses (hG : G.Stands b (some i)) (ho : o ∈ i.operands) : o ∈ G.func.uses :=
  Func.mem_uses_instruction (List.mem_of_find?_eq_some hG.block) (List.mem_of_getElem? hG.pc) ho

theorem next (h : Skips keep F G) (hi : F.Stands b (some i)) (hk : keep i = true) :
    Skips keep F.next G.next where
  toShadows := h.toShadows.next hi hk
  discards := h.discards
  values := by
    intro v hv
    rw [find?_next, find?_next]
    exact h.values v hv

theorem set (h : Skips keep F G) (dst : Nat) (c : Const) :
    Skips keep (F.set dst c) (G.set dst c) where
  toShadows := h.toShadows.set dst c
  discards := h.discards
  values := by
    intro v hv
    rw [find?_set, find?_set, h.values v hv]

theorem skip (h : Skips keep F G) (hi : F.Stands b (some i)) (hk : keep i = false) (c : Const) :
    Skips keep (F.next.set i.dst c) G where
  toShadows := (h.toShadows.skip hi hk).set_left i.dst c
  discards := h.discards
  values := by
    intro v hv
    have hmem : i ∈ F.func.instructions := Func.mem_instructions.mpr
      ⟨b, List.mem_of_find?_eq_some hi.block, List.mem_of_getElem? hi.pc⟩
    have hne : v ≠ i.dst := by
      rintro rfl
      exact h.discards.unused i hmem hk (h.func ▸ hv)
    rw [find?_set, if_neg hne, find?_next]
    exact h.values v hv

theorem jump (h : Skips keep F G) (target : Nat) : Skips keep (F.jump target) (G.jump target) where
  toShadows := h.toShadows.jump target
  discards := h.discards
  values := by
    intro v hv
    rw [find?_jump, find?_jump]
    exact h.values v hv

theorem start {f : Func} (h : f.Discards keep) (args : List Const) (returnTo : Option Nat) :
    Skips keep (Frame.start f args returnTo)
      (Frame.start (f.filterInstructions keep) args returnTo) := by
  rw [← DeadCode.pruned_id]
  exact ⟨.start f args returnTo, h, fun v _ => by rw [find?_start, find?_start]⟩

theorem value (h : Skips keep F G) (hG : G.Stands b (some i)) :
    Machine.value G i.dst i.op = Machine.value F i.dst i.op := by
  have hget : ∀ o ∈ i.op.operands, G.get id o = F.get id o := fun o ho => h.get (mem_uses hG ho)
  obtain ⟨dst, op⟩ := i
  cases op with
  | call callee args returns => simp only [Machine.value, h.name]
  | compute c => rw [value_compute, value_compute, h.name, c.run_congr _ hget]
  | phi type incoming =>
    simp only [Machine.value, h.previous, h.name]
    split
    next hfind => exact hget _ (List.mem_map_of_mem (List.mem_of_find?_eq_some hfind))
    next => rfl

theorem matches_perform (h : Skips keep F G) (hi : F.Stands b (some i)) (hk : keep i = true) :
    Action.Matches (Skips keep) (F.perform i) (G.perform i) := by
  have hG := h.stands_kept hi hk
  have hnext := h.next hi hk
  have hcompute (hcall : i.op.isCall = false) :
      Action.Matches (Skips keep) (F.perform i) (G.perform i) := by
    have hvalue := h.value hG
    cases hv : Machine.value F i.dst i.op with
    | ok c =>
      rw [perform_value hcall hv, perform_value hcall (hvalue.trans hv)]
      exact .goes (hnext.set _ _)
    | error fault =>
      rw [perform_fault hcall hv, perform_fault hcall (hvalue.trans hv)]
      exact .fails
  cases hop : i.op with
  | compute c => exact hcompute (by rw [hop]; rfl)
  | phi type incoming => exact hcompute (by rw [hop]; rfl)
  | call callee operands returns =>
    have hmapM : operands.mapM (G.get id) = operands.mapM (F.get id) := by
      refine mapM_congr ?_
      intro o ho
      refine h.get (mem_uses hG ?_)
      rw [Instruction.operands, hop]
      exact ho
    cases ha : operands.mapM (F.get id) with
    | ok values =>
      rw [perform_call hop ha, perform_call hop (hmapM.trans ha)]
      exact .calls hnext fun c => hnext.set _ c
    | error fault =>
      rw [perform_argFault hop ha, perform_argFault hop (hmapM.trans ha)]
      exact .fails

theorem matches_leave (h : Skips keep F G) (label : String) {t : Option Terminator}
    (ht : ∀ o ∈ (t.map Terminator.operands).getD [], G.get id o = F.get id o) :
    Action.Matches (Skips keep) (F.leave label t) (G.leave label t) := by
  cases t with
  | none =>
    simp only [leave, h.name]
    exact .fails
  | some t =>
    cases t with
    | br target => exact .goes (h.jump target)
    | ret o =>
      cases o with
      | none => exact .returns
      | some o =>
        simp only [leave, ht o List.mem_cons_self]
        cases F.get id o with
        | ok c => exact .returns
        | error fault => exact .fails
    | condBr o whenTrue whenFalse =>
      simp only [leave, ht o List.mem_cons_self, h.name]
      cases F.get id o with
      | error fault => exact .fails
      | ok c =>
        cases c with
        | i1 taken =>
          cases taken with
          | true => exact .goes (h.jump whenTrue)
          | false => exact .goes (h.jump whenFalse)
        | i32 n => exact .fails
        | f64 x => exact .fails

theorem mirrors (keep : Instruction → Bool) :
    Mirrors (fun F _ => ∃ i, F.current? = some i ∧ keep i = false) (Skips keep) where
  returnTo := fun h => h.returnTo
  action := by
    intro F G h
    cases hb : F.func.block? F.block with
    | none =>
      have hG : G.func.block? G.block = none := by
        rw [h.target, h.block, Func.block?_pruned, hb]
        rfl
      right
      left
      rw [action_missing hb, action_missing hG, h.name, h.block]
      exact .fails
    | some b =>
      cases hi : b.instructions[F.pc]? with
      | none =>
        have hF : F.Stands b none := ⟨hb, hi⟩
        have hG := h.stands_end hF
        have hsame : (b.pruned keep id).terminator = b.terminator := by simp [Block.pruned]
        right
        left
        rw [action_leave hF, action_leave hG, hsame]
        refine h.matches_leave b.label ?_
        intro o ho
        rw [← hsame] at ho
        exact h.get (List.mem_flatMap.mpr
          ⟨_, List.mem_of_find?_eq_some hG.block, List.mem_append_right _ ho⟩)
      | some i =>
        have hF : F.Stands b (some i) := ⟨hb, hi⟩
        rw [action_perform hF]
        cases hk : keep i with
        | true =>
          rw [action_perform (h.stands_kept hF hk)]
          exact .inr (.inl (h.matches_perform hF hk))
        | false =>
          have hcall : i.op.isCall = false := by
            refine Bool.eq_false_iff.mpr ?_
            intro hcall
            have hmem : i ∈ F.func.instructions := Func.mem_instructions.mpr
              ⟨b, List.mem_of_find?_eq_some hb, List.mem_of_getElem? hi⟩
            cases (h.discards.calls i hmem hcall).symm.trans hk
          cases hv : Machine.value F i.dst i.op with
          | ok c =>
            rw [perform_value hcall hv]
            exact .inl ⟨_, rfl, h.skip hF hk c⟩
          | error fault =>
            rw [perform_fault hcall hv]
            exact .inr (.inr ⟨fault, rfl, i, hF.current?, hk⟩)

end Frame.Skips

namespace DeadCode

variable {f : Func} {p q : Program}

theorem discards_round (f : Func) : f.Discards fun i => i.hasSideEffects || f.isUsed i.dst where
  calls := by
    intro i _ hcall
    rw [Instruction.hasSideEffects, hcall, Bool.true_or]
  unused := by
    intro i _ hk ho
    have hused : f.isUsed i.dst = true :=
      List.contains_iff_mem.mpr (Func.uses_filterInstructions ho)
    rw [hused, Bool.or_true] at hk
    cases hk

theorem lightens_round : Transformation.Lightens round := by
  intro f h
  have hne : (round f).func.instructionCount ≠ f.instructionCount := bne_iff_ne.mp h
  have hle : (round f).func.instructionCount ≤ f.instructionCount := by
    simp only [round, Func.instructionCount, Func.instructions_filterInstructions]
    exact List.length_filter_le _ _
  have hblocks : (round f).func.blocks.length = f.blocks.length := List.length_map _
  have hbranches : (round f).func.branchCount = f.branchCount := List.countP_map
  unfold Func.weight
  omega

theorem exists_discards {g : Func} (h : Transformation.Settles round f g) :
    ∃ keep, f.Discards keep ∧ g = f.filterInstructions keep := by
  induction h with
  | stop _ => exact ⟨_, discards_round _, rfl⟩
  | @again f g _ _ ih =>
    obtain ⟨keep, hk, rfl⟩ := ih
    exact ⟨_, (discards_round f).trans hk, Func.filterInstructions_filterInstructions _ _ _⟩

def needed (f : Func) (i : Instruction) : Bool := decide (i ∈ (run f).func.instructions)

theorem run_eq (f : Func) :
    f.Discards (needed f) ∧ (run f).func = f.filterInstructions (needed f) := by
  obtain ⟨keep, hk, he⟩ := exists_discards (Transformation.settles_exhaust lightens_round f)
  change (run f).func = _ at he
  have hsame : ∀ i ∈ f.instructions, needed f i = keep i := by
    intro i hi
    rw [needed, he, Func.instructions_filterInstructions, Bool.eq_iff_iff, decide_eq_true_iff,
      List.mem_filter]
    exact and_iff_right hi
  have hfilter := Func.filterInstructions_congr hsame
  refine ⟨⟨fun i hi hcall => (hsame i hi).trans (hk.calls i hi hcall), ?_⟩, he.trans hfilter.symm⟩
  intro i hi hneeded
  rw [hfilter]
  exact hk.unused i hi ((hsame i hi).symm.trans hneeded)

theorem round_unchanged (h : (round f).changed = false) : (round f).func = f ∧
    ∀ i ∈ f.instructions, i.op.isCall = false → .value i.dst ∈ f.uses := by
  have hlength : (f.instructions.filter fun i => i.hasSideEffects || f.isUsed i.dst).length =
      f.instructions.length := by
    rw [← Func.instructions_filterInstructions]
    exact bne_eq_false_iff_eq.mp h
  have hk := List.length_filter_eq_length_iff.mp hlength
  refine ⟨Func.filterInstructions_eq_self hk, ?_⟩
  intro i hi hcall
  have hused := hk i hi
  rw [Instruction.hasSideEffects, hcall, Bool.false_or] at hused
  exact List.contains_iff_mem.mp hused

theorem used_of_mem_run {i : Instruction} (hi : i ∈ (run f).func.instructions)
    (hcall : i.op.isCall = false) : .value i.dst ∈ (run f).func.uses := by
  obtain ⟨g, hg, he⟩ := (Transformation.settles_exhaust lightens_round f).exists_last
  obtain ⟨hsame, hused⟩ := round_unchanged hg
  change (run f).func = _ at he
  rw [he, hsame] at hi ⊢
  exact hused i hi hcall

/-- The second program has the code of the first, some of it without its dead code. -/
structure Cleans (p q : Program) : Prop where
  host : q.host = p.host
  depth : q.depth = p.depth
  code : ∀ name, q.code.get? name = p.code.get? name ∨
    ∃ f, p.code.get? name = some f ∧ q.code.get? name = some (run f).func

def Drops (p q : Program) (F : Frame Const) : Prop :=
  ∃ name i, p.code.get? name = some F.func ∧ q.code.get? name = some (run F.func).func ∧
    F.current? = some i ∧ i ∉ (run F.func).func.instructions

structure Cleaned (p q : Program) (F G : Frame Const) : Prop where
  skips : F.Skips (needed F.func) G
  code : ∃ name, p.code.get? name = some F.func ∧ q.code.get? name = some (run F.func).func

theorem Cleaned.next {F G F' G' : Frame Const} (h : Cleaned p q F G) (hF : F'.func = F.func)
    (hs : F'.Skips (needed F.func) G') : Cleaned p q F' G' :=
  ⟨hF ▸ hs, hF ▸ h.code⟩

theorem mirrors_cleaned (p q : Program) :
    Frame.Mirrors (fun F _ => Drops p q F) (Cleaned p q) where
  returnTo := fun h => h.skips.returnTo
  action := by
    intro F G h
    rcases (Frame.Skips.mirrors (needed F.func)).action h.skips with
      ⟨F', ha, hs⟩ | hm | ⟨fault, ha, i, hi, hk⟩
    · exact .inl ⟨F', ha, h.next (Frame.goes_keeps ha).1 hs⟩
    · right
      left
      generalize ha : F.action = a at hm
      generalize G.action = a' at hm
      cases hm with
      | goes hs => exact .goes (h.next (Frame.goes_keeps ha).1 hs)
      | calls hs hset =>
        have hfunc := (Frame.calls_keeps ha).1
        exact .calls (h.next hfunc hs) fun c => h.next hfunc (hset c)
      | returns => exact .returns
      | fails => exact .fails
    · obtain ⟨name, hp, hq⟩ := h.code
      exact .inr (.inr ⟨fault, ha, name, i, hp, hq, hi, of_decide_eq_false hk⟩)

theorem Cleans.mirrors (h : Cleans p q) : p.Mirrors (fun F G => G = F ∨ Cleaned p q F G) q where
  host := h.host
  depth := h.depth
  code := by
    intro name
    rcases h.code name with hsame | ⟨f, hf, hq⟩
    · cases hp : p.code.get? name with
      | none => exact .inl ⟨rfl, hsame.trans hp⟩
      | some f => exact .inr ⟨f, f, rfl, hsame.trans hp, rfl, fun _ _ => .inl rfl⟩
    · obtain ⟨hd, he⟩ := run_eq f
      have hs (args : List Const) (returnTo : Option Nat) :
          (Frame.start f args returnTo).Skips (needed f)
            (Frame.start (run f).func args returnTo) := by
        rw [he]
        exact .start hd args returnTo
      refine .inr ⟨f, _, hf, hq, by rw [he]; rfl, fun args returnTo => .inr ⟨hs args returnTo, ?_⟩⟩
      exact ⟨name, hf, hq⟩

/-- Eliminating dead code only removes work. Of any code, well-formed or not, it leaves the calls
and what is used, in order; a call of any function comes to the same end after the same calls of
host functions, unless it fails at an instruction that has been removed. -/
theorem run_removes_work :
    (∀ f : Func, (run f).func = f.filterInstructions (needed f) ∧
      (∀ i ∈ f.instructions, i.op.isCall = true → i ∈ (run f).func.instructions) ∧
      ∀ i ∈ (run f).func.instructions, i.op.isCall = false → .value i.dst ∈ (run f).func.uses) ∧
    ∀ p q, Cleans p q → ∀ fuel name args calls,
      (∀ r, p.call fuel name args = some ⟨.ok r, calls⟩ →
        q.call fuel name args = some ⟨.ok r, calls⟩) ∧
      ∀ fault, p.call fuel name args = some ⟨.error fault, calls⟩ →
        q.call fuel name args = some ⟨.error fault, calls⟩ ∨
        ∃ frame rest, p.Passes name args ⟨frame :: rest, calls⟩ ∧ frame.action = .fails fault ∧
          Drops p q frame := by
  refine ⟨fun f => ⟨(run_eq f).2, ?_, fun i => used_of_mem_run⟩, ?_⟩
  · intro i hi hcall
    exact of_decide_eq_true ((run_eq f).1.calls i hi hcall)
  · intro p q h fuel name args calls
    have hcall {o : Outcome} (ho : p.call fuel name args = some o) :=
      h.mirrors.call (mirrors_cleaned p q).or_eq ho
    constructor
    · intro r hr
      rcases hcall hr with hq | ⟨m, _, hm⟩
      · exact hq
      · cases hm
    · intro fault hr
      rcases hcall hr with hq | ⟨m, hpasses, hm⟩
      · exact .inl hq
      · obtain ⟨ha, hdrops⟩ := hm
        exact .inr ⟨_, _, hpasses, ha, hdrops⟩

theorem cleans_load (p : Program) (f : Func) : Cleans (p.load f) (p.load (run f).func) where
  host := rfl
  depth := rfl
  code := by
    intro name
    have hname : (run f).func.name = f.name := by
      rw [(run_eq f).2]
      rfl
    simp only [Program.load, Table.get?_insert, hname]
    split
    next => exact .inr ⟨f, rfl, rfl⟩
    next => exact .inl rfl

def spare : Func :=
  ⟨⟨"spare", [("p0", .i32), ("p1", .i32)], .i32⟩,
    [⟨0, "entry", [⟨0, .compute (.int .div (.param 0) (.param 1))⟩,
      ⟨1, .compute (.int .add (.value 0) (.const (.i32 1)))⟩], some (.ret (some (.param 0)))⟩],
    [.i32, .i32]⟩

theorem run_spare : (run spare).func = spare.filterInstructions fun _ => false := by
  have hrun : (run spare).func = (round (round (round spare).func).func).func := by
    rw [run, Transformation.exhaust, dif_pos (by with_unfolding_all decide),
      Transformation.exhaust, dif_pos (by with_unfolding_all decide),
      Transformation.exhaust, dif_neg (by with_unfolding_all decide)]
  rw [hrun]
  with_unfolding_all rfl

theorem run_removes_work_spare :
    let p := Program.load {} spare
    let q := Program.load {} (run spare).func
    q.call 10 "spare" [.i32 6, .i32 2] = some ⟨.ok (some (.i32 6)), []⟩ ∧
      p.call 10 "spare" [.i32 6, .i32 0] = some ⟨.error (.divisionByZero "spare"), []⟩ ∧
      ∃ frame rest, p.Passes "spare" [.i32 6, .i32 0] ⟨frame :: rest, []⟩ ∧
        frame.action = .fails (.divisionByZero "spare") ∧ Drops p q frame := by
  intro p q
  have hcleans : Cleans p q := cleans_load {} spare
  have hfails : p.call 10 "spare" [.i32 6, .i32 0] =
      some ⟨.error (.divisionByZero "spare"), []⟩ := by with_unfolding_all rfl
  refine ⟨(run_removes_work.2 p q hcleans 10 "spare" [.i32 6, .i32 2] []).1 _
    (by with_unfolding_all rfl), hfails, ?_⟩
  rcases (run_removes_work.2 p q hcleans 10 "spare" [.i32 6, .i32 0] []).2 _ hfails with hq | hd
  · have hreturns : q.call 10 "spare" [.i32 6, .i32 0] = some ⟨.ok (some (.i32 6)), []⟩ := by
      simp only [q]
      rw [run_spare]
      with_unfolding_all rfl
    cases hq.symm.trans hreturns
  · exact hd

end DeadCode

end FormCompiler
