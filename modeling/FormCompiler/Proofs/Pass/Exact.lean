import Mathlib.Data.List.Nodup
import FormCompiler.Proofs.Code.Built
import FormCompiler.Proofs.Machine.Recursion
import FormCompiler.Proofs.Pass.Folding

/-!
Leaving out instructions whose results are known beforehand. Whatever the ways of control, a call
comes to the same end, as long as it does not come upon code that is wrong.
-/

namespace FormCompiler

/-- The run has not come upon code or values that do not fit each other. -/
def Outcome.Fair (o : Outcome) : Prop := ∀ g detail, o.result ≠ .error (.misfit g detail)

theorem Outcome.Fair.not_misfit {fault : Fault} {log : List HostCall}
    (h : Outcome.Fair ⟨.error fault, log⟩) {g : String} {detail : Fault.Misfit} :
    fault ≠ .misfit g detail := by
  rintro rfl
  exact h g detail rfl

theorem Outcome.fair_ok {r : Option Const} {log : List HostCall} : Outcome.Fair ⟨.ok r, log⟩ := by
  intro g detail he
  cases he

structure Func.Foregoes (f : Func) (keep : Instruction → Bool) (σ : Operand → Operand) : Prop where
  const : ∀ c, σ (.const c) = .const c
  param : ∀ n, σ (.param n) = .param n
  value : ∀ v, σ (.value v) = .value v ∨ ∃ c, σ (.value v) = .const c
  kept : ∀ i ∈ f.instructions, keep i = true → σ (.value i.dst) = .value i.dst
  removed : ∀ i ∈ f.instructions, keep i = false → ∀ a : Activation, ∃ r, a.compute? i = some r ∧
    ((∃ c, r = .ok c ∧ σ (.value i.dst) = .const c) ∨ ∃ g detail, r = .error (.misfit g detail))

namespace Func.Foregoes

variable {f : Func} {keep : Instruction → Bool} {σ : Operand → Operand} {i : Instruction}
  {a : Activation}

theorem keep_call (h : f.Foregoes keep σ) (hi : i ∈ f.instructions) {callee : String}
    {operands : List Operand} {returns : NativeType} (hop : i.op = .call callee operands returns) :
    keep i = true := by
  cases hk : keep i with
  | true => rfl
  | false =>
    obtain ⟨r, hr, _⟩ := h.removed i hi hk { func := f, args := [] }
    obtain ⟨dst, op⟩ := i
    cases hop
    cases hr

theorem replaced (h : f.Foregoes keep σ) (hi : i ∈ f.instructions) (hk : keep i = false)
    {c : Const} (hc : a.compute? i = some (.ok c)) : σ (.value i.dst) = .const c := by
  obtain ⟨r, hr, hcase⟩ := h.removed i hi hk a
  cases hc.symm.trans hr
  rcases hcase with ⟨c', hc', hσ⟩ | ⟨g, detail, hbad⟩
  · cases hc'
    exact hσ
  · cases hbad

theorem misfit (h : f.Foregoes keep σ) (hi : i ∈ f.instructions) (hk : keep i = false)
    {fault : Fault} (hc : a.compute? i = some (.error fault)) :
    ∃ g detail, fault = .misfit g detail := by
  obtain ⟨r, hr, hcase⟩ := h.removed i hi hk a
  cases hc.symm.trans hr
  rcases hcase with ⟨c, hbad, _⟩ | ⟨g, detail, hbad⟩
  · cases hbad
  · exact ⟨g, detail, Except.error.inj hbad⟩

end Func.Foregoes

structure Activation.Thins (keep : Instruction → Bool) (σ : Operand → Operand)
    (a a' : Activation) : Prop where
  foregoes : a.func.Foregoes keep σ
  func : a'.func = a.func.pruned keep σ
  args : a'.args = a.args
  previous : a'.previous = a.previous
  values : ∀ v c, a.values v = some c → a'.find? (σ (.value v)) = some c

inductive Task.Thins : Task → Task → Prop
  | call (name : String) (args : List Const) : Thins (.call name args) (.call name args)
  | block {keep : Instruction → Bool} {σ : Operand → Operand} {a a' : Activation} {id : Nat} :
      a.Thins keep σ a' → Thins (.block a id) (.block a' id)
  | code {keep : Instruction → Bool} {σ : Operand → Operand} {a a' : Activation} {b : Block}
      {is : List Instruction} : a.Thins keep σ a' → (∀ i ∈ is, i ∈ a.func.instructions) →
      Thins (.code a b is)
        (.code a' (b.pruned keep σ) ((is.filter keep).map (·.mapOperands σ)))

structure Program.Thins (p q : Program) : Prop where
  host : q.host = p.host
  depth : q.depth = p.depth
  code : ∀ name, p.code.get? name = none ∧ q.code.get? name = none ∨
    ∃ f keep σ, f.Foregoes keep σ ∧ p.code.get? name = some f ∧
      q.code.get? name = some (f.pruned keep σ)

namespace Program.Thins

variable {p q : Program} {name : String} {f : Func}

theorem get?_none (h : p.Thins q) (hn : p.code.get? name = none) : q.code.get? name = none := by
  rcases h.code name with ⟨_, hq⟩ | ⟨f, _, _, _, hf, _⟩
  · exact hq
  · cases hn.symm.trans hf

theorem get?_some (h : p.Thins q) (hf : p.code.get? name = some f) :
    ∃ keep σ, f.Foregoes keep σ ∧ q.code.get? name = some (f.pruned keep σ) := by
  rcases h.code name with ⟨hn, _⟩ | ⟨f', keep, σ, hforegoes, hf', hq⟩
  · cases hn.symm.trans hf
  · cases hf.symm.trans hf'
    exact ⟨keep, σ, hforegoes, hq⟩

end Program.Thins

namespace Activation

theorem get_eq_ok {a : Activation} {o : Operand} {c : Const} :
    a.get o = .ok c ↔ a.find? o = some c := by
  unfold get
  cases a.find? o <;> simp

theorem get_misfit {a : Activation} {o : Operand} {fault : Fault} (h : a.get o = .error fault) :
    ∃ g detail, fault = .misfit g detail := by
  unfold get at h
  cases hf : a.find? o with
  | none =>
    rw [hf] at h
    exact ⟨_, _, (Except.error.inj h).symm⟩
  | some c =>
    rw [hf] at h
    cases h

theorem mapM_get_misfit {a : Activation} {os : List Operand} {fault : Fault}
    (h : os.mapM a.get = .error fault) : ∃ g detail, fault = .misfit g detail := by
  induction os with
  | nil => cases h
  | cons o os ih =>
    rw [List.mapM_cons] at h
    rcases bind_eq_error.mp h with h | ⟨c, _, h⟩
    · exact get_misfit h
    · rcases bind_eq_error.mp h with h | ⟨cs, _, h⟩
      · exact ih h
      · cases h

theorem find?_set (a : Activation) (dst v : Nat) (c : Const) :
    (a.set dst c).find? (.value v) = if v = dst then some c else a.find? (.value v) := rfl

theorem receive_func (a : Activation) (dst : Nat) (r : Option Const) :
    (a.receive dst r).func = a.func := by
  cases r <;> rfl

namespace Thins

variable {keep : Instruction → Bool} {σ : Operand → Operand} {a a' : Activation} {o : Operand}
  {c : Const} {i : Instruction} {r : Option Const}

theorem name (h : a.Thins keep σ a') : a'.func.name = a.func.name := by
  rw [h.func]
  rfl

theorem find? (h : a.Thins keep σ a') (ho : a.find? o = some c) : a'.find? (σ o) = some c := by
  cases o with
  | const x =>
    rw [h.foregoes.const]
    exact ho
  | param n =>
    rw [h.foregoes.param]
    change a'.args[n]? = some c
    rw [h.args]
    exact ho
  | value v => exact h.values v c ho

theorem get (h : a.Thins keep σ a') (ho : a.get o = .ok c) : a'.get (σ o) = .ok c :=
  get_eq_ok.mpr (h.find? (get_eq_ok.mp ho))

theorem compute? (h : a.Thins keep σ a') {r : Except Fault Const} (hr : a.compute? i = some r)
    (hfair : ∀ g detail, r ≠ .error (.misfit g detail)) :
    a'.compute? (i.mapOperands σ) = some r := by
  obtain ⟨dst, op⟩ := i
  cases op with
  | call callee args returns => cases hr
  | compute c =>
    cases hr
    change some ((c.mapOperands σ).run a'.get (ArithError.at a'.func.name dst)) = some _
    rw [h.name]
    rcases c.run_mapOperands (ArithError.at a.func.name dst) (fun o _ x => h.get (o := o)) with
      he | ⟨o, e, he, hrun⟩
    · rw [he]
    · obtain ⟨g, detail, rfl⟩ := get_misfit he
      exact absurd hrun (hfair g detail)
  | phi type incoming =>
    simp only [Activation.compute?, Option.some.injEq] at hr
    simp only [Activation.compute?, Instruction.mapOperands, Operation.mapOperands,
      List.find?_map, Function.comp_def, h.previous]
    cases hfind : incoming.find? fun e => some e.2 == a.previous with
    | none =>
      rw [hfind] at hr
      exact absurd hr.symm (hfair _ _)
    | some e =>
      obtain ⟨o, q⟩ := e
      simp only [hfind] at hr
      simp only [Option.map_some]
      cases hg : a.get o with
      | ok c =>
        rw [h.get hg, ← hr, hg]
      | error fault =>
        obtain ⟨g, detail, rfl⟩ := get_misfit hg
        exact absurd (hr.symm.trans hg) (hfair g detail)

theorem set (h : a.Thins keep σ a') (hi : i ∈ a.func.instructions) (hk : keep i = true) :
    (a.set i.dst c).Thins keep σ (a'.set i.dst c) := by
  refine ⟨h.foregoes, h.func, h.args, h.previous, ?_⟩
  intro v x hv
  change (if v = i.dst then some c else a.values v) = some x at hv
  split at hv
  next he =>
    rw [he, h.foregoes.kept i hi hk, find?_set, if_pos rfl]
    exact hv
  next he =>
    have hx := h.values v x hv
    rcases h.foregoes.value v with hσ | ⟨d, hσ⟩
    · rw [hσ] at hx ⊢
      rwa [find?_set, if_neg he]
    · rw [hσ] at hx ⊢
      exact hx

theorem skip (h : a.Thins keep σ a') (hσ : σ (.value i.dst) = .const c) :
    (a.set i.dst c).Thins keep σ a' := by
  refine ⟨h.foregoes, h.func, h.args, h.previous, ?_⟩
  intro v x hv
  change (if v = i.dst then some c else a.values v) = some x at hv
  split at hv
  next he =>
    rw [he, hσ]
    exact hv
  next he => exact h.values v x hv

theorem receive (h : a.Thins keep σ a') (hi : i ∈ a.func.instructions) (hk : keep i = true) :
    (a.receive i.dst r).Thins keep σ (a'.receive i.dst r) := by
  cases r with
  | none => exact h
  | some c => exact h.set hi hk

theorem leave (h : a.Thins keep σ a') (b : Block) :
    (a.leave b).Thins keep σ (a'.leave (b.pruned keep σ)) :=
  ⟨h.foregoes, h.func, h.args, rfl, h.values⟩

theorem block? (h : a.Thins keep σ a') (id : Nat) :
    a'.func.block? id = (a.func.block? id).map (·.pruned keep σ) := by
  rw [h.func]
  exact Func.block?_pruned id

section Code

variable {q : Program} {n : Nat} {b' : Block} {is : List Instruction} {log log' : List HostCall}
  {out : Outcome} {fault : Fault} {callee : String} {operands : List Operand}
  {returns : NativeType} {args : List Const}

theorem computes (h : a.Thins keep σ a') (hi : i ∈ a.func.instructions)
    (hc : a.compute? i = some (.ok c))
    (hrest : ∀ {a'}, (a.set i.dst c).Thins keep σ a' →
      Evaluates q n (.code a' b' ((is.filter keep).map (·.mapOperands σ))) log out) :
    Evaluates q n (.code a' b' (((i :: is).filter keep).map (·.mapOperands σ))) log out := by
  cases hk : keep i with
  | true =>
    rw [List.filter_cons_of_pos hk, List.map_cons]
    exact .computes (h.compute? hc (by simp)) (hrest (h.set hi hk))
  | false =>
    rw [List.filter_cons_of_neg (by rw [hk]; exact Bool.false_ne_true)]
    exact hrest (h.skip (h.foregoes.replaced hi hk hc))

theorem computeFault (h : a.Thins keep σ a') (hi : i ∈ a.func.instructions)
    (hc : a.compute? i = some (.error fault)) (hfair : ∀ g detail, fault ≠ .misfit g detail) :
    Evaluates q n (.code a' b' (((i :: is).filter keep).map (·.mapOperands σ))) log
      ⟨.error fault, log⟩ := by
  cases hk : keep i with
  | true =>
    rw [List.filter_cons_of_pos hk, List.map_cons]
    exact .computeFault (h.compute? hc fun g detail he => hfair g detail (Except.error.inj he))
  | false =>
    obtain ⟨g, detail, he⟩ := h.foregoes.misfit hi hk hc
    exact absurd he (hfair g detail)

theorem calls (h : a.Thins keep σ a') (hi : i ∈ a.func.instructions)
    (hop : i.op = .call callee operands returns) (hargs : operands.mapM a.get = .ok args)
    (hcall : Evaluates q n (.call callee args) log ⟨.ok r, log'⟩)
    (hrest : ∀ {a'}, (a.receive i.dst r).Thins keep σ a' →
      Evaluates q n (.code a' b' ((is.filter keep).map (·.mapOperands σ))) log' out) :
    Evaluates q n (.code a' b' (((i :: is).filter keep).map (·.mapOperands σ))) log out := by
  have hk := h.foregoes.keep_call hi hop
  rw [List.filter_cons_of_pos hk, List.map_cons]
  exact .calls (Instruction.mapOperands_call hop σ) (mapM_mapOperands (fun o _ c => h.get) hargs)
    hcall (hrest (h.receive hi hk))

theorem callFault (h : a.Thins keep σ a') (hi : i ∈ a.func.instructions)
    (hop : i.op = .call callee operands returns) (hargs : operands.mapM a.get = .ok args)
    (hcall : Evaluates q n (.call callee args) log ⟨.error fault, log'⟩) :
    Evaluates q n (.code a' b' (((i :: is).filter keep).map (·.mapOperands σ))) log
      ⟨.error fault, log'⟩ := by
  rw [List.filter_cons_of_pos (h.foregoes.keep_call hi hop), List.map_cons]
  exact .callFault (Instruction.mapOperands_call hop σ)
    (mapM_mapOperands (fun o _ c => h.get) hargs) hcall

end Code

end Thins

end Activation

theorem Evaluates.thin {p q : Program} (hq : p.Thins q) {n : Nat} {task task' : Task}
    {log : List HostCall} {o : Outcome} (h : Evaluates p n task log o) (ho : o.Fair)
    (ht : task.Thins task') : Evaluates q n task' log o := by
  induction h generalizing task' with
  | host hn hc =>
    cases ht with
    | call => exact .host (hq.get?_none hn) (hq.host ▸ hc)
  | hostFault hn hc =>
    cases ht with
    | call => exact .hostFault (hq.get?_none hn) (hq.host ▸ hc)
  | unfit hf hc =>
    cases ht with
    | call =>
      obtain ⟨keep, σ, _, hf'⟩ := hq.get?_some hf
      exact .unfit hf' hc
  | @tooDeep name args log f hf hc =>
    cases ht with
    | call =>
      obtain ⟨keep, σ, _, hf'⟩ := hq.get?_some hf
      rw [← hq.depth]
      exact .tooDeep (f := f.pruned keep σ) hf' hc
  | enter hf hc _ ih =>
    cases ht with
    | call =>
      obtain ⟨keep, σ, hforegoes, hf'⟩ := hq.get?_some hf
      refine .enter hf' hc (ih ho (.block ⟨hforegoes, rfl, rfl, rfl, ?_⟩))
      intro v c hv
      cases hv
  | @missing n a id log hb => exact absurd rfl (ho a.func.name (.missingBlock id))
  | @block n a id log b o hb _ ih =>
    cases ht with
    | @block keep σ _ a' _ ha =>
      refine .block (b := b.pruned keep σ) (by rw [ha.block?, hb]; rfl) (ih ho (.code ha ?_))
      intro i hi
      exact Func.mem_instructions.mpr ⟨b, List.mem_of_find?_eq_some hb, hi⟩
  | computes hc _ ih =>
    cases ht with
    | code ha his =>
      have hrest := fun j hj => his j (List.mem_cons_of_mem _ hj)
      exact ha.computes (his _ List.mem_cons_self) hc fun ha => ih ho (.code ha hrest)
  | computeFault hc =>
    cases ht with
    | code ha his =>
      exact ha.computeFault (his _ List.mem_cons_self) hc fun g detail => ho.not_misfit
  | argFault _ hargs =>
    obtain ⟨g, detail, rfl⟩ := Activation.mapM_get_misfit hargs
    exact absurd rfl (ho g detail)
  | @calls n a b i rest log log' callee operands returns args r o hop hargs _ _ ihc ih =>
    cases ht with
    | code ha his =>
      have hrest := fun j hj => his j (List.mem_cons_of_mem _ hj)
      refine ha.calls (his i List.mem_cons_self) hop hargs (ihc Outcome.fair_ok (.call _ _)) ?_
      exact fun ha => ih ho (.code ha (a.receive_func i.dst r ▸ hrest))
  | callFault hop hargs _ ihc =>
    cases ht with
    | code ha his =>
      exact ha.callFault (his _ List.mem_cons_self) hop hargs (ihc ho (.call _ _))
  | @unended n a b log _ => exact absurd rfl (ho a.func.name (.missingTerminator b.label))
  | void hterm =>
    cases ht with
    | code ha _ => exact .void (Func.terminator_pruned hterm)
  | returns hterm hget =>
    cases ht with
    | code ha _ => exact .returns (Func.terminator_pruned hterm) (ha.get hget)
  | returnFault _ hget =>
    obtain ⟨g, detail, rfl⟩ := Activation.get_misfit hget
    exact absurd rfl (ho g detail)
  | jump hterm _ ih =>
    cases ht with
    | code ha _ =>
      exact .jump (Func.terminator_pruned hterm) (ih ho (.block (ha.leave _)))
  | branch hterm hget _ ih =>
    cases ht with
    | code ha _ =>
      exact .branch (Func.terminator_pruned hterm) (ha.get hget)
        (ih ho (.block (ha.leave _)))
  | branchFault _ hget =>
    obtain ⟨g, detail, rfl⟩ := Activation.get_misfit hget
    exact absurd rfl (ho g detail)
  | @branchOn n a b log condition whenTrue whenFalse c _ _ _ =>
    exact absurd rfl (ho a.func.name (.branchOn c))

theorem Program.Thins.call {p q : Program} (h : p.Thins q) {name : String} {args : List Const}
    {o : Outcome} (ho : o.Fair) (hp : ∃ fuel, p.call fuel name args = some o) :
    ∃ fuel, q.call fuel name args = some o := by
  rw [Program.call_iff_evaluates] at hp ⊢
  rw [h.depth]
  exact hp.thin h ho (.call name args)

namespace Func

variable {f g : Func}

theorem foregoes_nothing (f : Func) : f.Foregoes (fun _ => true) id where
  const := fun _ => rfl
  param := fun _ => rfl
  value := fun _ => .inl rfl
  kept := fun _ _ _ => rfl
  removed := by
    intro i _ hk
    cases hk

theorem pruned_nothing (f : Func) : f.pruned (fun _ => true) id = f := by
  have hblock : ∀ b : Block,
      { b with instructions := b.instructions.filter fun _ => true } = b := by
    intro b
    rw [List.filter_true]
  simp only [DeadCode.pruned_id, filterInstructions, mapBlocks, hblock, List.map_id']

theorem instructions_pruned (f : Func) (keep : Instruction → Bool) (σ : Operand → Operand) :
    (f.pruned keep σ).instructions = (f.instructions.filter keep).map (·.mapOperands σ) := by
  simp only [pruned, mapBlocks, instructions, List.flatMap_map, List.filter_flatMap,
    List.map_flatMap]
  rfl

end Func

def Program.load (p : Program) (f : Func) : Program := { p with code := p.code.insert f.name f }

theorem Func.Foregoes.thins {f : Func} {keep : Instruction → Bool} {σ : Operand → Operand}
    (h : f.Foregoes keep σ) (p : Program) : (p.load f).Thins (p.load (f.pruned keep σ)) where
  host := rfl
  depth := rfl
  code := by
    intro name
    have hname : (f.pruned keep σ).name = f.name := rfl
    simp only [Program.load, Table.get?_insert, hname]
    split
    next => exact .inr ⟨f, keep, σ, h, rfl, rfl⟩
    next =>
      cases hg : p.code.get? name with
      | none => exact .inl ⟨rfl, rfl⟩
      | some g => exact .inr ⟨g, _, _, g.foregoes_nothing, rfl, by rw [g.pruned_nothing]⟩

namespace ConstantFolding

variable {f g : Func}

/-- A phi that is folded takes one constant, not several that compare equal. -/
def Exact (f : Func) : Prop :=
  ∀ i ∈ f.instructions, ∀ type incoming c, i.op = .phi type incoming → i.op.fold? = some c →
    ∀ e ∈ incoming, e.1 = .const c

inductive Stage (f : Func) : Func → Prop
  | start : Stage f f
  | round {g : Func} : Stage f g → Stage f (round g).func

theorem compute?_of_fold? (hf : Exact f) {i : Instruction} (hi : i ∈ f.instructions) {c : Const}
    (h : i.op.fold? = some c) (a : Activation) :
    ∃ r, a.compute? i = some r ∧ (r = .ok c ∨ ∃ g detail, r = .error (.misfit g detail)) := by
  obtain ⟨dst, op⟩ := i
  cases op with
  | call callee args returns => cases h
  | compute computation =>
    refine ⟨_, rfl, .inl ?_⟩
    simp only [Operation.fold?] at h
    cases he : computation.evaluate with
    | error e =>
      rw [he] at h
      cases h
    | ok c' =>
      rw [he] at h
      cases h
      exact Computation.run_of_evaluate (fun _ => rfl) he
  | phi type incoming =>
    refine ⟨_, rfl, ?_⟩
    cases hfind : incoming.find? fun e => some e.2 == a.previous with
    | none => exact .inr ⟨_, _, rfl⟩
    | some e =>
      have hc := hf _ hi type incoming c rfl h e (List.mem_of_find?_eq_some hfind)
      obtain ⟨o, q⟩ := e
      cases hc
      exact .inl rfl

theorem replace_value_of_once (h : (f.instructions.map Instruction.dst).Nodup) {i : Instruction}
    (hi : i ∈ f.instructions) :
    replace (known f) (.value i.dst) = (i.op.fold?.map Operand.const).getD (.value i.dst) :=
  replace_value_of_unique hi fun _ hj hdst => List.inj_on_of_nodup_map h hj hi hdst

theorem foregoes (honce : (f.instructions.map Instruction.dst).Nodup) (hf : Exact f) :
    f.Foregoes (fun i => i.op.fold?.isNone) (replace (known f)) where
  const := fun _ => rfl
  param := fun _ => rfl
  value := by
    intro v
    simp only [replace]
    split
    next c _ => exact .inr ⟨c, rfl⟩
    next => exact .inl rfl
  kept := by
    intro i hi hk
    rw [replace_value_of_once honce hi, Option.isNone_iff_eq_none.mp hk]
    rfl
  removed := by
    intro i hi hk a
    obtain ⟨c, hc⟩ := Option.isSome_iff_exists.mp (Option.isNone_eq_false_iff.mp hk)
    obtain ⟨r, hr, hcase⟩ := compute?_of_fold? hf hi hc a
    refine ⟨r, hr, hcase.imp_left fun he => ⟨c, he, ?_⟩⟩
    rw [replace_value_of_once honce hi, hc]
    rfl

theorem round_func (f : Func) :
    (round f).func = f.pruned (fun i => i.op.fold?.isNone) (replace (known f)) :=
  f.mapOperands_filterInstructions _ _

theorem once_round (h : (f.instructions.map Instruction.dst).Nodup) :
    ((round f).func.instructions.map Instruction.dst).Nodup := by
  rw [round_func, Func.instructions_pruned, List.map_map]
  exact h.sublist (List.Sublist.map _ List.filter_sublist)

theorem stage_run (f : Func) : Stage f (run f).func := by
  have hstages : ∀ g, Stage f g → Stage f (Transformation.exhaust round g).func := by
    intro g
    fun_induction Transformation.exhaust round g with
    | case1 g _ _ ih => exact fun hg => ih hg.round
    | case2 g _ _ => exact fun hg => hg.round
  exact hstages f .start

/-- Code that has been folded does what it did before, to the bit, unless the code is wrong or one
of the phis that have been folded had to choose between the two zeros. -/
theorem call_run {f : Func} (hf : f.Built) (hexact : ∀ g, Stage f g → Exact g) {p : Program}
    {name : String} {args : List Const} {o : Outcome} (ho : o.Fair)
    (h : ∃ fuel, (p.load f).call fuel name args = some o) :
    ∃ fuel, (p.load (run f).func).call fuel name args = some o := by
  have hstages : ∀ g, Stage f g → (g.instructions.map Instruction.dst).Nodup ∧
      ∃ fuel, (p.load g).call fuel name args = some o := by
    intro g hg
    induction hg with
    | start => exact ⟨hf.orderly.once, h⟩
    | @round g hg ih =>
      refine ⟨once_round ih.1, ?_⟩
      have hthins := (foregoes ih.1 (hexact g hg)).thins p
      rw [← round_func] at hthins
      exact hthins.call ho ih.2
  exact (hstages _ (stage_run f)).2

end ConstantFolding

theorem Program.call_mono {p : Program} {name : String} {args : List Const} {o : Outcome}
    {n k : Nat} (h : p.call n name args = some o) (hk : n ≤ k) : p.call k name args = some o := by
  unfold call at h ⊢
  cases hf : p.code.get? name with
  | none =>
    rw [hf] at h
    exact h
  | some f =>
    simp only [hf] at h ⊢
    cases he : Machine.enter p {} f args none with
    | error fault =>
      rw [he] at h
      exact h
    | ok m =>
      rw [he] at h
      exact Machine.run_mono h hk

theorem Program.call_unique {p : Program} {name : String} {args : List Const} {o o' : Outcome}
    {n k : Nat} (h : p.call n name args = some o) (h' : p.call k name args = some o') : o = o' := by
  have hn := call_mono h (Nat.le_max_left n k)
  have hk := call_mono h' (Nat.le_max_right n k)
  exact Option.some.inj (hn.symm.trans hk)

def Func.either (x y : Float) : Func :=
  let b := ((Builder.start ⟨"either", [("p0", .i1)], .f64⟩).appendBlock "then").2
  let b := ((b.appendBlock "else").2.appendBlock "join").2.terminate (.condBr (.param 0) 1 2)
  let b := ((b.moveTo 1).terminate (.br 3)).moveTo 2
  let b := ((b.terminate (.br 3)).moveTo 3).emit
    (.phi .f64 [(.const (.f64 x), 1), (.const (.f64 y), 2)])
  (b.2.terminate (.ret (some (.value 0)))).func

theorem Func.built_either (x y : Float) : (either x y).Built := by
  refine ⟨_, ?_, rfl⟩
  refine .terminate _ (.emit _ (.moveTo (.terminate _ (.moveTo (.terminate _ (.moveTo ?_
    (by decide : 1 < 4))) (by decide : 2 < 4))) (by decide : 3 < 4)))
  exact .terminate _ (.appendBlock _ (.appendBlock _ (.appendBlock _ (.start _))))

namespace ConstantFolding

theorem not_call_run :
    (Func.either 0.0 (-0.0)).Built ∧ (Func.either 0.0 (-0.0)).verify ⟨"main", .host, ∅⟩ = .ok () ∧
      (∃ fuel, (Program.load {} (.either 0.0 (-0.0))).call fuel "either" [.i1 false] =
        some ⟨.ok (some (.f64 (-0.0))), []⟩) ∧
      ¬ ∃ fuel, (Program.load {} (run (.either 0.0 (-0.0))).func).call fuel "either" [.i1 false] =
        some ⟨.ok (some (.f64 (-0.0))), []⟩ := by
  refine ⟨Func.built_either _ _, by with_unfolding_all rfl, ⟨10, by with_unfolding_all rfl⟩, ?_⟩
  rintro ⟨fuel, h⟩
  have hfolded : (Program.load {} (run (.either 0.0 (-0.0))).func).call 10 "either" [.i1 false] =
      some ⟨.ok (some (.f64 0.0)), []⟩ := by
    have hrun : (run (.either 0.0 (-0.0))).func =
        (round (round (.either 0.0 (-0.0))).func).func := by
      rw [run, Transformation.exhaust, dif_pos (by with_unfolding_all decide),
        Transformation.exhaust, dif_neg (by with_unfolding_all decide)]
    rw [hrun]
    with_unfolding_all rfl
  cases Program.call_unique h hfolded

theorem exact_either {g : Func} (h : Stage (.either (-0.0) (-0.0)) g) : Exact g := by
  have hstage : g = .either (-0.0) (-0.0) ∨ g = (round (.either (-0.0) (-0.0))).func := by
    induction h with
    | start => exact .inl rfl
    | round _ ih =>
      rcases ih with rfl | rfl
      · exact .inr rfl
      · exact .inr (by with_unfolding_all rfl)
  intro i hi type incoming c hop hc e he
  rcases hstage with rfl | rfl
  · obtain rfl : i = _ := List.mem_singleton.mp hi
    cases hop
    have hfold : (Operation.phi .f64 [(.const (.f64 (-0.0)), 1), (.const (.f64 (-0.0)), 2)]).fold? =
        some (.f64 (-0.0)) := by with_unfolding_all rfl
    cases hc.symm.trans hfold
    rcases List.mem_cons.mp he with rfl | he
    · rfl
    · rw [List.mem_singleton.mp he]
  · have hnone : (round (.either (-0.0) (-0.0))).func.instructions = [] := by
      with_unfolding_all rfl
    rw [hnone] at hi
    cases hi

theorem call_run_either : ∃ fuel, (Program.load {} (run (.either (-0.0) (-0.0))).func).call fuel
    "either" [.i1 false] = some ⟨.ok (some (.f64 (-0.0))), []⟩ :=
  call_run (Func.built_either _ _) (fun _ => exact_either) Outcome.fair_ok
    ⟨10, by with_unfolding_all rfl⟩

end ConstantFolding

end FormCompiler
