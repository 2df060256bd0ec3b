import FormCompiler.Proofs.Code.Arith
import FormCompiler.Proofs.Pass.Improve
import FormCompiler.Proofs.Pass.Replay

namespace FormCompiler

namespace Func

variable {f : Func} {w : Flow} {keep : Instruction → Bool} {σ : Operand → Operand}

theorem derives_pruned (hσ : ∀ o ∈ f.uses, f.operandType? (σ o) = f.operandType? o) :
    f.Derives (f.pruned keep σ) := by
  have hsource : ∀ i ∈ (f.pruned keep σ).instructions,
      ∃ b ∈ f.blocks, ∃ j ∈ b.instructions, j.mapOperands σ = i := by
    intro i hi
    obtain ⟨c, hc, hi⟩ := mem_instructions.mp hi
    obtain ⟨b, hb, rfl⟩ := mem_blocks_pruned.mp hc
    obtain ⟨j, hj, _, rfl⟩ := mem_pruned.mp hi
    exact ⟨b, hb, j, hj, rfl⟩
  refine ⟨rfl, rfl, ?_, ?_, ?_⟩
  · intro i hi callee args returns hop
    obtain ⟨b, hb, ⟨dst, op⟩, hj, rfl⟩ := hsource i hi
    cases op with
    | call callee' args' returns' =>
      cases hop
      refine ⟨_, mem_instructions.mpr ⟨b, hb, hj⟩, args', rfl, ?_⟩
      rw [List.map_map]
      refine List.map_congr_left ?_
      intro o ho
      exact hσ o (mem_uses_instruction hb hj ho)
    | compute c => cases hop
    | phi type incoming => cases hop
  · intro i hi hphi
    obtain ⟨b, hb, j, hj, rfl⟩ := hsource i hi
    refine ⟨j, mem_instructions.mpr ⟨b, hb, hj⟩, ?_, ?_⟩
    · simpa [Instruction.mapOperands] using hphi
    · simp [Instruction.type, Instruction.mapOperands]
  · intro hgives c hc ht
    obtain ⟨b, hb, rfl⟩ := mem_blocks_pruned.mp hc
    obtain ⟨t, hbt, hret⟩ := Option.map_eq_some_iff.mp ht
    cases t with
    | ret value =>
      cases value with
      | none => exact hgives b hb hbt
      | some o => cases hret
    | br target => cases hret
    | condBr condition whenTrue whenFalse => cases hret

theorem Prunes.improves (hp : f.Prunes keep σ) (h : f.Sound w)
    (hc : f.Plain → f.Foretold keep σ) : f.Improves (f.pruned keep σ) :=
  ⟨⟨_, hp.sound h⟩, derives_pruned fun _ => hp.operandType? h,
    fun hplain => hp.refines h (hc hplain)⟩

end Func

namespace Operand

theorem agrees_cases {o o' : Operand} (h : o.agrees o' = true) :
    o = o' ∨ ∃ a b, o = .const a ∧ o' = .const b ∧ a.agrees b = true := by
  cases o <;> cases o' <;> simp_all [agrees]

end Operand

theorem Const.eq_of_agrees {a b : Const} (h : a.agrees b = true) (hb : b.type ≠ .f64) : a = b := by
  cases a <;> cases b <;> simp_all [Const.agrees, Const.type]

theorem Operand.eq_of_agrees {o o' : Operand} {Γ : Typing} {type : NativeType}
    (hΓ : ∀ c, Γ (.const c) = some c.type) (h : o.agrees o' = true) (ho : Γ o' = some type)
    (htype : type ≠ .f64) : o = o' := by
  rcases agrees_cases h with he | ⟨a, b, rfl, rfl, hab⟩
  · exact he
  · rw [hΓ] at ho
    cases ho
    rw [Const.eq_of_agrees hab htype]

namespace Computation

theorem run_mono {ε ε' : Type} {get : Operand → Except ε Const} {get' : Operand → Except ε' Const}
    {fault : ArithError → ε} {fault' : ArithError → ε'}
    (hget : ∀ o x, get o = .ok x → get' o = .ok x) {c : Computation} {a : Const}
    (h : c.run get fault = .ok a) : c.run get' fault' = .ok a := by
  cases c with
  | int op l r | float op l r | icmp test l r | fcmp test l r =>
    obtain ⟨x, hx, h⟩ := bind_eq_ok.mp h
    obtain ⟨y, hy, h⟩ := bind_eq_ok.mp h
    refine bind_eq_ok.mpr ⟨x, hget l x hx, bind_eq_ok.mpr ⟨y, hget r y hy, ?_⟩⟩
    exact mapError_eq_ok.mpr (mapError_eq_ok.mp h)
  | cast op value target =>
    obtain ⟨x, hx, h⟩ := bind_eq_ok.mp h
    exact bind_eq_ok.mpr ⟨x, hget value x hx, mapError_eq_ok.mpr (mapError_eq_ok.mp h)⟩

theorem run_of_evaluate {ε : Type} {get : Operand → Except ε Const} {fault : ArithError → ε}
    (hget : ∀ x, get (.const x) = .ok x) {c : Computation} {a : Const} (h : c.evaluate = .ok a) :
    c.run get fault = .ok a := by
  unfold evaluate at h
  refine run_mono (fun o x ho => ?_) h
  cases o with
  | const c =>
    cases ho
    exact hget x
  | param | value => cases ho

end Computation

namespace Func

variable {f : Func} {w : Flow}

theorem operandType?_const (f : Func) (c : Const) : f.operandType? (.const c) = some c.type := rfl

end Func

namespace ConstantFolding

variable {f : Func} {w : Flow}

theorem fold?_phi {type : NativeType} {incoming : List (Operand × Nat)} {c : Const}
    (h : (Operation.phi type incoming).fold? = some c) :
    incoming ≠ [] ∧ (∀ e ∈ incoming, e.1.agrees (.const c) = true) ∧
      ∃ e ∈ incoming, e.1 = .const c := by
  cases incoming with
  | nil => cases h
  | cons e rest =>
    obtain ⟨first, block⟩ := e
    simp only [Operation.fold?] at h
    split at h
    next hall =>
      cases first with
      | const c' =>
        cases h
        exact ⟨by simp, fun e he => List.all_eq_true.mp hall e he, _, List.mem_cons_self, rfl⟩
      | param index => cases h
      | value v => cases h
    next => cases h

theorem fold?_type {Γ : Typing} (hΓ : ∀ c, Γ (.const c) = some c.type) {op : Operation} {c : Const}
    (ht : op.Typed Γ) (h : op.fold? = some c) : c.type = op.type := by
  cases op with
  | compute computation =>
    simp only [Operation.fold?] at h
    cases he : computation.evaluate with
    | error e =>
      rw [he] at h
      cases h
    | ok c' =>
      rw [he] at h
      cases h
      exact Computation.run_type he
  | call callee args returns => cases h
  | phi type incoming =>
    obtain ⟨_, _, e, he, hc⟩ := fold?_phi h
    have htyped := ht e he
    rw [hc, hΓ] at htyped
    exact Option.some.inj htyped

theorem value_of_fold? {Γ : Typing} (hΓ : ∀ c, Γ (.const c) = some c.type) {op : Operation}
    {c : Const} (ht : op.Typed Γ) (h : op.fold? = some c)
    (hplain : op.isPhi = true → op.type ≠ .f64) {F : Frame Const} {dst : Nat} {a : Const}
    (hv : Machine.value F dst op = .ok a) : a = c := by
  cases op with
  | compute computation =>
    simp only [Operation.fold?] at h
    cases he : computation.evaluate with
    | error e =>
      rw [he] at h
      cases h
    | ok c' =>
      rw [he] at h
      cases h
      rw [Frame.value_compute, Computation.run_of_evaluate (fun _ => rfl) he] at hv
      exact (Except.ok.inj hv).symm
  | call callee args returns => cases h
  | phi type incoming =>
    obtain ⟨_, hall, e, he, hc⟩ := fold?_phi h
    have htyped := ht e he
    rw [hc] at htyped
    have hsame : ∀ e ∈ incoming, e.1 = .const c := by
      intro e' he'
      exact Operand.eq_of_agrees hΓ (hall e' he') htyped (hplain rfl)
    have hfind := Frame.value_phi hsame hv
    exact (Option.some.inj hfind).symm

theorem mem_known {d : Nat} {c : Const} :
    (d, c) ∈ known f ↔ ∃ i ∈ f.instructions, i.dst = d ∧ i.op.fold? = some c := by
  simp only [known, List.mem_reverse, List.mem_filterMap, Option.map_eq_some_iff, Prod.mk.injEq]
  constructor
  · rintro ⟨i, hi, c', hc, hd, rfl⟩
    exact ⟨i, hi, hd, hc⟩
  · rintro ⟨i, hi, hd, hc⟩
    exact ⟨i, hi, c, hc, hd, rfl⟩

theorem mem_of_lookup {d : Nat} {c : Const} {l : List (Nat × Const)} (h : l.lookup d = some c) :
    (d, c) ∈ l := by
  induction l with
  | nil => cases h
  | cons e l ih =>
    obtain ⟨k, v⟩ := e
    rw [List.lookup_cons] at h
    split at h
    next he =>
      cases h
      rw [eq_of_beq he]
      exact List.mem_cons_self
    next => exact List.mem_cons_of_mem _ (ih h)

theorem lookup_ne_none {d : Nat} {c : Const} {l : List (Nat × Const)} (h : (d, c) ∈ l) :
    l.lookup d ≠ none := by
  intro hn
  rw [List.lookup_eq_none_iff] at hn
  have hd := hn _ h
  simp at hd

theorem replace_value_of_unique {i : Instruction} (hi : i ∈ f.instructions)
    (hu : ∀ j ∈ f.instructions, j.dst = i.dst → j = i) :
    replace (known f) (.value i.dst) = (i.op.fold?.map Operand.const).getD (.value i.dst) := by
  simp only [replace]
  cases hl : (known f).lookup i.dst with
  | some c =>
    obtain ⟨j, hj, hdst, hfold⟩ := mem_known.mp (mem_of_lookup hl)
    rw [← hu j hj hdst, hfold]
    rfl
  | none =>
    cases hfold : i.op.fold? with
    | none => rfl
    | some c => exact absurd hl (lookup_ne_none (mem_known.mpr ⟨i, hi, rfl, hfold⟩))

theorem replace_value (h : f.Shaped) {b : Block} (hb : b ∈ f.blocks) {i : Instruction}
    (hi : i ∈ b.instructions) :
    replace (known f) (.value i.dst) = (i.op.fold?.map Operand.const).getD (.value i.dst) := by
  refine replace_value_of_unique (Func.mem_instructions.mpr ⟨b, hb, hi⟩) ?_
  intro j hj hdst
  obtain ⟨d, hd, hj⟩ := Func.mem_instructions.mp hj
  exact (h.eq_of_dst hd hb hj hi hdst).2

theorem prunes (h : f.Sound w) : f.Prunes (fun i => i.op.fold?.isNone) (replace (known f)) where
  const := fun _ => rfl
  param := fun _ => rfl
  kept := by
    intro i hi hk
    obtain ⟨b, hb, hi⟩ := Func.mem_instructions.mp hi
    rw [replace_value h.shaped hb hi, Option.isNone_iff_eq_none.mp hk]
    rfl
  calls := by
    rintro ⟨dst, op⟩ _ hk
    cases op with
    | call callee args returns => cases hk
    | compute c => rfl
    | phi type incoming => rfl
  removed := by
    intro i hi hk
    obtain ⟨b, hb, hi⟩ := Func.mem_instructions.mp hi
    rw [replace_value h.shaped hb hi]
    cases hfold : i.op.fold? with
    | none =>
      rw [hfold] at hk
      cases hk
    | some c =>
      exact .const (fold?_type f.operandType?_const (h.typed.operations b hb i hi) hfold)

theorem foretold (h : f.Sound w) (hp : f.Plain) :
    f.Foretold (fun i => i.op.fold?.isNone) (replace (known f)) := by
  intro i hmem hk c hσ F a hv
  obtain ⟨b, hb, hi⟩ := Func.mem_instructions.mp hmem
  rw [replace_value h.shaped hb hi] at hσ
  cases hfold : i.op.fold? with
  | none => simp [hfold] at hk
  | some c' =>
    rw [hfold] at hσ
    cases hσ
    exact value_of_fold? f.operandType?_const (h.typed.operations b hb i hi) hfold (hp i hmem) hv

theorem correct_round : Transformation.Correct round := by
  intro f w h
  have he : (round f).func =
      f.pruned (fun i => i.op.fold?.isNone) (replace (known f)) :=
    f.mapOperands_filterInstructions _ _
  rw [he]
  exact (prunes h).improves h (foretold h)

end ConstantFolding

namespace DeadCode

variable {f : Func} {w : Flow}

theorem prunes (f : Func) : f.Prunes (fun i => i.hasSideEffects || f.isUsed i.dst) id where
  const := fun _ => rfl
  param := fun _ => rfl
  kept := fun _ _ _ => rfl
  calls := by
    intro i _ hk
    simp only [Bool.or_eq_false_iff] at hk
    exact hk.1
  removed := by
    intro i _ hk
    simp only [Bool.or_eq_false_iff] at hk
    refine .unused ?_
    simpa [Func.isUsed] using hk.2

theorem pruned_id (f : Func) (keep : Instruction → Bool) :
    f.pruned keep id = f.filterInstructions keep := by
  rw [← Func.mapOperands_filterInstructions, Func.mapOperands_id]

theorem correct_round : Transformation.Correct round := by
  intro f w h
  have he : (round f).func = f.pruned (fun i => i.hasSideEffects || f.isUsed i.dst) id :=
    (pruned_id f _).symm
  rw [he]
  refine (prunes f).improves h ?_
  intro _ i _ _ c hσ
  cases hσ

end DeadCode

end FormCompiler
