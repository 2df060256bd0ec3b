import FormCompiler.Proofs.Lowering.Accepted
import FormCompiler.Proofs.Lowering.Rules

namespace FormCompiler

namespace Builder

variable {b b' : Builder} {callee : String}

theorem mem_instructions_changeCurrent (change : Block → Block) {P : Instruction → Prop}
    (hc : ∀ (c : Block), ∀ i ∈ (change c).instructions, i ∈ c.instructions ∨ P i) {i : Instruction}
    (h : i ∈ (b.changeCurrent change).func.instructions) : i ∈ b.func.instructions ∨ P i := by
  obtain ⟨c, hmem, hi⟩ := Func.mem_instructions.mp h
  obtain ⟨k, hk⟩ := List.mem_iff_getElem?.mp hmem
  rw [changeCurrent, List.getElem?_modify] at hk
  obtain ⟨d, hd, rfl⟩ := Option.map_eq_some_iff.mp hk
  have hold (hi : i ∈ d.instructions) : i ∈ b.func.instructions :=
    Func.mem_instructions.mpr ⟨d, List.mem_of_getElem? hd, hi⟩
  split at hi
  next => exact (hc d i hi).imp_left hold
  next => exact .inl (hold hi)

theorem mem_instructions_add {op : Operation} {i : Instruction}
    (h : i ∈ (b.add op).func.instructions) :
    i ∈ b.func.instructions ∨ i = ⟨b.func.types.length, op⟩ :=
  mem_instructions_changeCurrent _
    (fun _ _ hi => (List.mem_append.mp hi).imp_right List.mem_singleton.mp) h

theorem mem_instructions_terminate {t : Terminator} {i : Instruction}
    (h : i ∈ (b.terminate t).func.instructions) : i ∈ b.func.instructions :=
  (mem_instructions_changeCurrent (fun c => { c with terminator := c.terminator.or (some t) })
    (P := fun _ => False) (fun _ _ hi => .inl hi) h).resolve_right id

theorem calls_add {op : Operation} (h : (b.add op).func.Calls callee) :
    b.func.Calls callee ∨ ∃ args returns, op = .call callee args returns := by
  obtain ⟨i, hi, args, returns, hop⟩ := h
  rcases mem_instructions_add hi with hi | rfl
  · exact .inl ⟨i, hi, args, returns, hop⟩
  · exact .inr ⟨args, returns, hop⟩

theorem calls_add_compute {c : Computation} (h : (b.add (.compute c)).func.Calls callee) :
    b.func.Calls callee :=
  (calls_add h).resolve_right fun ⟨_, _, he⟩ => (by cases he)

theorem calls_terminate {t : Terminator} (h : (b.terminate t).func.Calls callee) :
    b.func.Calls callee := by
  obtain ⟨i, hi, hcall⟩ := h
  exact ⟨i, mem_instructions_terminate hi, hcall⟩

theorem calls_appendBlock {label : String} (h : (b.appendBlock label).2.func.Calls callee) :
    b.func.Calls callee := by
  obtain ⟨i, hi, hcall⟩ := h
  obtain ⟨c, hc, hi⟩ := Func.mem_instructions.mp hi
  rcases List.mem_append.mp hc with hc | hc
  · exact ⟨i, Func.mem_instructions.mpr ⟨c, hc, hi⟩, hcall⟩
  · rw [List.mem_singleton.mp hc] at hi
    cases hi

end Builder

structure Lowering.Covers (s s' : Lowering) : Prop where
  unit : ∀ name, s.unit.get? name ≠ none → s'.unit.get? name ≠ none
  calls : ∀ callee, s'.builder.func.Calls callee →
    s.builder.func.Calls callee ∨ s'.unit.get? callee ≠ none

theorem Lowering.Covers.refl {s : Lowering} : s.Covers s := ⟨fun _ h => h, fun _ h => .inl h⟩

theorem Lowering.Covers.trans {s s' s'' : Lowering} (h : s.Covers s') (h' : s'.Covers s'') :
    s.Covers s'' := by
  refine ⟨fun name hn => h'.unit name (h.unit name hn), ?_⟩
  intro callee hc
  rcases h'.calls callee hc with hc | hc
  · exact (h.calls callee hc).imp_right (h'.unit callee)
  · exact .inr hc

theorem Lowering.Keeps.covers {s s' : Lowering} (h : s.Keeps s')
    (hc : ∀ callee, s'.builder.func.Calls callee → s.builder.func.Calls callee) : s.Covers s' :=
  ⟨fun name hn => by rw [h.unit]; exact hn, fun callee hcall => .inl (hc callee hcall)⟩

theorem Registry.resolve_get? {r : Registry} (hr : r.Keyed) (u : CodeUnit) (name : String) :
    (∀ other, u.get? other ≠ none → (r.resolve u name).2.1.get? other ≠ none) ∧
      ((r.resolve u name).1 ≠ none → (r.resolve u name).2.1.get? name ≠ none) := by
  have hdeclares := (Declares.refl (r := r) (u := u)).resolve hr name
  refine ⟨?_, ?_⟩
  · intro other hother
    rcases hdeclares.get? other with he | ⟨he, _⟩
    · rw [he]
      exact hother
    · exact absurd he hother
  · intro hsome
    cases hu : u.get? name with
    | some f => simp [Registry.resolve, hu]
    | none =>
      cases hs : r.signature? name with
      | none => simp [Registry.resolve, hu, hs] at hsome
      | some s =>
        have hname : s.name = name := hr name s hs
        have hc : u.contains name = false := by
          simp only [CodeUnit.get?] at hu
          simp [CodeUnit.contains, Table.contains, hu]
        have hresolve : (r.resolve u name).2.1 = u.insert { signature := s } := by
          simp [Registry.resolve, hu, hs, CodeUnit.declare, hname, hc]
        rw [hresolve]
        simp [CodeUnit.get?, CodeUnit.insert, Func.name, hname]

namespace Lower

variable {α β : Type} {env : LowerEnv}

theorem get_bind (f : Lowering → Lower α) (s : Lowering) : (get >>= f) s = f s s := rfl

theorem bind_error {action : Lower α} {f : α → Lower β} {e : LowerError} {s s'' : Lowering}
    (h : (action >>= f) s = .error e s'') :
    action s = .error e s'' ∨ ∃ a s', action s = .ok a s' ∧ f a s' = .error e s'' := by
  simp only [bind, EStateM.bind] at h
  cases ha : action s with
  | ok a s' => rw [ha] at h; exact .inr ⟨a, s', rfl, h⟩
  | error e s' => rw [ha] at h; cases h; exact .inl rfl

structure Careful (action : Lower α) : Prop where
  covers : ∀ s a s', action s = .ok a s' → s.Covers s'
  fails : ∀ s e s', action s = .error e s' → ∀ v, e ≠ .invalid v

theorem Careful.bind {action : Lower α} {f : α → Lower β} (h : Careful action)
    (hf : ∀ a, Careful (f a)) : Careful (action >>= f) := by
  refine ⟨?_, ?_⟩
  · intro s b s'' hb
    obtain ⟨a, s', ha, hb⟩ := bind_ok hb
    exact (h.covers s a s' ha).trans ((hf a).covers s' b s'' hb)
  · intro s e s'' he
    rcases bind_error he with ha | ⟨a, s', _, hb⟩
    · exact h.fails s e s'' ha
    · exact (hf a).fails s' e s'' hb

theorem Careful.pure (a : α) : Careful (Pure.pure a) := by
  refine ⟨?_, fun s e s' h => (by cases h)⟩
  intro s a' s' h
  obtain ⟨_, rfl⟩ := pure_ok h
  exact .refl

theorem Careful.throw {e : LowerError} (he : ∀ v, e ≠ .invalid v) :
    Careful (throw e : Lower α) := by
  refine ⟨fun s a s' h => (by cases h), ?_⟩
  intro s e' s' h
  cases h
  exact he

theorem careful_get : Careful (get : Lower Lowering) := by
  refine ⟨?_, fun s e s' h => (by cases h)⟩
  intro s a s' h
  cases h
  exact .refl

theorem careful_note (n : Note) : Careful (note n) := by
  refine ⟨?_, fun s e s' h => (by cases h)⟩
  intro s a s' h
  cases h
  exact ⟨fun _ hn => hn, fun _ hc => .inl hc⟩

theorem careful_assign (name : String) (o : Operand) : Careful (assign name o) := by
  refine ⟨?_, fun s e s' h => (by cases h)⟩
  intro s a s' h
  cases h
  exact ⟨fun _ hn => hn, fun _ hc => .inl hc⟩

theorem careful_compute (c : Computation) : Careful (compute c) := by
  refine ⟨?_, fun s e s' h => (by cases h)⟩
  intro s o s' h
  obtain ⟨_, hb, hk⟩ := compute_ok h
  exact hk.covers fun callee hc => Builder.calls_add_compute (hb ▸ hc)

theorem careful_phi (type : NativeType) (incoming : List (Operand × Nat)) :
    Careful (emit (.phi type incoming)) := by
  refine ⟨?_, fun s e s' h => (by cases h)⟩
  intro s o s' h
  obtain ⟨_, hb, hk⟩ := emit_ok h
  refine hk.covers fun callee hc => ?_
  exact (Builder.calls_add (hb ▸ hc)).resolve_right fun ⟨_, _, he⟩ => (by cases he)

theorem careful_terminate (t : Terminator) : Careful (terminate t) := by
  refine ⟨?_, fun s e s' h => (by cases h)⟩
  intro s u s' h
  obtain ⟨hb, hk⟩ := terminate_ok h
  exact hk.covers fun callee hc => Builder.calls_terminate (hb ▸ hc)

theorem careful_appendBlock (label : String) : Careful (appendBlock label) := by
  refine ⟨?_, fun s e s' h => (by cases h)⟩
  intro s id s' h
  obtain ⟨_, hb, hk⟩ := appendBlock_ok h
  exact hk.covers fun callee hc => Builder.calls_appendBlock (hb ▸ hc)

theorem careful_moveTo (id : Nat) : Careful (moveTo id) := by
  refine ⟨?_, fun s e s' h => (by cases h)⟩
  intro s u s' h
  obtain ⟨hb, hk⟩ := moveTo_ok h
  refine hk.covers fun callee hc => ?_
  rw [hb] at hc
  exact hc

theorem careful_currentBlock : Careful currentBlock := by
  refine ⟨?_, fun s e s' h => (by cases h)⟩
  intro s id s' h
  obtain ⟨_, rfl⟩ := currentBlock_ok h
  exact .refl

theorem careful_typeOf (o : Operand) : Careful (typeOf o) := by
  refine ⟨?_, fun s e s' h => (by cases h)⟩
  intro s type s' h
  obtain ⟨_, rfl⟩ := typeOf_ok h
  exact .refl

theorem careful_meant (name : String) (span : Span) : Careful (meant name span) := by
  refine careful_get.bind fun s => ?_
  split
  · exact .pure _
  · exact .throw fun v he => (by cases he)

theorem signature?_covers (hr : env.registry.Keyed) {name : String} {s s' : Lowering}
    {signature : Option Signature} (h : signature? env name s = .ok signature s') :
    s.Covers s' ∧ (signature ≠ none → s'.unit.get? name ≠ none) := by
  cases h
  obtain ⟨hunit, hname⟩ := Registry.resolve_get? hr s.unit name
  exact ⟨⟨hunit, fun _ hc => .inl hc⟩, hname⟩

theorem careful_call (hr : env.registry.Keyed) {callee : String} {span : Span} {arity : Nat}
    {args : List NativeType → Lower (List Operand)} (hargs : ∀ types, Careful (args types)) :
    Careful (call env callee arity span args) := by
  refine ⟨?_, ?_⟩
  · intro s o s' h
    obtain ⟨signature, s₁, hg, h⟩ := bind_ok h
    obtain ⟨hs₁, hdeclared⟩ := signature?_covers hr hg
    cases signature with
    | none => cases h
    | some signature =>
      simp only at h
      split at h
      · cases h
      · obtain ⟨values, s₂, hv, h⟩ := bind_ok h
        have hs₂ := (hargs _).covers s₁ values s₂ hv
        obtain ⟨rfl, hb, hk⟩ := emit_ok h
        refine hs₁.trans (hs₂.trans ⟨fun name hn => by rw [hk.unit]; exact hn, ?_⟩)
        intro callee' hc
        rcases Builder.calls_add (hb ▸ hc) with hc | ⟨_, _, he⟩
        · exact .inl hc
        · cases he
          rw [hk.unit]
          exact .inr (hs₂.unit callee (hdeclared (by simp)))
  · intro s e s' h
    rcases bind_error h with hg | ⟨signature, s₁, _, h⟩
    · cases hg
    · cases signature with
      | none => cases h; exact fun v he => (by cases he)
      | some signature =>
        simp only at h
        split at h
        · cases h; exact fun v he => (by cases he)
        · rcases bind_error h with hv | ⟨values, s₂, _, h⟩
          · exact (hargs _).fails s₁ e s' hv
          · cases h

theorem careful_rules (hr : env.registry.Keyed) :
    Rules (fun action _ => Careful action) Eq (fun _ => True) env env where
  nowhere := rfl
  unsignedCompare := rfl
  pure := .pure
  bind h hf := h.bind hf
  throw h := .throw h.ne_invalid
  note n _ := careful_note n
  compute := careful_compute
  phi := careful_phi
  terminate := careful_terminate
  appendBlock := careful_appendBlock
  moveTo := careful_moveTo
  currentBlock := careful_currentBlock
  typeOf := careful_typeOf
  assign := careful_assign
  meant name span _ _ := careful_meant name span
  call _ _ hargs := careful_call hr hargs

end Lower

open Lower

theorem careful_lowerBody {env : LowerEnv} (hr : env.registry.Keyed) (signature : Signature)
    (body : List Stmt) (result : Option Expr) : Careful (lowerBody env signature body result) :=
  (careful_rules hr).lowerBody_self signature body result

theorem lowerBody_declares {env : LowerEnv} (hr : env.registry.Keyed) {signature : Signature}
    {body : List Stmt} {result : Option Expr} {s s' : Lowering} {u : Unit}
    (h : lowerBody env signature body result s = .ok u s')
    (hs : s.builder = .start signature) {callee : String} (hc : s'.builder.func.Calls callee) :
    s'.unit.get? callee ≠ none := by
  have hcovers := (careful_lowerBody hr signature body result).covers s u s' h
  refine (hcovers.calls callee hc).resolve_left ?_
  rw [hs]
  rintro ⟨i, hi, _⟩
  cases hi

end FormCompiler
