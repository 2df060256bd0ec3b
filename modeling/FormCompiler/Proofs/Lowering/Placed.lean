import FormCompiler.Proofs.Lowering.Abreast

namespace FormCompiler

variable {W : String → Prop} {r : Registry}

def Registry.ResolvesAlike (r : Registry) (W : String → Prop) (u v : CodeUnit) : Prop :=
  ∀ name, W name →
    (r.resolve v name).1.map Signature.bare = (r.resolve u name).1.map Signature.bare

theorem Registry.ResolvesAlike.resolve {u v : CodeUnit} (h : r.ResolvesAlike W u v) (hr : r.Keyed)
    (callee : String) : r.ResolvesAlike W (r.resolve u callee).2.1 (r.resolve v callee).2.1 := by
  have hdeclares (u : CodeUnit) : r.Declares u (r.resolve u callee).2.1 :=
    Declares.refl.resolve hr _
  intro name hname
  rw [(hdeclares u).resolve_fst, (hdeclares v).resolve_fst]
  exact h name hname

structure Lowering.Beside (W : String → Prop) (r : Registry) (s t : Lowering) : Prop where
  unit : r.ResolvesAlike W s.unit t.unit
  builder : t.builder = s.builder
  names : t.names = s.names

namespace Lower

variable {α β : Type} {R : α → α → Prop} {S : β → β → Prop}

inductive Agreed (W : String → Prop) (r : Registry) (R : α → α → Prop) :
    EStateM.Result LowerError Lowering α → EStateM.Result LowerError Lowering α → Prop
  | ok {a a' : α} {s t : Lowering} : R a a' → s.Beside W r t → Agreed W r R (.ok a s) (.ok a' t)
  | error {e : LowerError} {s t : Lowering} : Agreed W r R (.error e s) (.error e t)

def Placeless (W : String → Prop) (r : Registry) (R : α → α → Prop) (action : Lower α) : Prop :=
  ∀ s t, s.Beside W r t → Agreed W r R (action s) (action t)

theorem Agreed.bind {action action' : Lower α} {f f' : α → Lower β} {s t : Lowering}
    (h : Agreed W r R (action s) (action' t))
    (hf : ∀ a a' s t, R a a' → s.Beside W r t → Agreed W r S (f a s) (f' a' t)) :
    Agreed W r S ((action >>= f) s) ((action' >>= f') t) := by
  simp only [Bind.bind, EStateM.bind]
  generalize action s = r, action' t = r' at h
  cases h with
  | ok ha hst => exact hf _ _ _ _ ha hst
  | error => exact .error

theorem Agreed.andThen {action action' : Lower α} {f f' : α → Lower β} {s t : Lowering}
    (h : Agreed W r Eq (action s) (action' t))
    (hf : ∀ a s t, s.Beside W r t → Agreed W r S (f a s) (f' a t)) :
    Agreed W r S ((action >>= f) s) ((action' >>= f') t) := by
  refine h.bind ?_
  rintro a _ s t rfl hst
  exact hf a s t hst

theorem placeless_emit (op : Operation) : Placeless W r Eq (emit op) := by
  intro s t h
  obtain ⟨unit, builder, names, notes⟩ := t
  obtain rfl : builder = s.builder := h.builder
  exact .ok rfl ⟨h.unit, rfl, h.names⟩

theorem placeless_compute (c : Computation) : Placeless W r Eq (compute c) := placeless_emit _

theorem placeless_terminate (t : Terminator) : Placeless W r Eq (terminate t) :=
  fun _ _ h => .ok rfl ⟨h.unit, congrArg (Builder.terminate · t) h.builder, h.names⟩

theorem placeless_appendBlock (label : String) : Placeless W r Eq (appendBlock label) := by
  intro s t h
  obtain ⟨unit, builder, names, notes⟩ := t
  obtain rfl : builder = s.builder := h.builder
  exact .ok rfl ⟨h.unit, rfl, h.names⟩

theorem placeless_moveTo (id : Nat) : Placeless W r Eq (moveTo id) :=
  fun _ _ h => .ok rfl ⟨h.unit, congrArg (Builder.moveTo · id) h.builder, h.names⟩

theorem placeless_currentBlock : Placeless W r Eq currentBlock :=
  fun _ _ h => .ok (congrArg Builder.current h.builder.symm) h

theorem placeless_typeOf (o : Operand) : Placeless W r Eq (typeOf o) :=
  fun _ _ h => .ok (congrArg (Builder.typeOf · o) h.builder.symm) h

theorem placeless_assign (name : String) (o : Operand) : Placeless W r Eq (assign name o) :=
  fun _ _ h => .ok rfl ⟨h.unit, h.builder, congrArg (·.insert name o) h.names⟩

theorem placeless_meant (name : String) (span : Span) : Placeless W r Eq (meant name span) := by
  intro s t h
  unfold meant
  rw [Lower.get_bind, Lower.get_bind, h.names]
  cases s.names.get? name with
  | some o => exact .ok rfl h
  | none => exact .error

theorem placeless_signature? {env : LowerEnv} (hr : env.registry.Keyed) {callee : String}
    (hcallee : W callee) :
    Placeless W env.registry
      (fun found found' => found'.map Signature.bare = found.map Signature.bare)
      (signature? env callee) :=
  fun _ _ h => .ok (h.unit callee hcallee) ⟨h.unit.resolve hr callee, h.builder, h.names⟩

theorem agreed_call {env : LowerEnv} (hr : env.registry.Keyed) {callee : String} (hw : W callee)
    {arity : Nat} {span : Span} {args args' : List NativeType → Lower (List Operand)}
    (hargs : ∀ types s t, s.Beside W env.registry t →
      Agreed W env.registry Eq (args types s) (args' types t))
    {s t : Lowering} (h : s.Beside W env.registry t) :
    Agreed W env.registry Eq (call env callee arity span args s)
      (call env callee arity span args' t) := by
  refine (placeless_signature? hr hw s t h).bind fun found found' s t hfound h => ?_
  cases found with
  | none =>
    obtain rfl : found' = none := Option.map_eq_none_iff.mp hfound
    exact .error
  | some signature =>
    obtain ⟨signature', rfl, hbare⟩ := Option.map_eq_some_iff.mp hfound
    obtain ⟨_, hreturns, hparams⟩ := Signature.bare_eq_iff.mp hbare
    have hlength := Signature.length_params_of_paramTypes hparams
    simp only [hlength, hreturns, hparams]
    split
    · exact .error
    · exact (hargs signature.paramTypes s t h).andThen fun values => placeless_emit _

theorem agreed_rules {env : LowerEnv} (hr : env.registry.Keyed) :
    Rules (fun action action' => ∀ s t, s.Beside W env.registry t →
      Agreed W env.registry Eq (action s) (action' t)) Eq W env env where
  nowhere := rfl
  unsignedCompare := rfl
  pure _ _ _ h := .ok rfl h
  bind h hf s t hst := (h s t hst).andThen hf
  throw he _ _ _ := he.eq ▸ .error
  note _ _ _ _ h := .ok rfl ⟨h.unit, h.builder, h.names⟩
  compute := placeless_compute
  phi _ _ := placeless_emit _
  terminate := placeless_terminate
  appendBlock := placeless_appendBlock
  moveTo := placeless_moveTo
  currentBlock := placeless_currentBlock
  typeOf := placeless_typeOf
  assign := placeless_assign
  meant name _ _ hspan := hspan ▸ placeless_meant name _
  call hw hspan hargs _ _ h := hspan ▸ agreed_call hr hw hargs h

end Lower

open Lower

theorem placeless_lowerBody (env : LowerEnv) (hr : env.registry.Keyed) (signature : Signature)
    {body : List Stmt} (hbody : ∀ stmt ∈ body, stmt.Spelled W) {result : Option Expr}
    (hresult : ∀ e ∈ result, e.Spelled W) :
    Placeless W env.registry Eq (lowerBody env signature body result) :=
  (agreed_rules hr).lowerBody_spelled rfl hbody hresult

end FormCompiler
