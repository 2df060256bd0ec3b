import FormCompiler.Proofs.Generator
import FormCompiler.Proofs.Lowering.Careful
import FormCompiler.Proofs.Parser.Steady
import FormCompiler.Proofs.Pass.Named

namespace FormCompiler

def Func.CallsOnly (f : Func) (W : String → Prop) : Prop := ∀ callee, f.Calls callee → W callee

namespace Builder

def named (b : Builder) (name : String) : Builder := { b with func := b.func.named name }

theorem typeOf_named (b : Builder) (name : String) (o : Operand) :
    (b.named name).typeOf o = b.typeOf o := by
  cases o <;> rfl

end Builder

variable {W : String → Prop} {name : String}

structure Lowering.Alike (W : String → Prop) (name : String) (s t : Lowering) : Prop where
  unit : ∀ callee, W callee → t.unit.get? callee = s.unit.get? callee
  builder : t.builder = s.builder.named name
  names : t.names = s.names
  calls : s.builder.func.CallsOnly W

theorem Registry.get?_resolve {r : Registry} (hr : r.Keyed) (u : CodeUnit) (callee other : String) :
    (r.resolve u callee).2.1.get? other = (u.get? other).or
      (if callee = other then (r.signature? callee).map fun s => { signature := s } else none) := by
  unfold resolve
  cases hu : u.get? callee with
  | some f =>
    by_cases he : callee = other
    · subst he
      simp [hu]
    · simp [he]
  | none =>
    cases hs : r.signature? callee with
    | none => simp
    | some s =>
      obtain rfl : s.name = callee := hr callee s hs
      have hc : u.contains s.name = false := by rw [CodeUnit.contains_eq, hu]; rfl
      simp only [CodeUnit.declare, hc, Bool.false_eq_true, if_false, CodeUnit.get?_insert]
      by_cases he : s.name = other
      · subst he
        simp [hu, Func.name]
      · simp [he, Func.name]

namespace Lower

variable {α β : Type}

inductive Paired (W : String → Prop) (name : String) :
    EStateM.Result LowerError Lowering α → EStateM.Result LowerError Lowering α → Prop
  | ok {a : α} {s t : Lowering} : s.Alike W name t → Paired W name (.ok a s) (.ok a t)
  | error {e e' : LowerError} {s t : Lowering} : Paired W name (.error e s) (.error e' t)

def Blind (W : String → Prop) (name : String) (action : Lower α) : Prop :=
  ∀ s t, s.Alike W name t → Paired W name (action s) (action t)

theorem Paired.bind {action action' : Lower α} {f f' : α → Lower β} {s t : Lowering}
    (h : Paired W name (action s) (action' t))
    (hf : ∀ a s t, s.Alike W name t → Paired W name (f a s) (f' a t)) :
    Paired W name ((action >>= f) s) ((action' >>= f') t) := by
  simp only [Bind.bind, EStateM.bind]
  generalize action s = r, action' t = r' at h
  cases h with
  | ok h => exact hf _ _ _ h
  | error => exact .error

theorem blind_emit {op : Operation}
    (hop : ∀ callee args returns, op = .call callee args returns → W callee) :
    Blind W name (emit op) := by
  intro s t h
  obtain ⟨unit, builder, names, notes⟩ := t
  obtain rfl : builder = s.builder.named name := h.builder
  refine .ok ⟨h.unit, rfl, h.names, fun callee hc => ?_⟩
  rcases Builder.calls_add hc with hc | ⟨args, returns, he⟩
  · exact h.calls callee hc
  · exact hop callee args returns he

theorem blind_compute (c : Computation) : Blind W name (compute c) :=
  blind_emit fun _ _ _ he => (by cases he)

theorem blind_terminate (t : Terminator) : Blind W name (terminate t) := by
  intro s t' h
  obtain ⟨unit, builder, names, notes⟩ := t'
  obtain rfl : builder = s.builder.named name := h.builder
  exact .ok ⟨h.unit, rfl, h.names, fun callee hc => h.calls callee (Builder.calls_terminate hc)⟩

theorem blind_appendBlock (label : String) : Blind W name (appendBlock label) := by
  intro s t h
  obtain ⟨unit, builder, names, notes⟩ := t
  obtain rfl : builder = s.builder.named name := h.builder
  exact .ok ⟨h.unit, rfl, h.names, fun callee hc => h.calls callee (Builder.calls_appendBlock hc)⟩

theorem blind_moveTo (id : Nat) : Blind W name (moveTo id) := by
  intro s t h
  obtain ⟨unit, builder, names, notes⟩ := t
  obtain rfl : builder = s.builder.named name := h.builder
  exact .ok ⟨h.unit, rfl, h.names, h.calls⟩

theorem blind_currentBlock : Blind W name currentBlock := by
  intro s t h
  have hcurrent : t.builder.current = s.builder.current := by rw [h.builder]; rfl
  change Paired W name (.ok s.builder.current s) (.ok t.builder.current t)
  rw [hcurrent]
  exact .ok h

theorem blind_typeOf (o : Operand) : Blind W name (typeOf o) := by
  intro s t h
  have htype : t.builder.typeOf o = s.builder.typeOf o := by
    rw [h.builder, Builder.typeOf_named]
  change Paired W name (.ok (s.builder.typeOf o) s) (.ok (t.builder.typeOf o) t)
  rw [htype]
  exact .ok h

theorem blind_assign (key : String) (o : Operand) : Blind W name (assign key o) := by
  intro s t h
  exact .ok ⟨h.unit, h.builder, congrArg (·.insert key o) h.names, h.calls⟩

theorem blind_meant (key : String) (span : Span) : Blind W name (meant key span) := by
  intro s t h
  unfold meant
  rw [Lower.get_bind, Lower.get_bind, h.names]
  cases s.names.get? key with
  | some o => exact .ok h
  | none => exact .error

theorem blind_signature? {env : LowerEnv} (hr : env.registry.Keyed) {callee : String}
    (hw : W callee) : Blind W name (signature? env callee) := by
  intro s t h
  have hresolve : (env.registry.resolve t.unit callee).1 =
      (env.registry.resolve s.unit callee).1 := by
    rw [Registry.resolve_fst, Registry.resolve_fst, h.unit callee hw]
  change Paired W name (.ok (env.registry.resolve s.unit callee).1 ⟨_, _, _, _⟩)
    (.ok (env.registry.resolve t.unit callee).1 ⟨_, _, _, _⟩)
  rw [hresolve]
  refine .ok ⟨fun other hother => ?_, h.builder, h.names, h.calls⟩
  change (env.registry.resolve t.unit callee).2.1.get? other =
    (env.registry.resolve s.unit callee).2.1.get? other
  rw [Registry.get?_resolve hr, Registry.get?_resolve hr, h.unit other hother]

theorem paired_call {env : LowerEnv} (hr : env.registry.Keyed) {callee : String} (hw : W callee)
    {arity : Nat} {span span' : Span} {args args' : List NativeType → Lower (List Operand)}
    (hargs : ∀ types s t, s.Alike W name t → Paired W name (args types s) (args' types t))
    {s t : Lowering} (h : s.Alike W name t) :
    Paired W name (call env callee arity span args s) (call env callee arity span' args' t) := by
  refine (blind_signature? hr hw s t h).bind fun found s t h => ?_
  cases found with
  | none => exact .error
  | some signature =>
    simp only
    split
    · exact .error
    · refine (hargs _ s t h).bind fun values => blind_emit ?_
      intro callee args returns he
      cases he
      exact hw

theorem paired_rules {env : LowerEnv} (hr : env.registry.Keyed) :
    Rules (fun action action' => ∀ s t, s.Alike W name t → Paired W name (action s) (action' t))
      Eq W env env where
  nowhere := rfl
  unsignedCompare := rfl
  pure _ _ _ h := .ok h
  bind h hf s t hst := (h s t hst).bind hf
  throw _ _ _ _ := .error
  note _ _ _ _ h := .ok ⟨h.unit, h.builder, h.names, h.calls⟩
  compute := blind_compute
  phi _ _ := blind_emit fun _ _ _ he => (by cases he)
  terminate := blind_terminate
  appendBlock := blind_appendBlock
  moveTo := blind_moveTo
  currentBlock := blind_currentBlock
  typeOf := blind_typeOf
  assign := blind_assign
  meant key _ _ hspan := hspan ▸ blind_meant key _
  call hw _ hargs _ _ h := paired_call hr hw hargs h

end Lower

open Lower

theorem Expr.Spelled.parallel {e : Expr} (h : e.Spelled W) : e.Parallel Eq W e := by
  induction h with
  | int => exact .int rfl
  | float => exact .float rfl
  | var hn => exact .var hn rfl
  | binary _ _ ihl ihr => exact .binary ihl ihr rfl
  | call hn _ ih => exact .call hn (List.forall₂_same.mpr ih) rfl
  | cond _ _ _ ihc iht ihf => exact .cond ihc iht ihf rfl
  | endOfInput => exact .endOfInput

theorem Lower.Rules.lowerBody_spelled {M : ∀ {α : Type}, Lower α → Lower α → Prop}
    {env env' : LowerEnv} (hrules : Rules M Eq W env env') {signature signature' : Signature}
    (hreturns : signature'.returns = signature.returns) {body : List Stmt}
    (hbody : ∀ stmt ∈ body, stmt.Spelled W) {result : Option Expr}
    (hresult : ∀ e ∈ result, e.Spelled W) :
    M (FormCompiler.lowerBody env signature body result)
      (FormCompiler.lowerBody env' signature' body result) := by
  refine hrules.lowerBody hreturns (List.forall₂_same.mpr fun stmt hstmt => ?_) ?_
  · refine Stmt.parallel_of fun e he => ?_
    have hspelled := hbody stmt hstmt
    rw [he] at hspelled
    exact Expr.Spelled.parallel hspelled
  · cases result with
    | none => exact .none
    | some e => exact .some (hresult e rfl).parallel

theorem paired_lowerBody {env : LowerEnv} (hr : env.registry.Keyed) (signature : Signature)
    {body : List Stmt} (hbody : ∀ stmt ∈ body, stmt.Spelled W) {result : Option Expr}
    (hresult : ∀ e ∈ result, e.Spelled W) {s t : Lowering} (h : s.Alike W name t) :
    Paired W name (lowerBody env signature body result s)
      (lowerBody env (signature.named name) body result t) := by
  have hreturns : (signature.named name).returns = signature.returns := rfl
  exact (paired_rules hr).lowerBody_spelled hreturns hbody hresult s t h

end FormCompiler
