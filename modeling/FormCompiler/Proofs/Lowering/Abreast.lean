import FormCompiler.Proofs.Lowering.Named

namespace FormCompiler

namespace Signature

def bare (s : Signature) : Signature := { s with params := s.paramTypes.map ("", ·) }

theorem paramTypes_bare (s : Signature) : s.bare.paramTypes = s.paramTypes := by
  unfold bare paramTypes
  rw [List.map_map]
  exact List.map_id _

theorem length_params_of_paramTypes {s t : Signature} (h : s.paramTypes = t.paramTypes) :
    s.params.length = t.params.length := by
  have hlength := congrArg List.length h
  rwa [paramTypes, paramTypes, List.length_map, List.length_map] at hlength

theorem bare_eq_iff {s t : Signature} :
    s.bare = t.bare ↔ s.name = t.name ∧ s.returns = t.returns ∧ s.paramTypes = t.paramTypes := by
  constructor
  · intro h
    have hname : s.bare.name = t.bare.name := by rw [h]
    have hreturns : s.bare.returns = t.bare.returns := by rw [h]
    refine ⟨hname, hreturns, ?_⟩
    rw [← s.paramTypes_bare, ← t.paramTypes_bare, h]
  · rintro ⟨hname, hreturns, hparams⟩
    unfold bare
    rw [hname, hreturns, hparams]

end Signature

inductive Expr.Alike : Expr → Expr → Prop
  | int {value : Int64} {span span' : Span} : Alike (.int value span) (.int value span')
  | float {value : Float} {span span' : Span} : Alike (.float value span) (.float value span')
  | var {name : String} {type : Ty} {span span' : Span} :
      Alike (.var name type span) (.var name type span')
  | binary {op : BinaryOp} {lhs rhs lhs' rhs' : Expr} {span span' : Span} : Alike lhs lhs' →
      Alike rhs rhs' → Alike (.binary op lhs rhs span) (.binary op lhs' rhs' span')
  | call {callee : String} {args args' : List Expr} {type : Ty} {span span' : Span} :
      List.Forall₂ Alike args args' →
      Alike (.call callee args type span) (.call callee args' type span')
  | cond {condition whenTrue whenFalse condition' whenTrue' whenFalse' : Expr}
      {span span' : Span} : Alike condition condition' → Alike whenTrue whenTrue' →
      Alike whenFalse whenFalse' →
      Alike (.cond condition whenTrue whenFalse span) (.cond condition' whenTrue' whenFalse' span')
  | endOfInput : Alike .endOfInput .endOfInput

namespace Expr.Alike

theorem ty {e e' : Expr} (h : e.Alike e') : e'.ty = e.ty := by
  cases h with
  | binary hlhs _ =>
    rw [Expr.ty, Expr.ty]
    exact hlhs.ty
  | cond _ htrue _ =>
    rw [Expr.ty, Expr.ty]
    exact htrue.ty
  | _ => rfl

theorem join {lhs rhs lhs' rhs' : Expr} (hl : lhs.Alike lhs') (hr : rhs.Alike rhs')
    (op : BinaryOp) : (Expr.join op lhs rhs).Alike (Expr.join op lhs' rhs') := by
  refine .binary ?_ hr
  cases hl with
  | int =>
    simp only [promote, hr.ty]
    split
    · exact .float
    · exact .int
  | float => exact .float
  | var => exact .var
  | binary hlhs hrhs => exact .binary hlhs hrhs
  | call hargs => exact .call hargs
  | cond hc ht hf => exact .cond hc ht hf
  | endOfInput => exact .endOfInput

end Expr.Alike

inductive Stmt.Alike : Stmt → Stmt → Prop
  | expression {e e' : Expr} : e.Alike e' → Alike (.expression e) (.expression e')
  | variableOf {type : Ty} {name : String} {span span' : Span} :
      Alike (.declaration (.variableOf type name span)) (.declaration (.variableOf type name span'))
  | variableAs {type : Ty} {name : String} {init : Initializer} {span span' : Span} :
      Alike (.declaration (.variableAs type name init span))
        (.declaration (.variableAs type name init span'))

inductive Declaration.Alike : Declaration → Declaration → Prop
  | prototype {p p' : Prototype} : p'.signature.bare = p.signature.bare →
      Alike (.prototype p) (.prototype p')
  | function {p p' : Prototype} {body body' : List Stmt} {result result' : Option Expr} :
      p'.signature = p.signature → List.Forall₂ Stmt.Alike body body' →
      Option.Rel Expr.Alike result result' →
      Alike (.function p body result) (.function p' body' result')
  | variableOf {type : Ty} {name : String} {span span' : Span} :
      Alike (.variableOf type name span) (.variableOf type name span')
  | variableAs {type : Ty} {name : String} {init : Initializer} {span span' : Span} :
      Alike (.variableAs type name init span) (.variableAs type name init span')

theorem Stmt.Alike.declaration {d d' : Declaration}
    (h : Stmt.Alike (.declaration d) (.declaration d')) : d.Alike d' := by
  cases h with
  | variableOf => exact .variableOf
  | variableAs => exact .variableAs

structure Registry.Alike (r r' : Registry) : Prop where
  isDefined : ∀ name, r'.isDefined name = r.isDefined name
  signature? : ∀ name,
    (r'.signature? name).map Signature.bare = (r.signature? name).map Signature.bare

structure Lowering.Abreast (s t : Lowering) : Prop where
  unit : ∀ callee, (t.unit.get? callee).map (·.signature.bare) =
    (s.unit.get? callee).map (·.signature.bare)
  builder : t.builder = s.builder
  names : t.names = s.names

structure LowerEnv.Abreast (env env' : LowerEnv) : Prop where
  registry : env.registry.Alike env'.registry
  keyed : env.registry.Keyed
  keyed' : env'.registry.Keyed
  unsignedCompare : env'.unsignedCompare = env.unsignedCompare

namespace Lower

variable {α β : Type} {R : α → α → Prop} {S : β → β → Prop}

inductive Joint (R : α → α → Prop) :
    EStateM.Result LowerError Lowering α → EStateM.Result LowerError Lowering α → Prop
  | ok {a a' : α} {s t : Lowering} : R a a' → s.Abreast t → Joint R (.ok a s) (.ok a' t)
  | error {e e' : LowerError} {s t : Lowering} : Joint R (.error e s) (.error e' t)

def Match (R : α → α → Prop) (action action' : Lower α) : Prop :=
  ∀ s t, s.Abreast t → Joint R (action s) (action' t)

theorem Match.bind {action action' : Lower α} {f f' : α → Lower β} (h : Match R action action')
    (hf : ∀ a a', R a a' → Match S (f a) (f' a')) : Match S (action >>= f) (action' >>= f') := by
  intro s t hst
  simp only [Bind.bind, EStateM.bind]
  have h := h s t hst
  generalize action s = r, action' t = r' at h
  cases h with
  | ok ha hst' => exact hf _ _ ha _ _ hst'
  | error => exact .error

theorem Match.andThen {action action' : Lower α} {f f' : α → Lower β}
    (h : Match Eq action action') (hf : ∀ a, Match S (f a) (f' a)) :
    Match S (action >>= f) (action' >>= f') := by
  refine h.bind ?_
  rintro a _ rfl
  exact hf a

theorem Match.pure {a a' : α} (h : R a a') : Match R (Pure.pure a) (Pure.pure a') :=
  fun _ _ hst => .ok h hst

theorem Match.throw (e e' : LowerError) : Match R (throw e : Lower α) (throw e' : Lower α) :=
  fun _ _ _ => .error

theorem match_note (n n' : Note) : Match Eq (note n) (note n') :=
  fun _ _ h => .ok rfl ⟨h.unit, h.builder, h.names⟩

theorem match_emit (op : Operation) : Match Eq (emit op) (emit op) := by
  intro s t h
  obtain ⟨unit, builder, names, notes⟩ := t
  obtain rfl : builder = s.builder := h.builder
  exact .ok rfl ⟨h.unit, rfl, h.names⟩

theorem match_compute (c : Computation) : Match Eq (compute c) (compute c) := match_emit _

theorem match_terminate (term : Terminator) : Match Eq (terminate term) (terminate term) :=
  fun _ _ h => .ok rfl ⟨h.unit, congrArg (Builder.terminate · term) h.builder, h.names⟩

theorem match_appendBlock (label : String) : Match Eq (appendBlock label) (appendBlock label) := by
  intro s t h
  obtain ⟨unit, builder, names, notes⟩ := t
  obtain rfl : builder = s.builder := h.builder
  exact .ok rfl ⟨h.unit, rfl, h.names⟩

theorem match_moveTo (id : Nat) : Match Eq (moveTo id) (moveTo id) :=
  fun _ _ h => .ok rfl ⟨h.unit, congrArg (Builder.moveTo · id) h.builder, h.names⟩

theorem match_currentBlock : Match Eq currentBlock currentBlock :=
  fun _ _ h => .ok (congrArg Builder.current h.builder.symm) h

theorem match_typeOf (o : Operand) : Match Eq (typeOf o) (typeOf o) :=
  fun _ _ h => .ok (congrArg (Builder.typeOf · o) h.builder.symm) h

theorem match_assign (name : String) (o : Operand) : Match Eq (assign name o) (assign name o) :=
  fun _ _ h => .ok rfl ⟨h.unit, h.builder, congrArg (·.insert name o) h.names⟩

theorem match_meant (name : String) (span span' : Span) :
    Match Eq (meant name span) (meant name span') := by
  intro s t hst
  unfold meant
  rw [Lower.get_bind, Lower.get_bind, hst.names]
  cases s.names.get? name with
  | some o => exact .ok rfl hst
  | none => exact .error

variable {env env' : LowerEnv}

theorem match_signature? (h : env.Abreast env') (callee : String) :
    Match (fun found found' => found'.map Signature.bare = found.map Signature.bare)
      (signature? env callee) (signature? env' callee) := by
  intro s t hst
  refine .ok ?_ ⟨fun other => ?_, hst.builder, hst.names⟩
  · change (env'.registry.resolve t.unit callee).1.map _ =
      (env.registry.resolve s.unit callee).1.map _
    have hunit : ∀ u : CodeUnit, ((u.get? callee).map Func.signature).map Signature.bare =
        (u.get? callee).map (·.signature.bare) := fun u => Option.map_map _ _ _
    rw [Registry.resolve_fst, Registry.resolve_fst, Option.map_or, Option.map_or, hunit, hunit,
      hst.unit callee, h.registry.signature? callee]
  · have hdeclared : ∀ r : Registry, ((r.signature? callee).map fun s : Signature =>
        ({ signature := s } : Func)).map (·.signature.bare) =
          (r.signature? callee).map Signature.bare := fun r => Option.map_map _ _ _
    change ((env'.registry.resolve t.unit callee).2.1.get? other).map _ =
      ((env.registry.resolve s.unit callee).2.1.get? other).map _
    rw [Registry.get?_resolve h.keyed', Registry.get?_resolve h.keyed, Option.map_or, Option.map_or,
      hst.unit other]
    congr 1
    split
    · rw [hdeclared, hdeclared, h.registry.signature? callee]
    · rfl

theorem match_call (h : env.Abreast env') {callee : String} {arity : Nat} {span span' : Span}
    {args args' : List NativeType → Lower (List Operand)}
    (hargs : ∀ types, Match Eq (args types) (args' types)) :
    Match Eq (call env callee arity span args) (call env' callee arity span' args') := by
  refine (match_signature? h callee).bind fun found found' hfound => ?_
  cases found with
  | none =>
    obtain rfl : found' = none := Option.map_eq_none_iff.mp hfound
    exact .throw _ _
  | some signature =>
    obtain ⟨signature', rfl, hbare⟩ := Option.map_eq_some_iff.mp hfound
    obtain ⟨_, hreturns, hparams⟩ := Signature.bare_eq_iff.mp hbare
    have hlength := Signature.length_params_of_paramTypes hparams
    simp only [hlength, hreturns, hparams]
    split
    · exact fun _ _ _ => .error
    · exact (hargs _).andThen fun values => match_emit _

theorem match_rules (h : env.Abreast env') :
    Rules (Match Eq) (fun _ _ => True) (fun _ => True) env env' where
  nowhere := trivial
  unsignedCompare := h.unsignedCompare
  pure _ := .pure rfl
  bind := Match.andThen
  throw _ := .throw _ _
  note := match_note
  compute := match_compute
  phi _ _ := match_emit _
  terminate := match_terminate
  appendBlock := match_appendBlock
  moveTo := match_moveTo
  currentBlock := match_currentBlock
  typeOf := match_typeOf
  assign := match_assign
  meant name span span' _ := match_meant name span span'
  call _ _ hargs := match_call h hargs

end Lower

open Lower

mutual

theorem Expr.Alike.parallel {e e' : Expr} :
    e.Alike e' → e.Parallel (fun _ _ => True) (fun _ => True) e'
  | .int => .int trivial
  | .float => .float trivial
  | .var => .var trivial trivial
  | .binary hlhs hrhs => .binary hlhs.parallel hrhs.parallel trivial
  | .call hargs => .call trivial (Expr.Alike.parallels hargs) trivial
  | .cond hcondition htrue hfalse =>
    .cond hcondition.parallel htrue.parallel hfalse.parallel trivial
  | .endOfInput => .endOfInput

theorem Expr.Alike.parallels {es es' : List Expr} : List.Forall₂ Expr.Alike es es' →
    List.Forall₂ (Expr.Parallel (fun _ _ => True) fun _ => True) es es'
  | .nil => .nil
  | .cons he hes => .cons he.parallel (Expr.Alike.parallels hes)

end

theorem Stmt.Alike.parallel {stmt stmt' : Stmt} (h : stmt.Alike stmt') :
    stmt.Parallel (fun _ _ => True) (fun _ => True) stmt' := by
  cases h with
  | expression he => exact .expression he.parallel
  | variableOf => exact .variableOf trivial
  | variableAs => exact .variableAs trivial

theorem match_lowerBody {env env' : LowerEnv} (h : env.Abreast env') (signature : Signature)
    {body body' : List Stmt} (hbody : List.Forall₂ Stmt.Alike body body')
    {result result' : Option Expr} (hresult : Option.Rel Expr.Alike result result') :
    Match Eq (lowerBody env signature body result) (lowerBody env' signature body' result') := by
  refine (match_rules h).lowerBody rfl (hbody.imp fun _ _ hs => hs.parallel) ?_
  cases hresult with
  | none => exact .none
  | some he => exact .some he.parallel

end FormCompiler
