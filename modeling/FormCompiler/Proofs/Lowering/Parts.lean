import FormCompiler.Proofs.Verification

namespace FormCompiler

namespace Lower

def toThen (env : LowerEnv) (condition : Expr) : Lower (Nat × Nat) := do
  let c ← condition.lower env
  let c ← coerce c .f64 condition.span
  let flag ← compute (.fcmp .one c (.const (.f64 0.0)))
  let thenBlock ← appendBlock "then"
  let elseBlock ← appendBlock "else"
  let joinBlock ← appendBlock "ifcont"
  terminate (.condBr flag thenBlock elseBlock)
  moveTo thenBlock
  return (elseBlock, joinBlock)

def toElse (env : LowerEnv) (condition whenTrue : Expr) (span : Span) :
    Lower (Operand × Nat × NativeType × Nat) := do
  let (elseBlock, joinBlock) ← toThen env condition
  let thenValue ← whenTrue.lower env
  let thenEnd ← currentBlock
  terminate (.br joinBlock)
  let type ← typeOf thenValue
  if type = .void then throw (.unsupported .voidBranch span)
  moveTo elseBlock
  return (thenValue, thenEnd, type, joinBlock)

end Lower

open Lower

namespace Expr

theorem lower_cond_then (env : LowerEnv) (condition whenTrue whenFalse : Expr) (span : Span) :
    lower env (.cond condition whenTrue whenFalse span) = (do
      let (elseBlock, joinBlock) ← toThen env condition
      let thenValue ← whenTrue.lower env
      let thenEnd ← currentBlock
      terminate (.br joinBlock)
      let type ← typeOf thenValue
      if type = .void then throw (.unsupported .voidBranch span)
      moveTo elseBlock
      let elseValue ← whenFalse.lower env
      let elseValue ← coerce elseValue type whenFalse.span
      let elseEnd ← currentBlock
      terminate (.br joinBlock)
      moveTo joinBlock
      emit (.phi type [(thenValue, thenEnd), (elseValue, elseEnd)])) := by
  rw [lower, toThen]
  simp only [bind_assoc, pure_bind]

theorem lower_cond_else (env : LowerEnv) (condition whenTrue whenFalse : Expr) (span : Span) :
    lower env (.cond condition whenTrue whenFalse span) = (do
      let (thenValue, thenEnd, type, joinBlock) ← toElse env condition whenTrue span
      let elseValue ← whenFalse.lower env
      let elseValue ← coerce elseValue type whenFalse.span
      let elseEnd ← currentBlock
      terminate (.br joinBlock)
      moveTo joinBlock
      emit (.phi type [(thenValue, thenEnd), (elseValue, elseEnd)])) := by
  rw [lower_cond_then, toElse]
  simp only [bind_assoc]
  refine bind_congr fun _ => bind_congr fun _ => bind_congr fun _ => bind_congr fun _ =>
    bind_congr fun type => ?_
  by_cases h : type = .void
  · simp only [h, if_true, bind_assoc, pure_bind]
  · simp only [h, if_false, bind_assoc, pure_bind]

theorem lowerArgs_append {env : LowerEnv} {before after : List Expr} {arg : Expr}
    {types : List NativeType} {s s' : Lowering} {values : List Operand}
    (hlength : types.length = (before ++ arg :: after).length)
    (h : lowerArgs env (before ++ arg :: after) types s = .ok values s') :
    ∃ values₁ s₁ o s₂, lowerArgs env before types s = .ok values₁ s₁ ∧
      arg.lower env s₁ = .ok o s₂ := by
  induction before generalizing types s s' values with
  | nil =>
    cases types with
    | nil => cases hlength
    | cons type types =>
      rw [List.nil_append, lowerArgs] at h
      obtain ⟨o, s₂, ho, _⟩ := bind_ok h
      refine ⟨[], s, o, s₂, ?_, ho⟩
      rw [lowerArgs]
      · rfl
      · intro _ _ _ _ he
        cases he
  | cons e before ih =>
    cases types with
    | nil => cases hlength
    | cons type types =>
      rw [List.cons_append, lowerArgs] at h
      obtain ⟨o, s₁, ho, h⟩ := bind_ok h
      obtain ⟨o', s₂, hc, h⟩ := bind_ok h
      obtain ⟨os, s₃, hos, _⟩ := bind_ok h
      obtain ⟨values₁, s₄, o₁, s₅, hbefore, harg⟩ := ih (Nat.succ.inj hlength) hos
      refine ⟨o' :: values₁, s₄, o₁, s₅, ?_, harg⟩
      rw [lowerArgs]
      simp only [bind, EStateM.bind, ho, hc, hbefore]
      rfl

/-- While `e` is lowered from `s`, the part `part` is lowered from `t`. -/
inductive Passes (env : LowerEnv) : Expr → Lowering → Expr → Lowering → Prop
  | self {e : Expr} {s : Lowering} : Passes env e s e s
  | lhs {op : BinaryOp} {lhs rhs part : Expr} {span : Span} {s t : Lowering} :
      Passes env lhs s part t → Passes env (.binary op lhs rhs span) s part t
  | rhs {op : BinaryOp} {lhs rhs part : Expr} {span : Span} {o : Operand} {s s₁ t : Lowering} :
      lhs.lower env s = .ok o s₁ → Passes env rhs s₁ part t →
      Passes env (.binary op lhs rhs span) s part t
  | arg {callee : String} {before after : List Expr} {arg part : Expr} {type : Ty} {span : Span}
      {signature : Signature} {values : List Operand} {s s₁ s₂ t : Lowering} :
      signature? env callee s = .ok (some signature) s₁ →
      lowerArgs env before signature.paramTypes s₁ = .ok values s₂ →
      Passes env arg s₂ part t →
      Passes env (.call callee (before ++ arg :: after) type span) s part t
  | condition {condition whenTrue whenFalse part : Expr} {span : Span} {s t : Lowering} :
      Passes env condition s part t → Passes env (.cond condition whenTrue whenFalse span) s part t
  | whenTrue {condition whenTrue whenFalse part : Expr} {span : Span} {blocks : Nat × Nat}
      {s s₁ t : Lowering} : toThen env condition s = .ok blocks s₁ →
      Passes env whenTrue s₁ part t → Passes env (.cond condition whenTrue whenFalse span) s part t
  | whenFalse {condition whenTrue whenFalse part : Expr} {span : Span}
      {ended : Operand × Nat × NativeType × Nat} {s s₁ t : Lowering} :
      toElse env condition whenTrue span s = .ok ended s₁ → Passes env whenFalse s₁ part t →
      Passes env (.cond condition whenTrue whenFalse span) s part t

end Expr

theorem Lowering.Within.exists_signature? {s : Lowering} {env : LowerEnv} {x : LowerScope}
    {u : CodeUnit} (h : s.Within env x u) (callee : String) :
    ∃ s', Lower.signature? env callee s = .ok (x.known callee) s' := by
  rw [← h.known callee, ← h.unit.resolve_fst callee]
  exact ⟨_, rfl⟩

structure Lowering.Stands (s : Lowering) (env : LowerEnv) (x : LowerScope) (u : CodeUnit)
    (b : Builder) : Prop where
  within : s.Within env x u
  grown : b.func.Extends s.builder.func
  isOpen : ∃ block, s.builder.Open block

namespace Lowering.Stands

variable {env : LowerEnv} {x : LowerScope} {u : CodeUnit} {b : Builder} {s s' : Lowering}
  {o : Operand}

theorem grows (h : s.Stands env x u b) (hs : s'.Within env x u)
    (hb : s.builder.Grows s'.builder) : s'.Stands env x u b :=
  ⟨hs, h.grown.trans hb.func, hb.isOpen⟩

theorem lower (h : s.Stands env x u b) {e : Expr} (he : e.lower env s = .ok o s') :
    s'.Stands env x u b := by
  obtain ⟨hlowered, hs⟩ := Expr.lowered e he h.within
  exact h.grows hs (hlowered.grows h.isOpen.choose_spec)

theorem coerce (h : s.Stands env x u b) {o' : Operand} {target : NativeType} {span : Span}
    (hc : coerce o target span s = .ok o' s') : s'.Stands env x u b := by
  obtain ⟨hcoerced, hk⟩ := coerce_ok hc
  exact h.grows (h.within.keep hk) (hcoerced.grows h.isOpen.choose_spec)

theorem compute (h : s.Stands env x u b) {c : Computation} (hc : compute c s = .ok o s') :
    s'.Stands env x u b := by
  obtain ⟨_, hb, hk⟩ := compute_ok hc
  exact h.grows (h.within.keep hk) (h.isOpen.choose_spec.grows_of_eq hb)

theorem lowerArgs (h : s.Stands env x u b) {args : List Expr} {types : List NativeType}
    {values : List Operand} (hargs : Expr.lowerArgs env args types s = .ok values s') :
    s'.Stands env x u b := by
  induction args generalizing s types values with
  | nil =>
    rw [Expr.lowerArgs] at hargs
    · obtain ⟨_, rfl⟩ := pure_ok hargs
      exact h
    · intro _ _ _ _ he
      cases he
  | cons e args ih =>
    cases types with
    | nil =>
      rw [Expr.lowerArgs] at hargs
      · obtain ⟨_, rfl⟩ := pure_ok hargs
        exact h
      · intro _ _ _ _ _ he
        cases he
    | cons type types =>
      rw [Expr.lowerArgs] at hargs
      obtain ⟨o, s₁, ho, hargs⟩ := bind_ok hargs
      obtain ⟨o', s₂, hc, hargs⟩ := bind_ok hargs
      obtain ⟨os, s₃, hos, hargs⟩ := bind_ok hargs
      obtain ⟨_, rfl⟩ := pure_ok hargs
      exact ih ((h.lower ho).coerce hc) hos

theorem signature? (h : s.Stands env x u b) {callee : String} {signature : Option Signature}
    (hg : signature? env callee s = .ok signature s') :
    signature = x.known callee ∧ s'.Stands env x u b := by
  obtain ⟨hsignature, hb, hs⟩ := signature?_ok hg h.within
  exact ⟨hsignature, hs, hb ▸ h.grown, hb ▸ h.isOpen⟩

theorem toThen (h : s.Stands env x u b) {condition : Expr} {blocks : Nat × Nat}
    (ht : toThen env condition s = .ok blocks s') : s'.Stands env x u b ∧
      ∃ (c : Builder) (flag : Operand), (∃ block, c.Open block) ∧
        s'.builder = c.branch flag ∧
        blocks = (c.func.blocks.length + 1, c.func.blocks.length + 2) := by
  obtain ⟨o, s₁, ho, ht⟩ := bind_ok ht
  obtain ⟨o', s₂, hc, ht⟩ := bind_ok ht
  obtain ⟨flag, s₃, hflag, ht⟩ := bind_ok ht
  have h₃ := ((h.lower ho).coerce hc).compute hflag
  obtain ⟨block, hopen⟩ := h₃.isOpen
  obtain ⟨n, s₄, rfl, hb, hk, ht⟩ := branch_ok ht
  obtain ⟨rfl, rfl⟩ := pure_ok ht
  obtain ⟨label, hnew⟩ := Builder.open_branch hopen.current_lt flag
  refine ⟨⟨h₃.within.keep hk, ?_, ?_⟩, s₃.builder, flag, ⟨block, hopen⟩, hb, rfl⟩
  · rw [hb]
    exact h₃.grown.trans (Builder.extends_branch hopen flag)
  · rw [hb]
    exact ⟨_, hnew⟩

theorem toElse (h : s.Stands env x u b) {condition whenTrue : Expr} {span : Span}
    {ended : Operand × Nat × NativeType × Nat}
    (ht : toElse env condition whenTrue span s = .ok ended s') : s'.Stands env x u b := by
  obtain ⟨blocks, s₁, hthen, ht⟩ := bind_ok ht
  obtain ⟨h₁, c, flag, ⟨block, hopen⟩, hb₁, rfl⟩ := h.toThen hthen
  obtain ⟨thenValue, s₂, hvalue, ht⟩ := bind_ok ht
  obtain ⟨hlowered, hs₂⟩ := Expr.lowered whenTrue hvalue h₁.within
  have hgrows := hlowered.grows h₁.isOpen.choose_spec
  obtain ⟨_, _, hend, ht⟩ := bind_ok ht
  obtain ⟨rfl, rfl⟩ := currentBlock_ok hend
  obtain ⟨_, s₃, hjump, ht⟩ := bind_ok ht
  obtain ⟨hb₃, hk₃⟩ := terminate_ok hjump
  obtain ⟨type, _, htype, ht⟩ := bind_ok ht
  obtain ⟨rfl, rfl⟩ := typeOf_ok htype
  split at ht
  · cases ht
  · obtain ⟨_, s₄, hmove, ht⟩ := bind_ok ht
    obtain ⟨hb₄, hk₄⟩ := moveTo_ok hmove
    obtain ⟨_, rfl⟩ := pure_ok ht
    have hb : s'.builder = s₂.builder.jump (c.func.blocks.length + 2)
        (c.func.blocks.length + 1) := by rw [hb₄, hb₃]; rfl
    obtain ⟨block₂, hopen₂⟩ := hgrows.isOpen
    rw [hb₁] at hgrows
    obtain ⟨label, hnew⟩ := Builder.open_else hopen.current_lt rfl hgrows
    refine ⟨(hs₂.keep hk₃).keep hk₄, ?_, ?_⟩
    · rw [hb]
      have hbranch := h₁.grown.trans (hb₁ ▸ hgrows.func)
      exact hbranch.trans (hopen₂.extends_terminate _)
    · rw [hb]
      exact ⟨_, hnew⟩

end Lowering.Stands

namespace Expr

variable {env : LowerEnv} {x : LowerScope} {u : CodeUnit} {b : Builder} {s s' t : Lowering}
  {e part : Expr} {o : Operand}

theorem Passes.lowers (h : e.Passes env s part t) (hs : s.Stands env x u b)
    (hok : e.lower env s = .ok o s') :
    t.Stands env x u b ∧ ∃ o' t', part.lower env t = .ok o' t' := by
  induction h generalizing o s' with
  | self => exact ⟨hs, o, s', hok⟩
  | lhs _ ih =>
    rw [lower] at hok
    obtain ⟨l, s₁, hl, _⟩ := bind_ok hok
    exact ih hs hl
  | rhs hlhs _ ih =>
    rw [lower] at hok
    obtain ⟨l, s₁, hl, hok⟩ := bind_ok hok
    cases hlhs.symm.trans hl
    obtain ⟨r, s₂, hr, _⟩ := bind_ok hok
    exact ih (hs.lower hlhs) hr
  | @arg callee before after arg part type span signature values s s₁ s₂ t hg hbefore _ ih =>
    rw [lower] at hok
    obtain ⟨found, s₃, hfound, hok⟩ := bind_ok hok
    cases hg.symm.trans hfound
    simp only at hok
    split at hok
    · cases hok
    next hlength =>
      obtain ⟨os, s₃, hargs, _⟩ := bind_ok hok
      have htypes : signature.paramTypes.length = (before ++ arg :: after).length := by
        rw [Signature.paramTypes, List.length_map]
        exact Decidable.not_not.mp hlength
      obtain ⟨values₁, s₄, o₁, s₅, hbefore', harg⟩ := lowerArgs_append htypes hargs
      cases hbefore.symm.trans hbefore'
      exact ih ((hs.signature? hg).2.lowerArgs hbefore) harg
  | condition _ ih =>
    rw [lower] at hok
    obtain ⟨c, s₁, hc, _⟩ := bind_ok hok
    exact ih hs hc
  | whenTrue hthen _ ih =>
    rw [lower_cond_then] at hok
    obtain ⟨blocks, s₁, hblocks, hok⟩ := bind_ok hok
    cases hthen.symm.trans hblocks
    obtain ⟨value, s₂, hvalue, _⟩ := bind_ok hok
    exact ih (hs.toThen hthen).1 hvalue
  | whenFalse helse _ ih =>
    rw [lower_cond_else] at hok
    obtain ⟨ended, s₁, hended, hok⟩ := bind_ok hok
    cases helse.symm.trans hended
    obtain ⟨value, s₂, hvalue, _⟩ := bind_ok hok
    exact ih (hs.toElse helse) hvalue

inductive HasPart : Expr → Expr → Prop
  | self {e : Expr} : HasPart e e
  | lhs {op : BinaryOp} {lhs rhs part : Expr} {span : Span} : HasPart lhs part →
      HasPart (.binary op lhs rhs span) part
  | rhs {op : BinaryOp} {lhs rhs part : Expr} {span : Span} : HasPart rhs part →
      HasPart (.binary op lhs rhs span) part
  | arg {callee : String} {args : List Expr} {arg part : Expr} {type : Ty} {span : Span} :
      arg ∈ args → HasPart arg part → HasPart (.call callee args type span) part
  | condition {condition whenTrue whenFalse part : Expr} {span : Span} : HasPart condition part →
      HasPart (.cond condition whenTrue whenFalse span) part
  | whenTrue {condition whenTrue whenFalse part : Expr} {span : Span} : HasPart whenTrue part →
      HasPart (.cond condition whenTrue whenFalse span) part
  | whenFalse {condition whenTrue whenFalse part : Expr} {span : Span} : HasPart whenFalse part →
      HasPart (.cond condition whenTrue whenFalse span) part

theorem exists_passes (h : e.HasPart part) (hok : e.lower env s = .ok o s') :
    ∃ t, e.Passes env s part t := by
  induction h generalizing s s' o with
  | self => exact ⟨s, .self⟩
  | lhs _ ih =>
    rw [lower] at hok
    obtain ⟨l, s₁, hl, _⟩ := bind_ok hok
    obtain ⟨t, ht⟩ := ih hl
    exact ⟨t, .lhs ht⟩
  | rhs _ ih =>
    rw [lower] at hok
    obtain ⟨l, s₁, hl, hok⟩ := bind_ok hok
    obtain ⟨r, s₂, hr, _⟩ := bind_ok hok
    obtain ⟨t, ht⟩ := ih hr
    exact ⟨t, .rhs hl ht⟩
  | @arg callee args arg part type span hmem _ ih =>
    obtain ⟨before, after, rfl⟩ := List.append_of_mem hmem
    rw [lower] at hok
    obtain ⟨found, s₁, hfound, hok⟩ := bind_ok hok
    cases found with
    | none => cases hok
    | some signature =>
      simp only at hok
      split at hok
      · cases hok
      next hlength =>
        obtain ⟨os, s₂, hargs, _⟩ := bind_ok hok
        have htypes : signature.paramTypes.length = (before ++ arg :: after).length := by
          rw [Signature.paramTypes, List.length_map]
          exact Decidable.not_not.mp hlength
        obtain ⟨values, s₃, o₁, s₄, hbefore, harg⟩ := lowerArgs_append htypes hargs
        obtain ⟨t, ht⟩ := ih harg
        exact ⟨t, .arg hfound hbefore ht⟩
  | condition _ ih =>
    rw [lower] at hok
    obtain ⟨c, s₁, hc, _⟩ := bind_ok hok
    obtain ⟨t, ht⟩ := ih hc
    exact ⟨t, .condition ht⟩
  | whenTrue _ ih =>
    rw [lower_cond_then] at hok
    obtain ⟨blocks, s₁, hblocks, hok⟩ := bind_ok hok
    obtain ⟨value, s₂, hvalue, _⟩ := bind_ok hok
    obtain ⟨t, ht⟩ := ih hvalue
    exact ⟨t, .whenTrue hblocks ht⟩
  | whenFalse _ ih =>
    rw [lower_cond_else] at hok
    obtain ⟨ended, s₁, hended, hok⟩ := bind_ok hok
    obtain ⟨value, s₂, hvalue, _⟩ := bind_ok hok
    obtain ⟨t, ht⟩ := ih hvalue
    exact ⟨t, .whenFalse hended ht⟩

/-- The literal, variable or call that the expression has its type from. -/
def lead : Expr → Expr
  | .binary _ lhs _ _ => lhs.lead
  | .cond _ whenTrue _ _ => whenTrue.lead
  | e => e

def callee? : Expr → Option String
  | .call callee .. => some callee
  | _ => none

@[simp] theorem ty_lead (e : Expr) : e.lead.ty = e.ty := by
  match e with
  | .binary _ lhs _ _ => exact ty_lead lhs
  | .cond _ whenTrue _ _ => exact ty_lead whenTrue
  | .int .. | .float .. | .var .. | .call .. | .endOfInput => rfl

structure Faithful (x : LowerScope) (b : Builder) (e : Expr) : Prop where
  var : ∀ name type span, e.lead = .var name type span → ∀ o, x.names.get? name = some o →
    b.func.operandType? o = some (.ofTy type)
  call : ∀ callee, e.lead.callee? = some callee → ∀ signature, x.known callee = some signature →
    signature.returns = .ofTy e.ty

theorem Faithful.mono {b' : Builder} (h : e.Faithful x b) (hb : b.func.Extends b'.func) :
    e.Faithful x b' :=
  ⟨fun name type span he o ho => hb.operandType? (h.var name type span he o ho), h.call⟩

theorem operandType?_lowered {b b' : Builder} {block : Block} {o : Operand} (e : Expr)
    (h : Lowered x (.expr e) b [o] b') (hb : b.Open block) (he : e.Faithful x b) :
    b'.func.operandType? o = some (.ofTy e.ty) := by
  cases e with
  | int value span => cases h; rfl
  | float value span => cases h; rfl
  | var name type span =>
    cases h with
    | var ho => exact he.var name type span rfl o ho
  | call callee args type span =>
    cases h with
    | call hk _ _ =>
      rw [Builder.operandType?_next, Operation.type, he.call callee rfl _ hk]
  | binary op lhs rhs span =>
    cases h with
    | @binary _ _ _ _ l _ _ _ _ _ b₂ _ _ hl hr _ ho =>
      have hltype := operandType?_lowered lhs hl hb ⟨he.var, he.call⟩
      have hgrows := hr.grows (hl.grows hb).isOpen.choose_spec
      have htype : b₂.typeOf l = .ofTy lhs.ty := by
        rw [Builder.typeOf, hgrows.func.operandType? hltype]
        rfl
      rw [ho.operandType?, htype, ty]
  | cond condition whenTrue whenFalse span =>
    cases h with
    | cond hcond hc hb₃ hn hthen _ _ _ =>
      have h₁ := hcond.grows hb
      have h₂ := h₁.trans (hc.grows h₁.isOpen.choose_spec)
      have h₃ := h₂.trans (h₂.isOpen.choose_spec.grows_of_eq hb₃)
      obtain ⟨_, hopen⟩ := h₃.isOpen
      obtain ⟨_, hthenOpen⟩ := Builder.open_branch hopen.current_lt _
      have hlead : whenTrue.Faithful x b := ⟨he.var, he.call⟩
      have htype := operandType?_lowered whenTrue hthen hthenOpen
        (hlead.mono (h₃.func.trans (Builder.extends_branch hopen _)))
      rw [Builder.operandType?_next, Operation.type, Builder.typeOf, htype, ty]
      rfl
  | endOfInput => cases h

end Expr

end FormCompiler
