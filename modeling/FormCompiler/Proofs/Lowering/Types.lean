import FormCompiler.Proofs.Lowering.Parts
import FormCompiler.Proofs.Parser.Resolved

namespace FormCompiler

open Lower

def Naming.Fits (ns : List Naming) (scope : String) (names : Table Operand) (f : Func) : Prop :=
  ∀ name o, names.get? name = some o →
    ∃ n, last? ns scope name = some n ∧ f.operandType? o = some (.ofTy n.type)

namespace Naming.Fits

variable {ns : List Naming} {scope : String} {names : Table Operand} {f g : Func}

theorem empty : Fits ns scope ∅ f := fun _ _ ho => (by cases ho)

theorem mono (h : Fits ns scope names f) (hf : f.Extends g) : Fits ns scope names g := by
  intro name o ho
  obtain ⟨n, hn, htype⟩ := h name o ho
  exact ⟨n, hn, hf.operandType? htype⟩

theorem insert (h : Fits ns scope names f) {name : String} {type : Ty} {o : Operand}
    (ho : f.operandType? o = some (.ofTy type)) :
    Fits (ns ++ [⟨scope, name, type, false⟩]) scope (names.insert name o) f := by
  intro other o' ho'
  rw [Table.get?_insert] at ho'
  rw [last?_concat]
  split at ho'
  next he =>
    cases ho'
    exact ⟨_, if_pos ⟨rfl, he⟩, ho⟩
  next hne =>
    obtain ⟨n, hn, htype⟩ := h other o' ho'
    exact ⟨n, (if_neg fun he => hne he.2).trans hn, htype⟩

theorem concat (h : Fits ns scope names f) {n : Naming} (hn : n.scope ≠ scope) :
    Fits (ns ++ [n]) scope names f := by
  intro name o ho
  obtain ⟨n', hn', htype⟩ := h name o ho
  exact ⟨n', by rw [last?_concat, if_neg fun he => hn he.1]; exact hn', htype⟩

theorem params (ns : List Naming) {p : Prototype} (hf : f.signature = p.signature) :
    Fits (ns ++ p.params.map (Param.naming p.name)) p.name p.signature.paramNames f := by
  -- By induction on the parameters behind those that already have names.
  have hbehind : ∀ (rest before : List Param) (names : Table Operand),
      p.params = before ++ rest →
      Fits (ns ++ before.map (Param.naming p.name)) p.name names f →
      Fits (ns ++ p.params.map (Param.naming p.name)) p.name
        (((rest.map fun q => (q.name, NativeType.ofTy q.type)).zipIdx before.length).foldl
          (fun names e => names.insert e.1.1 (.param e.2)) names) f := by
    intro rest
    induction rest with
    | nil =>
      intro before names hp h
      rw [List.append_nil] at hp
      rw [hp]
      exact h
    | cons q rest ih =>
      intro before names hp h
      have htype : f.operandType? (.param before.length) = some (.ofTy q.type) := by
        simp [Func.operandType?, hf, Prototype.signature, Signature.paramTypes, hp]
      have hnext : Fits (ns ++ (before ++ [q]).map (Param.naming p.name)) p.name
          (names.insert q.name (.param before.length)) f := by
        rw [List.map_append, ← List.append_assoc]
        exact h.insert htype
      have hrest :=
        ih (before ++ [q]) _ (by rw [hp, List.append_assoc, List.singleton_append]) hnext
      rw [List.length_append] at hrest
      exact hrest
  refine hbehind p.params [] ∅ rfl ?_
  exact empty

end Naming.Fits

namespace Expr

variable {look : String → Option Ty} {env : LowerEnv} {e part : Expr} {s t : Lowering}

theorem Resolved.lead (h : e.Resolved look) : e.lead.Resolved look := by
  induction h with
  | int => exact .int
  | float => exact .float
  | var h => exact .var h
  | binary _ _ ihl _ => exact ihl
  | call h hargs _ => exact .call h hargs
  | cond _ _ _ _ iht _ => exact iht

theorem Passes.resolved (h : e.Passes env s part t) (he : e.Resolved look) :
    part.Resolved look := by
  induction h with
  | self => exact he
  | lhs _ ih => cases he with | binary hl _ => exact ih hl
  | rhs _ _ ih => cases he with | binary _ hr => exact ih hr
  | arg _ _ _ ih => cases he with | call _ hargs => exact ih (hargs _ (by simp))
  | condition _ ih => cases he with | cond hc _ _ => exact ih hc
  | whenTrue _ _ ih => cases he with | cond _ ht _ => exact ih ht
  | whenFalse _ _ ih => cases he with | cond _ _ hf => exact ih hf

end Expr

namespace ResolvedBody

variable {scope : String} {ns : List Naming} {e : Expr}

theorem result {body : List Stmt} (h : ResolvedBody scope ns body (some e)) :
    e.Resolved (Naming.type? (ns ++ body.flatMap (Stmt.namings scope)) scope) := by
  induction body generalizing ns with
  | nil =>
    rw [List.flatMap_nil, List.append_nil]
    exact h e rfl
  | cons stmt body ih =>
    rw [List.flatMap_cons, ← List.append_assoc]
    cases stmt with
    | expression e' =>
      rw [Stmt.namings, List.append_nil]
      exact ih h.2
    | declaration d => exact ih h

theorem statement {before after : List Stmt} {result : Option Expr}
    (h : ResolvedBody scope ns (before ++ .expression e :: after) result) :
    e.Resolved (Naming.type? (ns ++ before.flatMap (Stmt.namings scope)) scope) := by
  induction before generalizing ns with
  | nil =>
    rw [List.flatMap_nil, List.append_nil]
    exact h.1
  | cons stmt before ih =>
    rw [List.flatMap_cons, ← List.append_assoc]
    cases stmt with
    | expression e' =>
      rw [Stmt.namings, List.append_nil]
      exact ih h.2
    | declaration d => exact ih h

end ResolvedBody

theorem Stmt.lower_append {env : LowerEnv} {before after : List Stmt} {s s' : Lowering} {u : Unit}
    (h : (before ++ after).forM (lower env) s = .ok u s') :
    ∃ s₁, before.forM (lower env) s = .ok () s₁ ∧ after.forM (lower env) s₁ = .ok () s' := by
  induction before generalizing s with
  | nil => exact ⟨s, rfl, h⟩
  | cons stmt before ih =>
    change (stmt.lower env >>= fun _ => (before ++ after).forM (lower env)) s = _ at h
    obtain ⟨_, s₂, hstmt, h⟩ := bind_ok h
    obtain ⟨s₁, hbefore, hafter⟩ := ih h
    refine ⟨s₁, ?_, hafter⟩
    change (stmt.lower env >>= fun _ => before.forM (lower env)) s = _
    simp only [bind, EStateM.bind, hstmt]
    exact hbefore

/-- A part occurs in a body, behind the statements `before`. -/
inductive Occurs : List Stmt → Option Expr → List Stmt → Expr → Prop
  | statement {before after : List Stmt} {e part : Expr} {result : Option Expr} :
      e.HasPart part → Occurs (before ++ .expression e :: after) result before part
  | result {body : List Stmt} {e part : Expr} : e.HasPart part → Occurs body (some e) body part

theorem Occurs.exists_append {body before : List Stmt} {result : Option Expr} {part : Expr}
    (h : Occurs body result before part) : ∃ after, body = before ++ after := by
  cases h with
  | statement _ => exact ⟨_, rfl⟩
  | result _ => exact ⟨[], (List.append_nil _).symm⟩

namespace Generator

def lowerEnv (g : Generator) : LowerEnv := ⟨g.registry, g.options.unsignedCompare⟩

/-- While the function is built, a part of the expression behind the statements `before` is lowered
from `t`. -/
inductive Works (g : Generator) (p : Prototype) :
    List Stmt → Option Expr → List Stmt → Expr → Lowering → Prop
  | statement {before after : List Stmt} {e part : Expr} {result : Option Expr}
      {s t : Lowering} :
      before.forM (Stmt.lower g.lowerEnv) (g.workStart p.signature) = .ok () s →
      e.Passes g.lowerEnv s part t →
      Works g p (before ++ .expression e :: after) result before part t
  | result {body : List Stmt} {e part : Expr} {s t : Lowering} :
      body.forM (Stmt.lower g.lowerEnv) (g.workStart p.signature) = .ok () s →
      e.Passes g.lowerEnv s part t → Works g p body (some e) body part t

end Generator

structure Lowering.Tells (s : Lowering) (env : LowerEnv) (known : String → Option Signature)
    (u : CodeUnit) (ns : List Naming) (scope : String) : Prop where
  stands : s.Stands env ⟨known, s.names, env.unsignedCompare⟩ u s.builder
  fits : Naming.Fits ns scope s.names s.builder.func

namespace Lowering.Tells

variable {env : LowerEnv} {known : String → Option Signature} {u : CodeUnit} {ns : List Naming}
  {scope : String} {s s' : Lowering}

theorem statement (h : s.Tells env known u ns scope) {stmt : Stmt}
    (hstmt : stmt.lower env s = .ok () s') :
    s'.Tells env known u (ns ++ stmt.namings scope) scope := by
  obtain ⟨block, hopen⟩ := h.stands.isOpen
  cases stmt with
  | expression e =>
    obtain ⟨o, ho⟩ := discard_ok hstmt
    obtain ⟨hlowered, hwithin⟩ := Expr.lowered e ho h.stands.within
    have hgrows := hlowered.grows hopen
    have hnames : s'.names = s.names := hwithin.names
    refine ⟨⟨hnames ▸ hwithin, .refl, hgrows.isOpen⟩, ?_⟩
    rw [Stmt.namings, List.append_nil, hnames]
    exact h.fits.mono hgrows.func
  | declaration decl =>
    cases decl with
    | prototype proto => cases hstmt
    | function proto body result => cases hstmt
    | variableOf type name span =>
      cases hz : (NativeType.ofTy type).zero? with
      | none => simp only [Stmt.lower, hz] at hstmt; cases hstmt
      | some zero =>
        simp only [Stmt.lower, hz] at hstmt
        obtain ⟨hb, hwithin⟩ := assign_ok hstmt h.stands.within
        have htype : s'.builder.func.operandType? (.const zero) = some (.ofTy type) := by
          revert hz
          cases type <;> intro hz <;> cases hz <;> rfl
        have hnames : s'.names = s.names.insert name (.const zero) := hwithin.names
        refine ⟨⟨hnames ▸ hwithin, .refl, hb ▸ h.stands.isOpen⟩, ?_⟩
        rw [hnames]
        exact (hb ▸ h.fits).insert htype
    | variableAs type name init span =>
      obtain ⟨o, s₁, hc, hstmt⟩ := bind_ok hstmt
      obtain ⟨hcoerced, hk⟩ := coerce_ok hc
      have hgrows := hcoerced.grows hopen
      obtain ⟨hb, hwithin⟩ := assign_ok hstmt (h.stands.within.keep hk)
      have htype : s'.builder.func.operandType? o = some (.ofTy type) := by
        rw [hb]
        exact hcoerced.operandType? rfl
      have hnames : s'.names = s.names.insert name o := hwithin.names
      refine ⟨⟨hnames ▸ hwithin, .refl, hb ▸ hgrows.isOpen⟩, ?_⟩
      rw [hnames]
      exact (h.fits.mono (hb ▸ hgrows.func)).insert htype

theorem statements {stmts : List Stmt} (h : s.Tells env known u ns scope)
    (hstmts : stmts.forM (Stmt.lower env) s = .ok () s') :
    s'.Tells env known u (ns ++ stmts.flatMap (Stmt.namings scope)) scope := by
  induction stmts generalizing s ns with
  | nil =>
    cases hstmts
    rw [List.flatMap_nil, List.append_nil]
    exact h
  | cons stmt stmts ih =>
    change (stmt.lower env >>= fun _ => stmts.forM (Stmt.lower env)) s = _ at hstmts
    obtain ⟨_, s₁, hstmt, hstmts⟩ := bind_ok hstmts
    rw [List.flatMap_cons, ← List.append_assoc]
    exact ih (h.statement hstmt) hstmts

theorem part (h : s.Tells env known u ns scope) {e part : Expr} {t : Lowering}
    (hp : e.Passes env s part t) {o : Operand} (he : e.lower env s = .ok o s')
    (hr : part.Resolved (Naming.type? ns scope)) :
    t.Within env ⟨known, s.names, env.unsignedCompare⟩ u ∧
    ∃ o' t', part.lower env t = .ok o' t' ∧
      ((∀ callee, part.lead.callee? = some callee → ∀ signature, known callee = some signature →
        signature.returns = .ofTy part.ty) →
      t'.builder.func.operandType? o' = some (.ofTy part.ty)) := by
  obtain ⟨ht, o', t', hpart⟩ := hp.lowers h.stands he
  obtain ⟨hlowered, _⟩ := Expr.lowered part hpart ht.within
  refine ⟨ht.within, o', t', hpart, fun hcall => ?_⟩
  refine part.operandType?_lowered hlowered ht.isOpen.choose_spec ⟨?_, hcall⟩
  intro name type span hlead o ho
  obtain ⟨n, hn, htype⟩ := (h.fits.mono ht.grown) name o ho
  have hlook := hr.lead
  rw [hlead] at hlook
  cases hlook with
  | var hlook =>
    rw [Naming.type?, Naming.seen?, hn] at hlook
    rw [htype, ← Option.some.inj hlook]

end Lowering.Tells

namespace Generator

variable {g : Generator} {p : Prototype} {body before : List Stmt} {result : Option Expr}
  {part : Expr} {t : Lowering}

theorem exists_works (h : Occurs body result before part) {work : Lowering}
    (hl : lowerBody g.lowerEnv p.signature body result (g.workStart p.signature) = .ok () work) :
    ∃ t, g.Works p body result before part t := by
  obtain ⟨_, s₁, hstmts, hresult⟩ := bind_ok hl
  cases h with
  | @statement _ after e _ _ he =>
    obtain ⟨s, hbefore, hstmts⟩ := Stmt.lower_append hstmts
    change (Stmt.lower g.lowerEnv (.expression e) >>= fun _ => after.forM _) s = _ at hstmts
    obtain ⟨_, s₂, hexpression, _⟩ := bind_ok hstmts
    obtain ⟨o, ho⟩ := discard_ok hexpression
    obtain ⟨t, ht⟩ := Expr.exists_passes he ho
    exact ⟨t, .statement hbefore ht⟩
  | result he =>
    obtain ⟨o, s₂, ho, _⟩ := bind_ok hresult
    obtain ⟨t, ht⟩ := Expr.exists_passes he ho
    exact ⟨t, .result hstmts ht⟩

/-- Where a body is lowered, so is each part of it, and a part has its type if the call that leads
it finds a function that returns the type. -/
theorem Works.typed (hw : g.Works p body result before part t) {work : Lowering}
    (hl : lowerBody g.lowerEnv p.signature body result (g.workStart p.signature) = .ok () work)
    {known : String → Option Signature} {u : CodeUnit} {ns : List Naming} {scope : String}
    (hstart : (g.workStart p.signature).Tells g.lowerEnv known u ns scope)
    (hbody : ResolvedBody scope ns body result) :
    part.Resolved (Naming.type? (ns ++ before.flatMap (Stmt.namings scope)) scope) ∧
    (∃ names, t.Within g.lowerEnv ⟨known, names, g.lowerEnv.unsignedCompare⟩ u) ∧
    ∃ o t', part.lower g.lowerEnv t = .ok o t' ∧
      ((∀ callee, part.lead.callee? = some callee → ∀ signature, known callee = some signature →
        signature.returns = .ofTy part.ty) →
      t'.builder.func.operandType? o = some (.ofTy part.ty)) := by
  obtain ⟨_, s₁, hstmts, hresult⟩ := bind_ok hl
  cases hw with
  | @statement _ after e _ _ s _ hbefore hp =>
    have hresolved := hp.resolved hbody.statement
    obtain ⟨s₂, hbefore', hstmts⟩ := Stmt.lower_append hstmts
    cases hbefore.symm.trans hbefore'
    change (Stmt.lower g.lowerEnv (.expression e) >>= fun _ => after.forM _) s = _ at hstmts
    obtain ⟨_, s₃, he, _⟩ := bind_ok hstmts
    obtain ⟨o, ho⟩ := discard_ok he
    obtain ⟨hwithin, htyped⟩ := (hstart.statements hbefore).part hp ho hresolved
    exact ⟨hresolved, ⟨_, hwithin⟩, htyped⟩
  | @result _ e _ s _ hbefore hp =>
    have hresolved := hp.resolved hbody.result
    cases hbefore.symm.trans hstmts
    obtain ⟨o, s₂, ho, _⟩ := bind_ok hresult
    obtain ⟨hwithin, htyped⟩ := (hstart.statements hbefore).part hp ho hresolved
    exact ⟨hresolved, ⟨_, hwithin⟩, htyped⟩

end Generator

end FormCompiler
