import FormCompiler.Proofs.Lowering.Derivation
import Mathlib.Data.List.Forall2
import Mathlib.Data.Option.Defs

namespace FormCompiler

variable {P : Span → Span → Prop} {W : String → Prop}

inductive Expr.Parallel (P : Span → Span → Prop) (W : String → Prop) : Expr → Expr → Prop
  | int {value : Int64} {span span' : Span} : P span span' →
      Parallel P W (.int value span) (.int value span')
  | float {value : Float} {span span' : Span} : P span span' →
      Parallel P W (.float value span) (.float value span')
  | var {name : String} {type : Ty} {span span' : Span} : W name → P span span' →
      Parallel P W (.var name type span) (.var name type span')
  | binary {op : BinaryOp} {lhs rhs lhs' rhs' : Expr} {span span' : Span} :
      Parallel P W lhs lhs' → Parallel P W rhs rhs' → P span span' →
      Parallel P W (.binary op lhs rhs span) (.binary op lhs' rhs' span')
  | call {callee : String} {args args' : List Expr} {type : Ty} {span span' : Span} : W callee →
      List.Forall₂ (Parallel P W) args args' → P span span' →
      Parallel P W (.call callee args type span) (.call callee args' type span')
  | cond {condition whenTrue whenFalse condition' whenTrue' whenFalse' : Expr}
      {span span' : Span} : Parallel P W condition condition' → Parallel P W whenTrue whenTrue' →
      Parallel P W whenFalse whenFalse' → P span span' → Parallel P W
        (.cond condition whenTrue whenFalse span) (.cond condition' whenTrue' whenFalse' span')
  | endOfInput : Parallel P W .endOfInput .endOfInput

theorem Expr.Parallel.span {e e' : Expr} (h : e.Parallel P W e')
    (hnowhere : P .nowhere .nowhere) : P e.span e'.span := by
  cases h with
  | int h => exact h
  | float h => exact h
  | var _ h => exact h
  | binary _ _ h => exact h
  | call _ _ h => exact h
  | cond _ _ _ h => exact h
  | endOfInput => exact hnowhere

inductive Stmt.Parallel (P : Span → Span → Prop) (W : String → Prop) : Stmt → Stmt → Prop
  | expression {e e' : Expr} : e.Parallel P W e' → Parallel P W (.expression e) (.expression e')
  | prototype {p : Prototype} :
      Parallel P W (.declaration (.prototype p)) (.declaration (.prototype p))
  | function {p : Prototype} {body : List Stmt} {result : Option Expr} :
      Parallel P W (.declaration (.function p body result))
        (.declaration (.function p body result))
  | variableOf {type : Ty} {name : String} {span span' : Span} : P span span' →
      Parallel P W (.declaration (.variableOf type name span))
        (.declaration (.variableOf type name span'))
  | variableAs {type : Ty} {name : String} {init : Initializer} {span span' : Span} :
      P span span' → Parallel P W (.declaration (.variableAs type name init span))
        (.declaration (.variableAs type name init span'))

mutual

theorem Expr.parallel_self : (e : Expr) → e.Parallel Eq (fun _ => True) e
  | .int .. => .int rfl
  | .float .. => .float rfl
  | .var .. => .var trivial rfl
  | .binary _ lhs rhs _ => .binary lhs.parallel_self rhs.parallel_self rfl
  | .call _ args _ _ => .call trivial (Expr.parallel_selves args) rfl
  | .cond condition whenTrue whenFalse _ =>
    .cond condition.parallel_self whenTrue.parallel_self whenFalse.parallel_self rfl
  | .endOfInput => .endOfInput

theorem Expr.parallel_selves :
    (es : List Expr) → List.Forall₂ (Expr.Parallel Eq fun _ => True) es es
  | [] => .nil
  | e :: es => .cons e.parallel_self (Expr.parallel_selves es)

end

theorem Stmt.parallel_of {stmt : Stmt} (h : ∀ e, stmt = .expression e → e.Parallel Eq W e) :
    stmt.Parallel Eq W stmt := by
  cases stmt with
  | expression e => exact .expression (h e rfl)
  | declaration decl =>
    cases decl with
    | prototype p => exact .prototype
    | function p body result => exact .function
    | variableOf type name span => exact .variableOf rfl
    | variableAs type name init span => exact .variableAs rfl

inductive LowerError.Parallel (P : Span → Span → Prop) : LowerError → LowerError → Prop
  | mismatch {source target : NativeType} {span span' : Span} : P span span' →
      Parallel P (.mismatch source target span) (.mismatch source target span')
  | arity {callee : String} {expected found : Nat} {span span' : Span} : P span span' →
      Parallel P (.arity callee expected found span) (.arity callee expected found span')
  | unknownVariable {name : String} {span span' : Span} : P span span' →
      Parallel P (.unknownVariable name span) (.unknownVariable name span')
  | unknownFunction {name : String} {span span' : Span} : P span span' →
      Parallel P (.unknownFunction name span) (.unknownFunction name span')
  | unsupported {what : Unsupported} {span span' : Span} : P span span' →
      Parallel P (.unsupported what span) (.unsupported what span')

theorem LowerError.Parallel.eq {e e' : LowerError} (h : e.Parallel Eq e') : e = e' := by
  cases h with
  | mismatch h => rw [h]
  | arity h => rw [h]
  | unknownVariable h => rw [h]
  | unknownFunction h => rw [h]
  | unsupported h => rw [h]

theorem LowerError.Parallel.ne_invalid {e e' : LowerError} (h : e.Parallel P e')
    (error : VerifyError) : e ≠ .invalid error := by
  rintro rfl
  cases h

namespace Lower

variable {α : Type} {env env' : LowerEnv}

def meant (name : String) (span : Span) : Lower Operand := do
  match (← get).names.get? name with
  | some o => return o
  | none => throw (.unknownVariable name span)

def call (env : LowerEnv) (callee : String) (arity : Nat) (span : Span)
    (args : List NativeType → Lower (List Operand)) : Lower Operand := do
  match ← signature? env callee with
  | none => throw (.unknownFunction callee span)
  | some s =>
    if s.params.length ≠ arity then
      throw (.arity callee s.params.length arity span)
    let values ← args s.paramTypes
    emit (.call callee values s.returns)

theorem discard_eq (action : Lower α) : discard action = (action >>= fun _ => pure ()) := by
  funext s
  simp only [Functor.discard, Functor.mapConst, EStateM.map, Function.comp, bind, EStateM.bind]
  cases action s with
  | ok a s' => rfl
  | error e s' => rfl

structure Rules (M : ∀ {α : Type}, Lower α → Lower α → Prop) (P : Span → Span → Prop)
    (W : String → Prop) (env env' : LowerEnv) : Prop where
  nowhere : P .nowhere .nowhere
  unsignedCompare : env'.unsignedCompare = env.unsignedCompare
  pure {α : Type} (a : α) : M (Pure.pure a) (Pure.pure a)
  bind {α β : Type} {action action' : Lower α} {f f' : α → Lower β} : M action action' →
    (∀ a, M (f a) (f' a)) → M (action >>= f) (action' >>= f')
  throw {α : Type} {e e' : LowerError} : e.Parallel P e' →
    M (MonadExcept.throw e : Lower α) (MonadExcept.throw e')
  note (n n' : Note) : M (Lower.note n) (Lower.note n')
  compute (c : Computation) : M (Lower.compute c) (Lower.compute c)
  phi (type : NativeType) (incoming : List (Operand × Nat)) :
    M (emit (.phi type incoming)) (emit (.phi type incoming))
  terminate (t : Terminator) : M (Lower.terminate t) (Lower.terminate t)
  appendBlock (label : String) : M (Lower.appendBlock label) (Lower.appendBlock label)
  moveTo (id : Nat) : M (Lower.moveTo id) (Lower.moveTo id)
  currentBlock : M Lower.currentBlock Lower.currentBlock
  typeOf (o : Operand) : M (Lower.typeOf o) (Lower.typeOf o)
  assign (name : String) (o : Operand) : M (Lower.assign name o) (Lower.assign name o)
  meant (name : String) {span span' : Span} : P span span' →
    M (Lower.meant name span) (Lower.meant name span')
  call {callee : String} {arity : Nat} {span span' : Span}
    {args args' : List NativeType → Lower (List Operand)} : W callee → P span span' →
    (∀ types, M (args types) (args' types)) →
    M (Lower.call env callee arity span args) (Lower.call env' callee arity span' args')

namespace Rules

variable {M : ∀ {α : Type}, Lower α → Lower α → Prop}

theorem coerce (hrules : Rules M P W env env') (o : Operand) (target : NativeType)
    {span span' : Span} (hspan : P span span') :
    M (Lower.coerce o target span) (Lower.coerce o target span') := by
  refine hrules.bind (hrules.typeOf o) fun source => ?_
  split
  · exact hrules.pure _
  · exact hrules.bind (hrules.note _ _) fun _ => hrules.compute _
  · exact hrules.throw (.mismatch hspan)

theorem binary (hrules : Rules M P W env env') (op : BinaryOp) (l r : Operand) (type : NativeType)
    {span span' : Span} (hspan : P span span') :
    M (Lower.binary env op l r type span) (Lower.binary env' op l r type span') := by
  rw [binary_eq, binary_eq, hrules.unsignedCompare]
  split
  · exact hrules.compute _
  · exact hrules.compute _
  · exact hrules.bind (hrules.compute _) fun flag => hrules.compute _
  · exact hrules.bind (hrules.compute _) fun flag => hrules.compute _
  · exact hrules.throw (.unsupported hspan)

theorem discard (hrules : Rules M P W env env') {action action' : Lower α} (h : M action action') :
    M (Functor.discard action) (Functor.discard action') := by
  rw [discard_eq, discard_eq]
  exact hrules.bind h fun _ => hrules.pure ()

mutual

theorem lower (hrules : Rules M P W env env') {e e' : Expr} (h : e.Parallel P W e') :
    M (e.lower env) (e'.lower env') := by
  cases h with
  | int _ =>
    rw [Expr.lower, Expr.lower]
    exact hrules.pure _
  | float _ =>
    rw [Expr.lower, Expr.lower]
    exact hrules.pure _
  | var _ hspan =>
    rw [Expr.lower, Expr.lower]
    exact hrules.meant _ hspan
  | binary hlhs hrhs hspan =>
    rw [Expr.lower, Expr.lower]
    refine hrules.bind (hrules.lower hlhs) fun l => hrules.bind (hrules.lower hrhs) fun r => ?_
    refine hrules.bind (hrules.typeOf l) fun type => ?_
    refine hrules.bind (hrules.coerce r type hspan) fun r => ?_
    exact hrules.binary _ l r type hspan
  | call hcallee hargs hspan =>
    rw [Expr.lower, Expr.lower, hargs.length_eq]
    exact hrules.call hcallee hspan fun types => hrules.lowerArgs hargs types
  | cond hcondition htrue hfalse hspan =>
    rw [Expr.lower, Expr.lower]
    have hnowhere := hrules.nowhere
    refine hrules.bind (hrules.lower hcondition) fun c => ?_
    refine hrules.bind (hrules.coerce c .f64 (hcondition.span hnowhere)) fun c => ?_
    refine hrules.bind (hrules.compute _) fun flag => ?_
    refine hrules.bind (hrules.appendBlock _) fun thenBlock => ?_
    refine hrules.bind (hrules.appendBlock _) fun elseBlock => ?_
    refine hrules.bind (hrules.appendBlock _) fun join => ?_
    refine hrules.bind (hrules.terminate _) fun _ => hrules.bind (hrules.moveTo _) fun _ => ?_
    refine hrules.bind (hrules.lower htrue) fun thenValue => ?_
    refine hrules.bind hrules.currentBlock fun thenEnd => ?_
    refine hrules.bind (hrules.terminate _) fun _ => ?_
    refine hrules.bind (hrules.typeOf _) fun type => ?_
    split
    · exact hrules.throw (.unsupported hspan)
    · refine hrules.bind (hrules.moveTo _) fun _ => ?_
      refine hrules.bind (hrules.lower hfalse) fun elseValue => ?_
      refine hrules.bind (hrules.coerce _ _ (hfalse.span hnowhere)) fun elseValue => ?_
      refine hrules.bind hrules.currentBlock fun elseEnd => ?_
      refine hrules.bind (hrules.terminate _) fun _ => hrules.bind (hrules.moveTo _) fun _ => ?_
      exact hrules.phi _ _
  | endOfInput =>
    rw [Expr.lower, Expr.lower]
    exact hrules.throw (.unsupported hrules.nowhere)

theorem lowerArgs (hrules : Rules M P W env env') {es es' : List Expr}
    (h : List.Forall₂ (Expr.Parallel P W) es es') (types : List NativeType) :
    M (Expr.lowerArgs env es types) (Expr.lowerArgs env' es' types) := by
  cases h with
  | nil =>
    rw [Expr.lowerArgs, Expr.lowerArgs]
    · exact hrules.pure _
    all_goals
      intro _ _ _ _ e
      cases e
  | cons he hes =>
    cases types with
    | nil =>
      rw [Expr.lowerArgs, Expr.lowerArgs]
      · exact hrules.pure _
      all_goals
        intro _ _ _ _ _ e
        cases e
    | cons type types =>
      rw [Expr.lowerArgs, Expr.lowerArgs]
      refine hrules.bind (hrules.lower he) fun value => ?_
      refine hrules.bind (hrules.coerce value type (he.span hrules.nowhere)) fun value => ?_
      exact hrules.bind (hrules.lowerArgs hes types) fun values => hrules.pure _

end

theorem lowerStmt (hrules : Rules M P W env env') {stmt stmt' : Stmt}
    (h : stmt.Parallel P W stmt') : M (stmt.lower env) (stmt'.lower env') := by
  cases h with
  | expression he => exact hrules.discard (hrules.lower he)
  | prototype => exact hrules.throw (.unsupported hrules.nowhere)
  | function => exact hrules.throw (.unsupported hrules.nowhere)
  | variableAs hspan =>
    exact hrules.bind (hrules.coerce _ _ hspan) fun o => hrules.assign _ _
  | @variableOf type name span span' hspan =>
    simp only [Stmt.lower]
    split
    · exact hrules.assign _ _
    · exact hrules.throw (.unsupported hspan)

/-- Bodies are lowered in parallel. The names of the two functions are only noted down. -/
theorem lowerBody (hrules : Rules M P W env env') {signature signature' : Signature}
    (hreturns : signature'.returns = signature.returns) {body body' : List Stmt}
    (hbody : List.Forall₂ (Stmt.Parallel P W) body body') {result result' : Option Expr}
    (hresult : Option.Rel (Expr.Parallel P W) result result') :
    M (FormCompiler.lowerBody env signature body result)
      (FormCompiler.lowerBody env' signature' body' result') := by
  have hstmts : M (body.forM (Stmt.lower env)) (body'.forM (Stmt.lower env')) := by
    induction hbody with
    | nil => exact hrules.pure _
    | cons hstmt _ ih => exact hrules.bind (hrules.lowerStmt hstmt) fun _ => ih
  refine hrules.bind hstmts fun _ => ?_
  rw [hreturns]
  cases hresult with
  | some he =>
    refine hrules.bind (hrules.lower he) fun value => ?_
    refine hrules.bind (hrules.coerce _ _ (he.span hrules.nowhere)) fun value => ?_
    exact hrules.terminate _
  | none => exact hrules.bind (hrules.note _ _) fun _ => hrules.terminate _

theorem lowerBody_self (hrules : Rules M Eq (fun _ => True) env env') (signature : Signature)
    (body : List Stmt) (result : Option Expr) :
    M (FormCompiler.lowerBody env signature body result)
      (FormCompiler.lowerBody env' signature body result) := by
  refine hrules.lowerBody rfl (List.forall₂_same.mpr fun stmt _ => ?_) ?_
  · exact Stmt.parallel_of fun e _ => e.parallel_self
  · cases result with
    | none => exact .none
    | some e => exact .some e.parallel_self

end Rules

end Lower

end FormCompiler
