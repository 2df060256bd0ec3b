import FormCompiler.Proofs.Decimal.Numerals
import FormCompiler.Proofs.Parser.Resolved
import FormCompiler.Proofs.Parser.Trees

namespace FormCompiler

namespace Expr

def stratum : Expr → Stratum
  | .binary op _ _ _ => op.stratum
  | _ => .primary

def looser (e : Expr) (σ : Stratum) : Bool := e.stratum.level < σ.level

def isGreedy : Expr → Bool
  | .cond .. => true
  | .binary op _ rhs _ => !rhs.looser op.stratum.next && rhs.isGreedy
  | _ => false

def enclosed (needed : Bool) (kinds : List Kind) : List Kind :=
  if needed then .openParen :: (kinds ++ [.closeParen]) else kinds

mutual

/-- The tokens of an expression. Parentheses stand around an operand that binds looser than its
place allows, and around a conditional on the left of an operator. -/
def kinds : Expr → List Kind
  | .int value _ => [.int (Literal.ofInt value)]
  | .float value _ => [.float (Literal.ofFloat value)]
  | .var name _ _ => [.name name]
  | .binary op lhs rhs _ =>
    enclosed (lhs.looser op.stratum || lhs.isGreedy) lhs.kinds ++
      .op op.symbol :: enclosed (rhs.looser op.stratum.next) rhs.kinds
  | .call callee args _ _ => .name callee :: .openParen :: (argKinds args ++ [.closeParen])
  | .cond condition whenTrue whenFalse _ =>
    .ifWord :: .openParen ::
      (condition.kinds ++ .closeParen :: (whenTrue.kinds ++ .elseWord :: whenFalse.kinds))
  | .endOfInput => []

def argKinds : List Expr → List Kind
  | [] => []
  | arg :: args => arg.kinds ++ moreArgKinds args

def moreArgKinds : List Expr → List Kind
  | [] => []
  | arg :: args => .comma :: (arg.kinds ++ moreArgKinds args)

end

mutual

def erase : Expr → Expr
  | .int value _ => .int value .nowhere
  | .float value _ => .float value .nowhere
  | .var name type _ => .var name type .nowhere
  | .binary op lhs rhs _ => .binary op lhs.erase rhs.erase .nowhere
  | .call callee args type _ => .call callee (eraseArgs args) type .nowhere
  | .cond condition whenTrue whenFalse _ =>
    .cond condition.erase whenTrue.erase whenFalse.erase .nowhere
  | .endOfInput => .endOfInput

def eraseArgs : List Expr → List Expr
  | [] => []
  | arg :: args => arg.erase :: eraseArgs args

end

/-- Names stand for what they are looked up as, numbers have no sign, and no whole number stands
before an operator and a `double`. -/
inductive WellScoped (look : String → Option Ty) : Expr → Prop
  | int {value : Int64} {span : Span} : 0 ≤ value → WellScoped look (.int value span)
  | float {value : Float} {span : Span} : value.toBits ≤ 0x7ff0000000000000 →
      WellScoped look (.float value span)
  | var {name : String} {type : Ty} {span : Span} : look name = some type →
      WellScoped look (.var name type span)
  | binary {op : BinaryOp} {lhs rhs : Expr} {span : Span} : WellScoped look lhs →
      WellScoped look rhs → ((∃ value span, lhs = .int value span) → rhs.ty ≠ .double) →
      WellScoped look (.binary op lhs rhs span)
  | call {callee : String} {args : List Expr} {type : Ty} {span : Span} :
      look callee = some type → (∀ arg ∈ args, WellScoped look arg) →
      WellScoped look (.call callee args type span)
  | cond {condition whenTrue whenFalse : Expr} {span : Span} : WellScoped look condition →
      WellScoped look whenTrue → WellScoped look whenFalse →
      WellScoped look (.cond condition whenTrue whenFalse span)

theorem ty_erase (e : Expr) : e.erase.ty = e.ty := by
  induction e using ty.induct <;> simp_all [erase, ty]

theorem promote_eq {lhs rhs : Expr}
    (h : (∃ value span, lhs = .int value span) → rhs.ty ≠ .double) : lhs.promote rhs = lhs := by
  unfold promote
  split
  next value span =>
    have hty := h ⟨value, span, rfl⟩
    rw [if_neg (by simpa [Ty.isFloat] using hty)]
  next => rfl

theorem erase_promote (lhs rhs : Expr) : (lhs.promote rhs).erase = lhs.erase.promote rhs.erase := by
  cases lhs with
  | int value span =>
    simp only [promote, erase, ty_erase]
    split <;> rfl
  | _ => simp only [promote, erase]

mutual

theorem erase_promoted (e : Expr) : e.promoted.erase = e.erase.promoted := by
  cases e with
  | binary op lhs rhs span =>
    simp only [promoted, erase, erase_promote, erase_promoted lhs, erase_promoted rhs]
  | call callee args type span => simp only [promoted, erase, erase_promotedArgs args]
  | cond condition whenTrue whenFalse span =>
    simp only [promoted, erase, erase_promoted condition, erase_promoted whenTrue,
      erase_promoted whenFalse]
  | _ => rfl

theorem erase_promotedArgs (args : List Expr) :
    eraseArgs (promotedArgs args) = promotedArgs (eraseArgs args) := by
  cases args with
  | nil => rfl
  | cons arg args =>
    simp only [promotedArgs, eraseArgs, erase_promoted arg, erase_promotedArgs args]

end

theorem promotedArgs_eq_map (args : List Expr) : promotedArgs args = args.map promoted := by
  induction args with
  | nil => rfl
  | cons arg args ih => rw [promotedArgs, List.map_cons, ih]

theorem WellScoped.promoted_eq {look : String → Option Ty} {e : Expr} (h : e.WellScoped look) :
    e.promoted = e := by
  induction h with
  | binary _ _ hint ihl ihr => rw [promoted, ihl, ihr, promote_eq hint]
  | call _ _ ih => rw [promoted, promotedArgs_eq_map, List.map_congr_left ih, List.map_id']
  | cond _ _ _ ihc iht ihf => rw [promoted, ihc, iht, ihf]
  | _ => rfl

end Expr

namespace Names

variable {names : Names}

theorem exists_singleton {w : List Token} {kind : Kind} (hw : w.map Token.kind = [kind]) :
    ∃ t, w = [t] ∧ t.kind = kind := by
  obtain ⟨t, _, rfl, ht, hnil⟩ := List.map_eq_cons_iff.mp hw
  obtain rfl := List.map_eq_nil_iff.mp hnil
  exact ⟨t, rfl, ht⟩

theorem exists_concat {w : List Token} {kinds : List Kind} {kind : Kind}
    (hw : w.map Token.kind = kinds ++ [kind]) :
    ∃ w' t, w = w' ++ [t] ∧ w'.map Token.kind = kinds ∧ t.kind = kind := by
  obtain ⟨w', u, rfl, hw', hu⟩ := List.map_eq_append_iff.mp hw
  obtain ⟨t, rfl, ht⟩ := exists_singleton hu
  exact ⟨w', t, rfl, hw', ht⟩

def Renders (names : Names) (e : Expr) : Prop :=
  ∀ {w : List Token}, w.map Token.kind = e.kinds →
    ∃ tree, Derives names e.stratum e.isGreedy w tree ∧ tree.erase = e.erase

theorem Renders.enclosed {e : Expr} (h : Renders names e) {needed : Bool} {σ : Stratum}
    (hσ : needed = false → e.looser σ = false) {w : List Token}
    (hw : w.map Token.kind = Expr.enclosed needed e.kinds) :
    ∃ tree, Derives names σ (!needed && e.isGreedy) w tree ∧ tree.erase = e.erase := by
  cases needed with
  | true =>
    obtain ⟨o, w', rfl, ho, hw'⟩ := List.map_eq_cons_iff.mp hw
    obtain ⟨w, u, rfl, hw, hu⟩ := exists_concat hw'
    obtain ⟨tree, htree, herase⟩ := h hw
    have hparen := Derives.paren ho (htree.lower (by cases e.stratum <;> decide)) hu
    exact ⟨tree, hparen.lower (by cases σ <;> decide), herase⟩
  | false =>
    obtain ⟨tree, htree, herase⟩ := h hw
    have hlevel := of_decide_eq_false (hσ rfl)
    exact ⟨tree, htree.lower (Nat.not_lt.mp hlevel), herase⟩

theorem Renders.binary {op : BinaryOp} {lhs rhs : Expr} (hl : Renders names lhs)
    (hr : Renders names rhs) (span : Span) : Renders names (.binary op lhs rhs span) := by
  intro w hw
  obtain ⟨w₁, w', rfl, hw₁, hw'⟩ := List.map_eq_append_iff.mp hw
  obtain ⟨t, w₂, rfl, ht, hw₂⟩ := List.map_eq_cons_iff.mp hw'
  obtain ⟨tree₁, htree₁, herase₁⟩ := hl.enclosed (σ := op.stratum)
    (fun h => (Bool.or_eq_false_iff.mp h).1) hw₁
  obtain ⟨tree₂, htree₂, herase₂⟩ := hr.enclosed (σ := op.stratum.next) id hw₂
  rw [show (!(lhs.looser op.stratum || lhs.isGreedy) && lhs.isGreedy) = false by
    cases lhs.looser op.stratum <;> cases lhs.isGreedy <;> rfl] at htree₁
  refine ⟨_, .binary htree₁ ht htree₂, ?_⟩
  rw [Expr.erase, Expr.erase, herase₁, herase₂]

theorem Renders.cond {condition whenTrue whenFalse : Expr} (h₁ : Renders names condition)
    (h₂ : Renders names whenTrue) (h₃ : Renders names whenFalse) (span : Span) :
    Renders names (.cond condition whenTrue whenFalse span) := by
  intro w hw
  obtain ⟨i, w, rfl, hi, hw⟩ := List.map_eq_cons_iff.mp hw
  obtain ⟨o, w, rfl, ho, hw⟩ := List.map_eq_cons_iff.mp hw
  obtain ⟨w₁, w, rfl, hw₁, hw⟩ := List.map_eq_append_iff.mp hw
  obtain ⟨u, w, rfl, hu, hw⟩ := List.map_eq_cons_iff.mp hw
  obtain ⟨w₂, w, rfl, hw₂, hw⟩ := List.map_eq_append_iff.mp hw
  obtain ⟨l, w₃, rfl, hl, hw₃⟩ := List.map_eq_cons_iff.mp hw
  obtain ⟨tree₁, htree₁, herase₁⟩ := h₁ hw₁
  obtain ⟨tree₂, htree₂, herase₂⟩ := h₂ hw₂
  obtain ⟨tree₃, htree₃, herase₃⟩ := h₃ hw₃
  refine ⟨_, .cond hi ho htree₁.comparison hu htree₂.comparison hl htree₃.comparison, ?_⟩
  rw [Expr.erase, Expr.erase, herase₁, herase₂, herase₃]

theorem exists_derivesMore {arg : Expr} {args : List Expr}
    (h : ∀ other ∈ arg :: args, Renders names other) {w : List Token}
    (hw : w.map Token.kind = arg.kinds ++ Expr.moreArgKinds args) :
    ∃ trees, DerivesMore names w trees ∧ Expr.eraseArgs trees = Expr.eraseArgs (arg :: args) := by
  induction args generalizing arg w with
  | nil =>
    rw [Expr.moreArgKinds, List.append_nil] at hw
    obtain ⟨tree, htree, herase⟩ := h arg List.mem_cons_self hw
    exact ⟨[tree], .last htree.comparison, by rw [Expr.eraseArgs, Expr.eraseArgs, herase]; rfl⟩
  | cons arg' args ih =>
    obtain ⟨w₁, w', rfl, hw₁, hw'⟩ := List.map_eq_append_iff.mp hw
    obtain ⟨t, w₂, rfl, ht, hw₂⟩ := List.map_eq_cons_iff.mp hw'
    obtain ⟨tree, htree, herase⟩ := h arg List.mem_cons_self hw₁
    obtain ⟨trees, htrees, herases⟩ := ih (fun other hother => h other (.tail _ hother)) hw₂
    refine ⟨tree :: trees, .more htree.comparison ht htrees, ?_⟩
    rw [Expr.eraseArgs, Expr.eraseArgs.eq_def (arg :: _), herase, herases]

theorem Renders.call {callee : String} {args : List Expr} {type : Ty}
    (htype : names.type? callee = some type) (h : ∀ arg ∈ args, Renders names arg) (span : Span) :
    Renders names (.call callee args type span) := by
  intro w hw
  obtain ⟨t, w, rfl, ht, hw⟩ := List.map_eq_cons_iff.mp hw
  obtain ⟨o, w', rfl, ho, hw'⟩ := List.map_eq_cons_iff.mp hw
  obtain ⟨w, u, rfl, hw, hu⟩ := exists_concat hw'
  have hargs : ∃ trees, DerivesArgs names w trees ∧
      Expr.eraseArgs trees = Expr.eraseArgs args := by
    cases args with
    | nil =>
      obtain rfl := List.map_eq_nil_iff.mp hw
      exact ⟨[], .none, rfl⟩
    | cons arg args =>
      obtain ⟨trees, htrees, herase⟩ := exists_derivesMore h hw
      exact ⟨trees, .some htrees, herase⟩
  obtain ⟨trees, htrees, herase⟩ := hargs
  refine ⟨_, .call ht htype ho htrees hu, ?_⟩
  rw [Expr.erase, Expr.erase, herase]

theorem renders (names : Names) {e : Expr} (h : e.WellScoped names.type?) : Renders names e := by
  induction h with
  | int hvalue =>
    intro w hw
    obtain ⟨t, rfl, ht⟩ := exists_singleton hw
    exact ⟨_, .int ht (Literal.int?_ofInt hvalue), rfl⟩
  | float hvalue =>
    intro w hw
    obtain ⟨t, rfl, ht⟩ := exists_singleton hw
    exact ⟨_, .float ht (Literal.float?_ofFloat hvalue), rfl⟩
  | var htype =>
    intro w hw
    obtain ⟨t, rfl, ht⟩ := exists_singleton hw
    exact ⟨_, .var ht htype, rfl⟩
  | binary _ _ _ ihl ihr => exact Renders.binary ihl ihr _
  | call htype _ ih => exact Renders.call htype ih _
  | cond _ _ _ ihc iht ihf => exact Renders.cond ihc iht ihf _

end Names

namespace Reader

variable {t : SymbolTable} {scope : String} {c d : Cursor} {w : List Token} {e : Expr}

/-- What is written for an expression is read as that expression, up to a token that closes it. -/
theorem exists_expr (h : e.WellScoped (t.lookup? scope)) (hw : c.Yields w d)
    (hkinds : w.map Token.kind = e.kinds) (hop : d.kind.operator? = none)
    (hname : d.kind ≠ .openParen) :
    ∃ e', expr scope ⟨t, c⟩ = .ok e' ⟨t, d⟩ ∧ e'.erase = e.erase := by
  obtain ⟨tree, htree, herase⟩ := Names.renders ⟨t, scope⟩ h hkinds
  have hread := expr_of_offers ⟨⟨_, htree.comparison⟩, hw, hop, fun _ => hname⟩
  refine ⟨tree.promoted, hread, ?_⟩
  rw [Expr.erase_promoted, herase, ← Expr.erase_promoted, h.promoted_eq]

end Reader

end FormCompiler
