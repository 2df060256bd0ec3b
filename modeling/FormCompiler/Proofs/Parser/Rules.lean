import FormCompiler.Proofs.Parser.Steady
import Mathlib.Data.List.Forall2

namespace FormCompiler

def Kind.Inner (kind : Kind) : Prop := kind ≠ .eof ∧ ∀ word, kind ≠ .typeWord word

structure Expr.Congruent (W : String → Prop) (E : Expr → Expr → Prop) : Prop where
  int {value : Int64} {span span' : Span} : E (.int value span) (.int value span')
  float {value : Float} {span span' : Span} : E (.float value span) (.float value span')
  var {name : String} {type : Ty} {span span' : Span} : W name →
    E (.var name type span) (.var name type span')
  call {callee : String} {args args' : List Expr} {type : Ty} {span span' : Span} : W callee →
    List.Forall₂ E args args' → E (.call callee args type span) (.call callee args' type span')
  cond {condition whenTrue whenFalse condition' whenTrue' whenFalse' : Expr} {span span' : Span} :
    E condition condition' → E whenTrue whenTrue' → E whenFalse whenFalse' →
    E (.cond condition whenTrue whenFalse span) (.cond condition' whenTrue' whenFalse' span')
  join (op : BinaryOp) {lhs rhs lhs' rhs' : Expr} : E lhs lhs' → E rhs rhs' →
    E (Expr.join op lhs rhs) (Expr.join op lhs' rhs')

namespace Reader

variable {α β : Type}

structure Rules
    (M : ∀ {α : Type}, (α → α → Prop) → Reader α → Reader α → Place → Place → Prop)
    (W : String → Prop) (scope : String) : Prop where
  pure {α : Type} {R : α → α → Prop} {a a' : α} {s s' : Place} : R a a' →
    M R (Pure.pure a) (Pure.pure a') s s'
  bind {α β : Type} {R : α → α → Prop} {S : β → β → Prop} {m m' : Reader α} {k k' : α → Reader β}
    {s s' : Place} : M R m m' s s' →
    (∀ a a' t t', s.cursor.Leads t.cursor → R a a' → M S (k a) (k' a') t t') →
    M S (m >>= k) (m' >>= k') s s'
  token {β : Type} {S : β → β → Prop} {k k' : Token → Reader β} {s s' : Place} :
    (∀ t t', t.kind = s.cursor.kind → t'.kind = s.cursor.kind → M S (k t) (k' t') s s') →
    M S (Reader.token >>= k) (Reader.token >>= k') s s'
  type? {β : Type} {S : β → β → Prop} {name : String} {k k' : Option Ty → Reader β}
    {s s' : Place} : s.cursor.kind = .name name →
    (∀ found, W name → M S (k found) (k' found) s s') →
    M S (Reader.type? scope name >>= k) (Reader.type? scope name >>= k') s s'
  advance {β : Type} {S : β → β → Prop} {k k' : Unit → Reader β} {s s' : Place} :
    s.cursor.kind.Inner →
    M S (k ()) (k' ()) ⟨s.symbols, s.cursor.advance⟩ ⟨s'.symbols, s'.cursor.advance⟩ →
    M S (Reader.advance >>= k) (Reader.advance >>= k') s s'
  refuse {α : Type} {R : α → α → Prop} {cause : ParseError.Cause} {s s' : Place} :
    (∀ name, cause ≠ .nestedFunction name) → M R (Reader.refuse cause) (Reader.refuse cause) s s'

structure ExprRelated
    (M : ∀ {α : Type}, (α → α → Prop) → Reader α → Reader α → Place → Place → Prop)
    (E : Expr → Expr → Prop) (scope : String) (s s' : Place) : Prop where
  operand : M E (operand scope) (operand scope) s s'
  operators (least : Nat) {lhs lhs' : Expr} : E lhs lhs' →
    M E (operators scope least lhs) (operators scope least lhs') s s'
  expr : M E (expr scope) (expr scope) s s'
  arguments : M (fun r r' => List.Forall₂ E r.1 r'.1) (arguments scope) (arguments scope) s s'
  moreArguments :
    M (fun r r' => List.Forall₂ E r.1 r'.1) (moreArguments scope) (moreArguments scope) s s'

namespace Rules

variable {M : ∀ {α : Type}, (α → α → Prop) → Reader α → Reader α → Place → Place → Prop}
  {W : String → Prop} {scope : String} {E : Expr → Expr → Prop} {R : α → α → Prop}
  {S : β → β → Prop} {s s' : Place}

theorem missing (hrules : Rules M W scope) (what : Expected) :
    M R (Reader.missing what) (Reader.missing what) s s' := by
  refine hrules.token fun t t' ht ht' => ?_
  rw [ht, ht']
  exact hrules.refuse (by simp)

theorem pass (hrules : Rules M W scope) {kind : Kind} {what : Expected} {k k' : Unit → Reader β}
    (hkind : kind.Inner) (hk : s.cursor.kind = kind →
      M S (k ()) (k' ()) ⟨s.symbols, s.cursor.advance⟩ ⟨s'.symbols, s'.cursor.advance⟩) :
    M S (Reader.pass kind what >>= k) (Reader.pass kind what >>= k') s s' := by
  unfold Reader.pass
  rw [bind_assoc, bind_assoc, insist_bind, insist_bind]
  refine hrules.token fun t t' ht ht' => ?_
  rw [ht, ht']
  split
  next h => exact hrules.advance (h ▸ hkind) (hk h)
  next => exact hrules.missing what

def Below (M : ∀ {α : Type}, (α → α → Prop) → Reader α → Reader α → Place → Place → Prop)
    (E : Expr → Expr → Prop) (scope : String) (n : Nat) : Prop :=
  ∀ s s' : Place, s.cursor.size < n → ExprRelated M E scope s s'

theorem Below.after (h : Below M E scope s.cursor.size) (hk : s.cursor.kind.Inner) {t : Place}
    (ht : s.cursor.advance.Leads t.cursor) (t' : Place) : ExprRelated M E scope t t' :=
  h t t' (Nat.lt_of_le_of_lt ht.size_le (Cursor.size_advance_lt hk.1))

theorem Below.onward (h : Below M E scope s.cursor.size) {t : Place}
    (ht : s.cursor.Leads t.cursor) : Below M E scope t.cursor.size :=
  fun u u' hu => h u u' (Nat.lt_of_lt_of_le hu ht.size_le)

theorem reference (hrules : Rules M W scope) (hE : Expr.Congruent W E)
    (h : Below M E scope s.cursor.size) {name : String} (hk : s.cursor.kind = .name name)
    (start start' : Span) :
    M E (Reader.reference scope name start) (Reader.reference scope name start') s s' := by
  have hinner : s.cursor.kind.Inner := by simp [Kind.Inner, hk]
  refine hrules.type? hk fun found hname => ?_
  cases found with
  | none => exact hrules.refuse (by simp)
  | some type =>
    refine hrules.advance hinner (hrules.token fun t t' ht ht' => ?_)
    simp only [ht, ht']
    split
    next hopen =>
      refine hrules.advance (by simp [Kind.Inner, hopen]) ?_
      refine hrules.bind (h.after hinner (.advance .refl) _).arguments ?_
      rintro ⟨args, close⟩ ⟨args', close'⟩ u u' _ hargs
      exact hrules.pure (hE.call hname hargs)
    next => exact hrules.pure (hE.var hname)

theorem conditional (hrules : Rules M W scope) (hE : Expr.Congruent W E)
    (h : Below M E scope s.cursor.size) (hk : s.cursor.kind = .ifWord) (start start' : Span) :
    M E (Reader.conditional scope start) (Reader.conditional scope start') s s' := by
  have hinner : s.cursor.kind.Inner := by simp [Kind.Inner, hk]
  refine hrules.advance hinner (hrules.pass (by simp [Kind.Inner]) fun _ => ?_)
  refine hrules.bind (h.after hinner (.advance .refl) _).expr ?_
  rintro condition condition' t₁ t₁' h₁ hcondition
  refine hrules.pass (by simp [Kind.Inner]) fun _ => ?_
  have hlead₁ := (Cursor.Leads.after h₁).advance
  refine hrules.bind (h.after hinner hlead₁ _).expr ?_
  rintro whenTrue whenTrue' t₂ t₂' h₂ htrue
  refine hrules.pass (by simp [Kind.Inner]) fun _ => ?_
  have hlead₂ := (hlead₁.trans h₂).advance
  refine hrules.bind (h.after hinner hlead₂ _).expr ?_
  rintro whenFalse whenFalse' t₃ t₃' _ hfalse
  exact hrules.pure (hE.cond hcondition htrue hfalse)

theorem operand (hrules : Rules M W scope) (hE : Expr.Congruent W E)
    (h : Below M E scope s.cursor.size) :
    M E (Reader.operand scope) (Reader.operand scope) s s' := by
  rw [operand_eq]
  refine hrules.token fun t t' ht ht' => ?_
  simp only [ht, ht']
  cases hk : s.cursor.kind with
  | int text =>
    have hinner : s.cursor.kind.Inner := by simp [Kind.Inner, hk]
    simp only
    cases Literal.int? text with
    | none => exact hrules.refuse (by simp)
    | some value => exact hrules.advance hinner (hrules.pure hE.int)
  | float text =>
    have hinner : s.cursor.kind.Inner := by simp [Kind.Inner, hk]
    simp only
    cases Literal.float? text with
    | none => exact hrules.refuse (by simp)
    | some value => exact hrules.advance hinner (hrules.pure hE.float)
  | name name => exact hrules.reference hE h hk _ _
  | openParen =>
    have hinner : s.cursor.kind.Inner := by simp [Kind.Inner, hk]
    refine hrules.advance hinner (hrules.bind (h.after hinner .refl _).expr ?_)
    rintro inner inner' u u' _ he
    exact hrules.pass (by simp [Kind.Inner]) fun _ => hrules.pure he
  | ifWord => exact hrules.conditional hE h hk _ _
  | _ => exact hrules.refuse (by simp)

theorem operators (hrules : Rules M W scope) (hE : Expr.Congruent W E)
    (h : Below M E scope s.cursor.size) (least : Nat) {lhs lhs' : Expr} (hlhs : E lhs lhs') :
    M E (Reader.operators scope least lhs) (Reader.operators scope least lhs') s s' := by
  rw [operators_eq, operators_eq]
  refine hrules.token fun t t' ht ht' => ?_
  simp only [ht, ht']
  cases hop : s.cursor.kind.operator? with
  | none => exact hrules.pure hlhs
  | some op =>
    have hinner : s.cursor.kind.Inner := by
      refine ⟨fun he => ?_, fun word he => ?_⟩
      · rw [he] at hop
        cases hop
      · rw [he] at hop
        cases hop
    simp only
    split
    · exact hrules.pure hlhs
    · refine hrules.advance hinner (hrules.bind (h.after hinner .refl _).operand ?_)
      rintro first first' t₁ t₁' h₁ hfirst
      refine hrules.bind ((h.after hinner h₁ _).operators _ hfirst) ?_
      rintro rhs rhs' t₂ t₂' h₂ hrhs
      exact (h.after hinner (h₁.trans h₂) _).operators _ (hE.join op hlhs hrhs)

theorem expr_of (hrules : Rules M W scope) (hE : Expr.Congruent W E)
    (h : Below M E scope s.cursor.size) : M E (Reader.expr scope) (Reader.expr scope) s s' := by
  rw [expr_eq]
  refine hrules.bind (hrules.operand hE h) fun lhs lhs' t t' ht hlhs => ?_
  exact hrules.operators hE (h.onward ht) 0 hlhs

theorem moreArguments (hrules : Rules M W scope) (hE : Expr.Congruent W E)
    (h : Below M E scope s.cursor.size) : M (fun r r' => List.Forall₂ E r.1 r'.1)
      (Reader.moreArguments scope) (Reader.moreArguments scope) s s' := by
  rw [moreArguments_eq]
  refine hrules.bind (hrules.expr_of hE h) fun arg arg' t t' ht harg => ?_
  refine hrules.token fun u u' hu hu' => ?_
  simp only [hu, hu']
  split
  next hclose =>
    exact hrules.advance (by simp [Kind.Inner, hclose]) (hrules.pure (.cons harg .nil))
  next =>
    refine hrules.pass (by simp [Kind.Inner]) fun hcomma => ?_
    have hinner : t.cursor.kind.Inner := by simp [Kind.Inner, hcomma]
    refine hrules.bind ((h.onward ht).after hinner .refl _).moreArguments ?_
    rintro ⟨args, close⟩ ⟨args', close'⟩ v v' _ hargs
    exact hrules.pure (.cons harg hargs)

theorem arguments (hrules : Rules M W scope) (hE : Expr.Congruent W E)
    (h : Below M E scope s.cursor.size) : M (fun r r' => List.Forall₂ E r.1 r'.1)
      (Reader.arguments scope) (Reader.arguments scope) s s' := by
  rw [arguments_eq]
  refine hrules.token fun t t' ht ht' => ?_
  simp only [ht, ht']
  split
  next hclose => exact hrules.advance (by simp [Kind.Inner, hclose]) (hrules.pure .nil)
  next => exact hrules.moreArguments hE h

theorem below (hrules : Rules M W scope) (hE : Expr.Congruent W E) (n : Nat) :
    Below M E scope n := by
  induction n with
  | zero => exact fun s s' hs => absurd hs (Nat.not_lt_zero _)
  | succ n ih =>
    intro s s' hs
    have h : Below M E scope s.cursor.size := fun t t' ht => ih t t' (by omega)
    exact ⟨hrules.operand hE h, hrules.operators hE h, hrules.expr_of hE h, hrules.arguments hE h,
      hrules.moreArguments hE h⟩

theorem expr (hrules : Rules M W scope) (hE : Expr.Congruent W E) (s s' : Place) :
    M E (Reader.expr scope) (Reader.expr scope) s s' :=
  hrules.expr_of hE (hrules.below hE _)

theorem initializer (hrules : Rules M W scope) (type : Ty) (name : String) (s s' : Place) :
    M Eq (Reader.initializer type name) (Reader.initializer type name) s s' := by
  rw [initializer_eq]
  refine hrules.token fun t t' ht ht' => ?_
  simp only [ht, ht']
  cases hk : s.cursor.kind with
  | int text =>
    simp only
    cases Literal.int? text with
    | none => exact hrules.refuse (by simp)
    | some value =>
      simp only
      split
      · exact hrules.advance (by simp [Kind.Inner, hk]) (hrules.pure rfl)
      · exact hrules.refuse (by simp)
  | float text =>
    simp only
    cases Literal.float? text with
    | none => exact hrules.refuse (by simp)
    | some value =>
      simp only
      split
      · exact hrules.advance (by simp [Kind.Inner, hk]) (hrules.pure rfl)
      · exact hrules.refuse (by simp)
  | _ => exact hrules.missing _

end Rules

end Reader

end FormCompiler
