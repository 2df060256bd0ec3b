import FormCompiler.Proofs.Parser.Next

/-!
The grammar of expressions. Comparisons stand above sums, sums above terms, and terms above
primaries; the operators of one stratum group to the left. What is written by this grammar is read
as it is written.
-/

namespace FormCompiler

inductive Stratum
  | comparison
  | sum
  | term
  | primary

namespace Stratum

def next : Stratum → Stratum
  | comparison => sum
  | sum => term
  | term | primary => primary

def level : Stratum → Nat
  | comparison => 10
  | sum => 20
  | term => 40
  | primary => 50

theorem level_le_next (σ : Stratum) : σ.level ≤ σ.next.level := by cases σ <;> decide

end Stratum

namespace BinaryOp

def stratum : BinaryOp → Stratum
  | lt => .comparison
  | add | sub => .sum
  | mul | div => .term

theorem level_stratum (op : BinaryOp) : op.stratum.level = op.precedence := by cases op <;> rfl

theorem precedence_lt_next (op : BinaryOp) : op.precedence < op.stratum.next.level := by
  cases op <;> decide

theorem precedence_lt_primary (op : BinaryOp) : op.precedence < Stratum.primary.level := by
  cases op <;> decide

theorem next_level_le {op : BinaryOp} {σ : Stratum} (h : op.precedence < σ.level) :
    op.stratum.next.level ≤ σ.level := by
  cases op <;> cases σ <;> first | decide | exact absurd h (by decide)

theorem operator?_symbol (op : BinaryOp) : (Kind.op op.symbol).operator? = some op :=
  ofChar?_symbol op

end BinaryOp

theorem Kind.operator?_eq_some {kind : Kind} {op : BinaryOp} (h : kind.operator? = some op) :
    kind = .op op.symbol := by
  unfold operator? at h
  split at h
  next c =>
    unfold BinaryOp.ofChar? at h
    split at h <;> cases h <;> rfl
  next => cases h

namespace Names

mutual

/-- An expression of a stratum, and the tokens it is written as. It is greedy if it ends in a
conditional outside of parentheses, whose last branch takes all operators that follow. The numbers
in it are those that are written. -/
inductive Derives (names : Names) : Stratum → Bool → List Token → Expr → Prop
  | int {t : Token} {text : String} {value : Int64} : t.kind = .int text →
      Literal.int? text = some value → Derives names .primary false [t] (.int value t.span)
  | float {t : Token} {text : String} {value : Float} : t.kind = .float text →
      Literal.float? text = some value → Derives names .primary false [t] (.float value t.span)
  | var {t : Token} {name : String} {type : Ty} : t.kind = .name name →
      names.type? name = some type → Derives names .primary false [t] (.var name type t.span)
  | call {t o c : Token} {name : String} {type : Ty} {w : List Token} {args : List Expr} :
      t.kind = .name name → names.type? name = some type → o.kind = .openParen →
      DerivesArgs names w args → c.kind = .closeParen →
      Derives names .primary false (t :: o :: (w ++ [c]))
        (.call name args type (t.span.through c.span))
  | paren {o c : Token} {greedy : Bool} {w : List Token} {e : Expr} : o.kind = .openParen →
      Derives names .comparison greedy w e → c.kind = .closeParen →
      Derives names .primary false (o :: (w ++ [c])) e
  | cond {i o c l : Token} {greedy₁ greedy₂ greedy₃ : Bool} {w₁ w₂ w₃ : List Token}
      {condition whenTrue whenFalse : Expr} : i.kind = .ifWord → o.kind = .openParen →
      Derives names .comparison greedy₁ w₁ condition → c.kind = .closeParen →
      Derives names .comparison greedy₂ w₂ whenTrue → l.kind = .elseWord →
      Derives names .comparison greedy₃ w₃ whenFalse →
      Derives names .primary true (i :: o :: (w₁ ++ c :: (w₂ ++ l :: w₃)))
        (.cond condition whenTrue whenFalse (i.span.through whenFalse.span))
  | binary {op : BinaryOp} {t : Token} {greedy : Bool} {w₁ w₂ : List Token} {lhs rhs : Expr} :
      Derives names op.stratum false w₁ lhs → t.kind = .op op.symbol →
      Derives names op.stratum.next greedy w₂ rhs →
      Derives names op.stratum greedy (w₁ ++ t :: w₂)
        (.binary op lhs rhs (lhs.span.through rhs.span))
  | lift {σ : Stratum} {greedy : Bool} {w : List Token} {e : Expr} :
      Derives names σ.next greedy w e → Derives names σ greedy w e

inductive DerivesArgs (names : Names) : List Token → List Expr → Prop
  | none : DerivesArgs names [] []
  | some {w : List Token} {args : List Expr} : DerivesMore names w args → DerivesArgs names w args

inductive DerivesMore (names : Names) : List Token → List Expr → Prop
  | last {greedy : Bool} {w : List Token} {arg : Expr} :
      Derives names .comparison greedy w arg → DerivesMore names w [arg]
  | more {t : Token} {greedy : Bool} {w₁ w₂ : List Token} {arg : Expr} {args : List Expr} :
      Derives names .comparison greedy w₁ arg → t.kind = .comma → DerivesMore names w₂ args →
      DerivesMore names (w₁ ++ t :: w₂) (arg :: args)

end

end Names

mutual

/-- The expression as it is read: a whole number before an operator and a `double` becomes a
`double`, from the inside out. -/
def Expr.promoted : Expr → Expr
  | .binary op lhs rhs span => .binary op (lhs.promoted.promote rhs.promoted) rhs.promoted span
  | .call callee args type span => .call callee (Expr.promotedArgs args) type span
  | .cond condition whenTrue whenFalse span =>
    .cond condition.promoted whenTrue.promoted whenFalse.promoted span
  | e => e

def Expr.promotedArgs : List Expr → List Expr
  | [] => []
  | arg :: args => arg.promoted :: Expr.promotedArgs args

end

namespace Expr

theorem span_promoted (e : Expr) : e.promoted.span = e.span := by
  cases e <;> simp [promoted, span]

theorem join_promoted (op : BinaryOp) (lhs rhs : Expr) : join op lhs.promoted rhs.promoted =
    (Expr.binary op lhs rhs (lhs.span.through rhs.span)).promoted := by
  rw [join, span_promoted, span_promoted, promoted]

end Expr

namespace Cursor

/-- The tokens from `c` up to `d` are `w`; the text has not ended before `d`. -/
inductive Yields : Cursor → List Token → Cursor → Prop
  | nil {c : Cursor} : Yields c [] c
  | cons {c d : Cursor} {w : List Token} : c.kind ≠ .eof → Yields c.advance w d →
      Yields c (c.current :: w) d

variable {c d e : Cursor} {t : Token} {w w₁ w₂ : List Token}

theorem yields_nil : c.Yields [] d ↔ c = d := by
  constructor
  · rintro ⟨⟩
    rfl
  · rintro rfl
    exact .nil

theorem yields_cons :
    c.Yields (t :: w) d ↔ c.current = t ∧ c.kind ≠ .eof ∧ c.advance.Yields w d := by
  constructor
  · intro h
    cases h with
    | cons hc h => exact ⟨rfl, hc, h⟩
  · rintro ⟨rfl, hc, h⟩
    exact .cons hc h

theorem yields_append : c.Yields (w₁ ++ w₂) e ↔ ∃ d, c.Yields w₁ d ∧ d.Yields w₂ e := by
  induction w₁ generalizing c with
  | nil => simp [yields_nil]
  | cons t w ih =>
    simp only [List.cons_append, yields_cons, ih]
    constructor
    · rintro ⟨ht, hc, d, h, h'⟩
      exact ⟨d, ⟨ht, hc, h⟩, h'⟩
    · rintro ⟨d, ⟨ht, hc, h⟩, h'⟩
      exact ⟨ht, hc, d, h, h'⟩

end Cursor

def EndsInName (w : List Token) : Prop := ∃ t ∈ w.getLast?, ∃ name, t.kind = .name name

structure Follows (greedy : Bool) (level : Nat) (w : List Token) (kind : Kind) : Prop where
  operator : ∀ op, kind.operator? = some op → greedy = false ∧ op.precedence ≤ level
  name : EndsInName w → kind ≠ .openParen

namespace Reader

variable {symbols : SymbolTable} {scope : String} {c d : Cursor} {least : Nat}

def climb (scope : String) (least : Nat) : Reader Expr := do
  let lhs ← operand scope
  operators scope least lhs

theorem expr_eq_climb (scope : String) : expr scope = climb scope 0 := expr_eq scope

theorem climb_of_operand {e : Expr} (h : operand scope ⟨symbols, c⟩ = .ok e ⟨symbols, d⟩) :
    climb scope least ⟨symbols, c⟩ = operators scope least e ⟨symbols, d⟩ := ok_bind h

theorem operators_stop {e : Expr}
    (h : ∀ op, c.kind.operator? = some op → op.precedence < least) :
    operators scope least e ⟨symbols, c⟩ = .ok e ⟨symbols, c⟩ := by
  rw [operators_eq, token_bind]
  cases hop : c.current.kind.operator? with
  | none => rfl
  | some op =>
    simp only [if_pos (h op hop)]
    rfl

theorem operators_step {op : BinaryOp} {lhs : Expr} (hk : c.kind = .op op.symbol)
    (hop : least ≤ op.precedence) : operators scope least lhs ⟨symbols, c⟩ = (do
      let rhs ← climb scope (op.precedence + 1)
      operators scope least (Expr.join op lhs rhs)) ⟨symbols, c.advance⟩ := by
  rw [operators_eq, token_bind]
  simp only [show c.current.kind = _ from hk, op.operator?_symbol, if_neg (Nat.not_lt.mpr hop),
    advance_bind, climb, bind_assoc]

theorem operand_int {text : String} {value : Int64} (hk : c.kind = .int text)
    (hv : Literal.int? text = some value) :
    operand scope ⟨symbols, c⟩ = .ok (.int value c.span) ⟨symbols, c.advance⟩ := by
  rw [operand_eq, token_bind]
  simp only [show c.current.kind = _ from hk, hv]
  rfl

theorem operand_float {text : String} {value : Float} (hk : c.kind = .float text)
    (hv : Literal.float? text = some value) :
    operand scope ⟨symbols, c⟩ = .ok (.float value c.span) ⟨symbols, c.advance⟩ := by
  rw [operand_eq, token_bind]
  simp only [show c.current.kind = _ from hk, hv]
  rfl

theorem operand_var {name : String} {type : Ty} (hk : c.kind = .name name)
    (ht : symbols.lookup? scope name = some type) (hd : c.advance.kind ≠ .openParen) :
    operand scope ⟨symbols, c⟩ = .ok (.var name type c.span) ⟨symbols, c.advance⟩ := by
  rw [operand_of_name hk, reference]
  simp only [type?_bind, ht, advance_bind, token_bind]
  rw [if_neg (show ¬ c.advance.current.kind = _ from hd)]
  rfl

theorem operand_call {name : String} {type : Ty} {args : List Expr} {close : Span}
    (hk : c.kind = .name name) (ht : symbols.lookup? scope name = some type)
    (ho : c.advance.kind = .openParen)
    (ha : arguments scope ⟨symbols, c.advance.advance⟩ = .ok (args, close) ⟨symbols, d⟩) :
    operand scope ⟨symbols, c⟩ =
      .ok (.call name args type (c.span.through close)) ⟨symbols, d⟩ := by
  rw [operand_of_name hk, reference]
  simp only [type?_bind, ht, advance_bind, token_bind]
  rw [if_pos (show c.advance.current.kind = _ from ho), advance_bind, ok_bind ha]
  rfl

theorem operand_paren {inner : Expr} (hk : c.kind = .openParen)
    (he : expr scope ⟨symbols, c.advance⟩ = .ok inner ⟨symbols, d⟩) (hd : d.kind = .closeParen) :
    operand scope ⟨symbols, c⟩ = .ok inner ⟨symbols, d.advance⟩ := by
  rw [operand_of_paren hk, ok_bind he, ok_bind (pass_of_kind hd)]
  rfl

theorem operand_cond {condition whenTrue whenFalse : Expr} {c₁ c₂ c₃ : Cursor}
    (hk : c.kind = .ifWord) (ho : c.advance.kind = .openParen)
    (he₁ : expr scope ⟨symbols, c.advance.advance⟩ = .ok condition ⟨symbols, c₁⟩)
    (hc₁ : c₁.kind = .closeParen)
    (he₂ : expr scope ⟨symbols, c₁.advance⟩ = .ok whenTrue ⟨symbols, c₂⟩)
    (hc₂ : c₂.kind = .elseWord)
    (he₃ : expr scope ⟨symbols, c₂.advance⟩ = .ok whenFalse ⟨symbols, c₃⟩) :
    operand scope ⟨symbols, c⟩ =
      .ok (.cond condition whenTrue whenFalse (c.span.through whenFalse.span)) ⟨symbols, c₃⟩ := by
  rw [operand_of_if hk, conditional, advance_bind, ok_bind (pass_of_kind ho), ok_bind he₁,
    ok_bind (pass_of_kind hc₁), ok_bind he₂, ok_bind (pass_of_kind hc₂), ok_bind he₃]
  rfl

end Reader

namespace EndsInName

variable {w w' : List Token}

theorem of_suffix (h : EndsInName w') (hw : w' <:+ w) : EndsInName w := by
  obtain ⟨t, ht, hname⟩ := h
  obtain ⟨u, rfl⟩ := hw
  refine ⟨t, ?_, hname⟩
  rw [List.getLast?_append, Option.mem_def.mp ht]
  rfl

theorem suffix (h : EndsInName w) (hw : w' <:+ w) (hne : w' ≠ []) : EndsInName w' := by
  obtain ⟨t, ht, hname⟩ := h
  obtain ⟨u, rfl⟩ := hw
  rw [List.getLast?_append, List.getLast?_eq_some_getLast hne] at ht
  exact ⟨t, by rwa [List.getLast?_eq_some_getLast hne], hname⟩

end EndsInName

theorem Follows.suffix {greedy : Bool} {level level' : Nat} {w w' : List Token} {kind : Kind}
    (h : Follows greedy level w kind) (hle : level ≤ level') (hw : w' <:+ w) :
    Follows greedy level' w' kind :=
  ⟨fun op hop => ⟨(h.operator op hop).1, Nat.le_trans (h.operator op hop).2 hle⟩,
    fun hname => h.name (hname.of_suffix hw)⟩

namespace Reader

open Names

variable {symbols : SymbolTable} {scope : String}

def Climbs (symbols : SymbolTable) (scope : String) (σ : Stratum) (greedy : Bool) (w : List Token)
    (e : Expr) : Prop :=
  ∀ {c d : Cursor} {least : Nat}, c.Yields w d → least ≤ σ.level →
    Follows greedy σ.level w d.kind →
    climb scope least ⟨symbols, c⟩ = operators scope least e.promoted ⟨symbols, d⟩

theorem Climbs.expr {greedy : Bool} {w : List Token} {e : Expr} {c d : Cursor}
    (h : Climbs symbols scope .comparison greedy w e) (hw : c.Yields w d)
    (hop : d.kind.operator? = none) (hname : EndsInName w → d.kind ≠ .openParen) :
    expr scope ⟨symbols, c⟩ = .ok e.promoted ⟨symbols, d⟩ := by
  rw [expr_eq_climb, h hw (Nat.zero_le _) ⟨fun op h => (by cases hop.symm.trans h), hname⟩]
  exact operators_stop fun op h => (by cases hop.symm.trans h)

theorem climbs_int {t : Token} {text : String} {value : Int64} (ht : t.kind = .int text)
    (hv : Literal.int? text = some value) :
    Climbs symbols scope .primary false [t] (.int value t.span) := by
  intro c d least hw _ _
  obtain ⟨rfl, _, hnil⟩ := Cursor.yields_cons.mp hw
  obtain rfl := Cursor.yields_nil.mp hnil
  exact climb_of_operand (operand_int ht hv)

theorem climbs_float {t : Token} {text : String} {value : Float} (ht : t.kind = .float text)
    (hv : Literal.float? text = some value) :
    Climbs symbols scope .primary false [t] (.float value t.span) := by
  intro c d least hw _ _
  obtain ⟨rfl, _, hnil⟩ := Cursor.yields_cons.mp hw
  obtain rfl := Cursor.yields_nil.mp hnil
  exact climb_of_operand (operand_float ht hv)

theorem climbs_var {t : Token} {name : String} {type : Ty} (ht : t.kind = .name name)
    (htype : symbols.lookup? scope name = some type) :
    Climbs symbols scope .primary false [t] (.var name type t.span) := by
  intro c d least hw _ hfollows
  obtain ⟨rfl, _, hnil⟩ := Cursor.yields_cons.mp hw
  obtain rfl := Cursor.yields_nil.mp hnil
  exact climb_of_operand (operand_var ht htype (hfollows.name ⟨_, rfl, name, ht⟩))

theorem climbs_paren {o t : Token} {greedy : Bool} {w : List Token} {e : Expr}
    (ho : o.kind = .openParen) (he : Climbs symbols scope .comparison greedy w e)
    (ht : t.kind = .closeParen) :
    Climbs symbols scope .primary false (o :: (w ++ [t])) e := by
  intro c d least hw _ _
  obtain ⟨rfl, _, hw⟩ := Cursor.yields_cons.mp hw
  obtain ⟨c', hinner, ht'⟩ := Cursor.yields_append.mp hw
  obtain ⟨rfl, _, hnil⟩ := Cursor.yields_cons.mp ht'
  obtain rfl := Cursor.yields_nil.mp hnil
  have hclose : c'.kind = .closeParen := ht
  have hread := he.expr hinner (by rw [hclose]; rfl) (by simp [hclose])
  exact climb_of_operand (operand_paren ho hread hclose)

theorem climbs_cond {i o t l : Token} {greedy₁ greedy₂ greedy₃ : Bool} {w₁ w₂ w₃ : List Token}
    {condition whenTrue whenFalse : Expr} (hi : i.kind = .ifWord) (ho : o.kind = .openParen)
    (h₁ : Climbs symbols scope .comparison greedy₁ w₁ condition) (ht : t.kind = .closeParen)
    (h₂ : Climbs symbols scope .comparison greedy₂ w₂ whenTrue) (hl : l.kind = .elseWord)
    (h₃ : Climbs symbols scope .comparison greedy₃ w₃ whenFalse) :
    Climbs symbols scope .primary true (i :: o :: (w₁ ++ t :: (w₂ ++ l :: w₃)))
      (.cond condition whenTrue whenFalse (i.span.through whenFalse.span)) := by
  intro c d least hw _ hfollows
  obtain ⟨rfl, _, hw⟩ := Cursor.yields_cons.mp hw
  obtain ⟨rfl, _, hw⟩ := Cursor.yields_cons.mp hw
  obtain ⟨c₁, hw₁, hw⟩ := Cursor.yields_append.mp hw
  obtain ⟨rfl, _, hw⟩ := Cursor.yields_cons.mp hw
  obtain ⟨c₂, hw₂, hw⟩ := Cursor.yields_append.mp hw
  obtain ⟨rfl, _, hw₃⟩ := Cursor.yields_cons.mp hw
  have hclose : c₁.kind = .closeParen := ht
  have helse : c₂.kind = .elseWord := hl
  have hread₁ := h₁.expr hw₁ (by rw [hclose]; rfl) (by simp [hclose])
  have hread₂ := h₂.expr hw₂ (by rw [helse]; rfl) (by simp [helse])
  have hstop : d.kind.operator? = none := by
    cases hop : d.kind.operator? with
    | none => rfl
    | some op => cases (hfollows.operator op hop).1
  have hsuffix : w₃ <:+ c.current :: c.advance.current :: (w₁ ++ c₁.current ::
      (w₂ ++ c₂.current :: w₃)) :=
    ⟨c.current :: c.advance.current :: (w₁ ++ c₁.current :: (w₂ ++ [c₂.current])), by simp⟩
  have hread₃ := h₃.expr hw₃ hstop fun hname => hfollows.name (hname.of_suffix hsuffix)
  rw [climb_of_operand (operand_cond hi ho hread₁ hclose hread₂ helse hread₃), Expr.promoted,
    Expr.span_promoted]
  rfl

theorem climbs_binary {op : BinaryOp} {t : Token} {greedy : Bool} {w₁ w₂ : List Token}
    {lhs rhs : Expr} (hl : Climbs symbols scope op.stratum false w₁ lhs)
    (ht : t.kind = .op op.symbol) (hr : Climbs symbols scope op.stratum.next greedy w₂ rhs) :
    Climbs symbols scope op.stratum greedy (w₁ ++ t :: w₂)
      (.binary op lhs rhs (lhs.span.through rhs.span)) := by
  intro c d least hw hleast hfollows
  obtain ⟨c', hw₁, hw'⟩ := Cursor.yields_append.mp hw
  obtain ⟨rfl, _, hw₂⟩ := Cursor.yields_cons.mp hw'
  have ht : c'.kind = .op op.symbol := ht
  have hfollows₁ : Follows false op.stratum.level w₁ c'.kind := by
    rw [ht]
    refine ⟨fun op' h => ?_, fun _ => nofun⟩
    obtain rfl := Option.some.inj (op.operator?_symbol.symm.trans h)
    exact ⟨rfl, Nat.le_of_eq op.level_stratum.symm⟩
  have hfollows₂ : Follows greedy op.stratum.next.level w₂ d.kind :=
    hfollows.suffix op.stratum.level_le_next ⟨w₁ ++ [c'.current], by simp⟩
  have hstop : ∀ op', d.kind.operator? = some op' → op'.precedence < op.precedence + 1 :=
    fun op' h => Nat.lt_succ_of_le (op.level_stratum ▸ (hfollows.operator op' h).2)
  have hrhs : climb scope (op.precedence + 1) ⟨symbols, c'.advance⟩ =
      .ok rhs.promoted ⟨symbols, d⟩ :=
    (hr hw₂ op.precedence_lt_next hfollows₂).trans (operators_stop hstop)
  rw [hl hw₁ hleast hfollows₁, operators_step ht (op.level_stratum ▸ hleast), ok_bind hrhs,
    Expr.join_promoted]

def ReadsArgs (symbols : SymbolTable) (scope : String) (w : List Token) (args : List Expr) :
    Prop :=
  ∀ {c d : Cursor}, c.Yields w d → d.kind = .closeParen →
    moreArguments scope ⟨symbols, c⟩ =
      .ok (Expr.promotedArgs args, d.span) ⟨symbols, d.advance⟩

theorem readsArgs_last {greedy : Bool} {w : List Token} {arg : Expr}
    (h : Climbs symbols scope .comparison greedy w arg) : ReadsArgs symbols scope w [arg] := by
  intro c d hw hd
  have hread := h.expr hw (by rw [hd]; rfl) (by simp [hd])
  rw [moreArguments_eq, ok_bind hread, token_bind]
  rw [if_pos (show d.current.kind = _ from hd)]
  rfl

theorem readsArgs_more {t : Token} {greedy : Bool} {w₁ w₂ : List Token} {arg : Expr}
    {args : List Expr} (h : Climbs symbols scope .comparison greedy w₁ arg)
    (ht : t.kind = .comma) (hrest : ReadsArgs symbols scope w₂ args) :
    ReadsArgs symbols scope (w₁ ++ t :: w₂) (arg :: args) := by
  intro c d hw hd
  obtain ⟨c', hw₁, hw'⟩ := Cursor.yields_append.mp hw
  obtain ⟨rfl, _, hw₂⟩ := Cursor.yields_cons.mp hw'
  have hcomma : c'.kind = .comma := ht
  have hread := h.expr hw₁ (by rw [hcomma]; rfl) (by simp [hcomma])
  rw [moreArguments_eq, ok_bind hread, token_bind]
  rw [if_neg (by rw [ht]; nofun), ok_bind (pass_of_kind hcomma), ok_bind (hrest hw₂ hd)]
  rfl

theorem arguments_none {c : Cursor} (hk : c.kind = .closeParen) :
    arguments scope ⟨symbols, c⟩ = .ok ([], c.span) ⟨symbols, c.advance⟩ := by
  rw [arguments_eq, token_bind, if_pos (show c.current.kind = _ from hk)]
  rfl

theorem ReadsArgs.arguments {w : List Token} {args : List Expr} {c d : Cursor}
    (h : ReadsArgs symbols scope w args) (hw : c.Yields w d) (hd : d.kind = .closeParen) :
    arguments scope ⟨symbols, c⟩ = .ok (Expr.promotedArgs args, d.span) ⟨symbols, d.advance⟩ := by
  have hread := h hw hd
  have hne : ¬ c.current.kind = .closeParen := by
    intro hk
    rw [moreArguments_eq, expr_eq, operand_eq, bind_assoc, bind_assoc, token_bind] at hread
    simp only [hk] at hread
    cases hread
  rw [arguments_eq, token_bind, if_neg hne, hread]

theorem climbs_call {t o u : Token} {name : String} {type : Ty} {w : List Token}
    {args : List Expr} (ht : t.kind = .name name) (htype : symbols.lookup? scope name = some type)
    (ho : o.kind = .openParen) (hargs : ∀ {c d : Cursor}, c.Yields w d → d.kind = .closeParen →
      arguments scope ⟨symbols, c⟩ = .ok (Expr.promotedArgs args, d.span) ⟨symbols, d.advance⟩)
    (hu : u.kind = .closeParen) : Climbs symbols scope .primary false (t :: o :: (w ++ [u]))
      (.call name args type (t.span.through u.span)) := by
  intro c d least hw _ _
  obtain ⟨rfl, _, hw⟩ := Cursor.yields_cons.mp hw
  obtain ⟨rfl, _, hw⟩ := Cursor.yields_cons.mp hw
  obtain ⟨c', hinner, hu'⟩ := Cursor.yields_append.mp hw
  obtain ⟨rfl, _, hnil⟩ := Cursor.yields_cons.mp hu'
  obtain rfl := Cursor.yields_nil.mp hnil
  rw [Expr.promoted]
  exact climb_of_operand (operand_call ht htype ho (hargs hinner hu))

mutual

/-- What is written is read up to what follows it, and then the operators that follow are. -/
theorem climbs_of_derives {σ : Stratum} {greedy : Bool} {w : List Token} {e : Expr} :
    Derives ⟨symbols, scope⟩ σ greedy w e → Climbs symbols scope σ greedy w e
  | .int hk hv => climbs_int hk hv
  | .float hk hv => climbs_float hk hv
  | .var hk htype => climbs_var hk htype
  | .call hk htype ho hargs hu => climbs_call hk htype ho (arguments_of_derives hargs) hu
  | .paren ho he hu => climbs_paren ho (climbs_of_derives he) hu
  | .cond hi ho h₁ ht h₂ hl h₃ => climbs_cond hi ho (climbs_of_derives h₁) ht
    (climbs_of_derives h₂) hl (climbs_of_derives h₃)
  | .binary hl ht hr => climbs_binary (climbs_of_derives hl) ht (climbs_of_derives hr)
  | .lift h => fun hw hleast hfollows => climbs_of_derives h hw
    (Nat.le_trans hleast σ.level_le_next) (hfollows.suffix σ.level_le_next (List.suffix_refl _))

theorem arguments_of_derives {w : List Token} {args : List Expr} :
    DerivesArgs ⟨symbols, scope⟩ w args → ∀ {c d : Cursor}, c.Yields w d → d.kind = .closeParen →
      arguments scope ⟨symbols, c⟩ = .ok (Expr.promotedArgs args, d.span) ⟨symbols, d.advance⟩
  | .none => fun hw hd => Cursor.yields_nil.mp hw ▸ arguments_none (Cursor.yields_nil.mp hw ▸ hd)
  | .some h => ReadsArgs.arguments (readsArgs_of_derives h)

theorem readsArgs_of_derives {w : List Token} {args : List Expr} :
    DerivesMore ⟨symbols, scope⟩ w args → ReadsArgs symbols scope w args
  | .last h => readsArgs_last (climbs_of_derives h)
  | .more h ht hrest => readsArgs_more (climbs_of_derives h) ht (readsArgs_of_derives hrest)

end

end Reader

end FormCompiler
