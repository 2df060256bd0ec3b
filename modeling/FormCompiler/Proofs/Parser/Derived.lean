import FormCompiler.Proofs.Parser.Discipline
import FormCompiler.Proofs.Parser.Grammar

namespace FormCompiler

namespace Cursor

variable {c d : Cursor} {w w' : List Token}

theorem Yields.size_le (h : c.Yields w d) : d.size + w.length ≤ c.size := by
  induction h with
  | nil => exact Nat.le_refl _
  | cons hc _ ih =>
    have := size_advance_lt hc
    simp only [List.length_cons]
    omega

theorem Yields.leads (h : c.Yields w d) : c.Leads d := by
  induction h with
  | nil => exact .refl
  | cons _ _ ih => exact ih.after

theorem Yields.tokens_eq (h : c.Yields w d) (h' : c.Yields w' d) : w' = w := by
  induction h generalizing w' with
  | nil =>
    have := h'.size_le
    exact List.length_eq_zero_iff.mp (by omega)
  | @cons c d w hc h ih =>
    cases h' with
    | nil =>
      have := h.size_le
      have := size_advance_lt hc
      omega
    | cons _ h' => rw [ih h']

end Cursor

namespace Names

variable {names : Names}

theorem Derives.ne_nil {σ : Stratum} {greedy : Bool} {w : List Token} {e : Expr} :
    Derives names σ greedy w e → w ≠ []
  | .int .. | .float .. | .var .. | .call .. | .paren .. | .cond .. => List.cons_ne_nil _ _
  | .binary .. => by simp
  | .lift h => h.ne_nil

theorem Derives.lower {σ τ : Stratum} {greedy : Bool} {w : List Token} {e : Expr}
    (h : Derives names τ greedy w e) (hle : σ.level ≤ τ.level) : Derives names σ greedy w e := by
  cases σ <;> cases τ <;> first
    | exact h
    | exact .lift h
    | exact .lift (.lift h)
    | exact .lift (.lift (.lift h))
    | exact absurd hle (by decide)

theorem Derives.comparison {σ : Stratum} {greedy : Bool} {w : List Token} {e : Expr}
    (h : Derives names σ greedy w e) : Derives names .comparison greedy w e :=
  h.lower (by cases σ <;> decide)

structure Written (names : Names) (σ : Stratum) (greedy : Bool) (c : Cursor) (w : List Token)
    (e : Expr) (d : Cursor) : Prop where
  derives : Derives names σ greedy w e
  yields : c.Yields w d
  follows : Follows greedy σ.level w d.kind

theorem Written.binary {σ τ : Stratum} {greedy₀ greedy : Bool} {c₀ c d : Cursor}
    {w w' : List Token} {lhs rhs : Expr} {op : BinaryOp} (hlhs : Written names σ greedy₀ c₀ w lhs c)
    (hop : c.kind.operator? = some op) (hrhs : Written names τ greedy c.advance w' rhs d)
    (htight : op.precedence < τ.level)
    (hstop : ∀ op', d.kind.operator? = some op' → op'.precedence ≤ op.precedence) :
    Written names op.stratum greedy c₀ (w ++ c.current :: w')
      (.binary op lhs rhs (lhs.span.through rhs.span)) d := by
  have hk : c.kind = .op op.symbol := Kind.operator?_eq_some hop
  obtain ⟨rfl, hlevel⟩ := hlhs.follows.operator op hop
  refine ⟨.binary ?_ hk ?_, ?_, ?_, ?_⟩
  · exact hlhs.derives.lower (op.level_stratum ▸ hlevel)
  · exact hrhs.derives.lower (BinaryOp.next_level_le htight)
  · exact Cursor.yields_append.mpr ⟨c, hlhs.yields, .cons (by simp [hk]) hrhs.yields⟩
  · intro op' hop'
    rw [op.level_stratum]
    exact ⟨(hrhs.follows.operator op' hop').1, hstop op' hop'⟩
  · refine fun hname => hrhs.follows.name (hname.suffix ?_ hrhs.derives.ne_nil)
    exact (List.suffix_cons _ _).trans (List.suffix_append _ _)

/-- An expression that stands from `c` up to `d`, before a token that is no operator; an opening
parenthesis after a name belongs to the expression. -/
def Offers (names : Names) (c : Cursor) (w : List Token) (e : Expr) (d : Cursor) : Prop :=
  (∃ greedy, Derives names .comparison greedy w e) ∧ c.Yields w d ∧ d.kind.operator? = none ∧
    (EndsInName w → d.kind ≠ .openParen)

end Names

theorem not_endsInName_concat {w : List Token} {t : Token} (ht : t.kind = .closeParen) :
    ¬ EndsInName (w ++ [t]) := by
  intro h
  obtain ⟨u, hu, name, hname⟩ := h.suffix (List.suffix_append _ _) (List.cons_ne_nil _ _)
  cases Option.mem_some.mp hu
  cases ht.symm.trans hname

namespace Reader

open Names

section Sound

variable {names : Names} {c : Cursor}

def OperandFrom (names : Names) (c : Cursor) (e : Expr) (t : Place) : Prop :=
  t.symbols = names.symbols ∧ ∃ greedy w tree,
    Written names .primary greedy c w tree t.cursor ∧ tree.promoted = e

def ClimbFrom (names : Names) (least : Nat) (c : Cursor) (e : Expr) (t : Place) : Prop :=
  t.symbols = names.symbols ∧ ∃ σ greedy w tree, Written names σ greedy c w tree t.cursor ∧
    tree.promoted = e ∧ least ≤ σ.level ∧
    ∀ op, t.cursor.kind.operator? = some op → op.precedence < least

def ExprFrom (names : Names) (c : Cursor) (e : Expr) (t : Place) : Prop :=
  t.symbols = names.symbols ∧ ∃ w tree, Offers names c w tree t.cursor ∧ tree.promoted = e

def ArgumentsFrom (names : Names) (c : Cursor) (r : List Expr × Span) (t : Place) : Prop :=
  t.symbols = names.symbols ∧ ∃ w args d, DerivesArgs names w args ∧
    Expr.promotedArgs args = r.1 ∧ c.Yields w d ∧ d.kind = .closeParen ∧ d.span = r.2 ∧
    t.cursor = d.advance

def MoreFrom (names : Names) (c : Cursor) (r : List Expr × Span) (t : Place) : Prop :=
  t.symbols = names.symbols ∧ ∃ w args d, DerivesMore names w args ∧
    Expr.promotedArgs args = r.1 ∧ c.Yields w d ∧ d.kind = .closeParen ∧ d.span = r.2 ∧
    t.cursor = d.advance

structure ExprSound (names : Names) (c : Cursor) : Prop where
  climb : ∀ least ≤ Stratum.primary.level,
    Ends (ClimbFrom names least c) (climb names.scope least) ⟨names.symbols, c⟩
  operators : ∀ {least σ greedy c₀ w lhs}, Written names σ greedy c₀ w lhs c → least ≤ σ.level →
    Ends (ClimbFrom names least c₀) (operators names.scope least lhs.promoted) ⟨names.symbols, c⟩
  expr : Ends (ExprFrom names c) (expr names.scope) ⟨names.symbols, c⟩
  arguments : Ends (ArgumentsFrom names c) (arguments names.scope) ⟨names.symbols, c⟩
  moreArguments : Ends (MoreFrom names c) (moreArguments names.scope) ⟨names.symbols, c⟩

def SoundBelow (names : Names) (n : Nat) : Prop := ∀ c : Cursor, c.size < n → ExprSound names c

theorem primary_operator {kind : Kind} (op : BinaryOp) (_ : kind.operator? = some op) :
    false = false ∧ op.precedence ≤ Stratum.primary.level :=
  ⟨rfl, Nat.le_of_lt op.precedence_lt_primary⟩

theorem OperandFrom.token {e : Expr} (hc : c.kind ≠ .eof)
    (h : Derives names .primary false [c.current] e) (he : e.promoted = e)
    (hname : (∃ name, c.kind = .name name) → c.advance.kind ≠ .openParen) :
    OperandFrom names c e ⟨names.symbols, c.advance⟩ := by
  refine ⟨rfl, false, _, e, ⟨h, .cons hc .nil, primary_operator, ?_⟩, he⟩
  rintro ⟨t, ht, hends⟩
  cases Option.mem_some.mp ht
  exact hname hends

theorem OperandFrom.closed {tree e : Expr} {w : List Token} {d : Cursor} (hw : c.Yields w d)
    (hd : d.kind = .closeParen) (h : Derives names .primary false (w ++ [d.current]) tree)
    (he : tree.promoted = e) : OperandFrom names c e ⟨names.symbols, d.advance⟩ := by
  have hne : d.kind ≠ .eof := by simp [hd]
  refine ⟨rfl, false, _, tree, ⟨h, ?_, primary_operator, ?_⟩, he⟩
  · exact Cursor.yields_append.mpr ⟨d, hw, .cons hne .nil⟩
  · exact fun hname => absurd hname (not_endsInName_concat hd)

theorem SoundBelow.after (h : SoundBelow names c.size) (hne : c.kind ≠ .eof) {d : Cursor}
    (hd : c.advance.Leads d) : ExprSound names d :=
  h _ (Nat.lt_of_le_of_lt hd.size_le (Cursor.size_advance_lt hne))

theorem reference_sound (h : SoundBelow names c.size) {name : String} (hk : c.kind = .name name) :
    Ends (OperandFrom names c) (reference names.scope name c.span) ⟨names.symbols, c⟩ := by
  have hne : c.kind ≠ .eof := by simp [hk]
  apply Ends.type?
  simp only
  cases htype : names.symbols.lookup? names.scope name with
  | none => exact .refuse _
  | some type =>
    refine .advance (.token ?_)
    simp only
    split
    next ho =>
      have ho : c.advance.kind = .openParen := ho
      have hne' : c.advance.kind ≠ .eof := by simp [ho]
      refine .advance (.bind ?_)
      rintro ⟨args, close⟩ ⟨symbols, e⟩ hread
      obtain ⟨rfl, w, trees, d, hargs, rfl, hw, hd, rfl, rfl⟩ :=
        (h.after hne (.advance .refl)).arguments _ _ hread
      refine .pure (OperandFrom.closed (.cons hne (.cons hne' hw)) hd
        (.call hk htype ho hargs hd) ?_)
      rw [Expr.promoted]
      rfl
    next ho => exact .pure (.token hne (.var hk htype) rfl fun _ => ho)

theorem conditional_sound (h : SoundBelow names c.size) (hk : c.kind = .ifWord) :
    Ends (OperandFrom names c) (conditional names.scope c.span) ⟨names.symbols, c⟩ := by
  have hne : c.kind ≠ .eof := by simp [hk]
  refine .advance (.pass fun ho => .bind ?_)
  rintro condition ⟨symbols, c₁⟩ hread₁
  obtain ⟨rfl, w₁, tree₁, ⟨⟨greedy₁, htree₁⟩, hw₁, _⟩, rfl⟩ :=
    (h.after hne (.advance .refl)).expr _ _ hread₁
  refine .pass fun hclose => .bind ?_
  have hlead₁ := (Cursor.Leads.after hw₁.leads).advance
  rintro whenTrue ⟨symbols, c₂⟩ hread₂
  obtain ⟨rfl, w₂, tree₂, ⟨⟨greedy₂, htree₂⟩, hw₂, _⟩, rfl⟩ := (h.after hne hlead₁).expr _ _ hread₂
  refine .pass fun helse => .bind ?_
  have hlead₂ := (hlead₁.trans hw₂.leads).advance
  rintro whenFalse ⟨symbols, c₃⟩ hread₃
  obtain ⟨rfl, w₃, tree₃, ⟨⟨greedy₃, htree₃⟩, hw₃, hstop, hname⟩, rfl⟩ :=
    (h.after hne hlead₂).expr _ _ hread₃
  refine .pure ⟨rfl, true, _, _, ⟨.cond hk ho htree₁ hclose htree₂ helse htree₃, ?_, ?_⟩, ?_⟩
  · refine .cons hne (.cons (by simp [ho]) (Cursor.yields_append.mpr ⟨_, hw₁, ?_⟩))
    exact .cons (by simp [hclose])
      (Cursor.yields_append.mpr ⟨_, hw₂, .cons (by simp [helse]) hw₃⟩)
  · refine ⟨fun op hop => (by cases hstop.symm.trans hop), fun hends => hname ?_⟩
    refine hends.suffix ⟨c.current :: c.advance.current :: (w₁ ++ c₁.current ::
      (w₂ ++ [c₂.current])), by simp⟩ htree₃.ne_nil
  · rw [Expr.promoted, Expr.span_promoted]
    rfl

theorem operand_sound (h : SoundBelow names c.size) :
    Ends (OperandFrom names c) (operand names.scope) ⟨names.symbols, c⟩ := by
  rw [operand_eq]
  apply Ends.token
  cases hk : c.current.kind with
  | int text =>
    have hk : c.kind = .int text := hk
    simp only
    cases hv : Literal.int? text with
    | none => exact .refuse _
    | some value =>
      exact .advance (.pure (.token (by simp [hk]) (.int hk hv) rfl (by simp [hk])))
  | float text =>
    have hk : c.kind = .float text := hk
    simp only
    cases hv : Literal.float? text with
    | none => exact .refuse _
    | some value =>
      exact .advance (.pure (.token (by simp [hk]) (.float hk hv) rfl (by simp [hk])))
  | name name => exact reference_sound h hk
  | openParen =>
    have hk : c.kind = .openParen := hk
    have hne : c.kind ≠ .eof := by simp [hk]
    refine .advance (.bind ?_)
    rintro inner ⟨symbols, d⟩ hread
    obtain ⟨rfl, w, tree, ⟨⟨greedy, htree⟩, hw, _⟩, rfl⟩ := (h.after hne .refl).expr _ _ hread
    exact .pass fun hd => .pure (OperandFrom.closed (.cons hne hw) hd (.paren hk htree hd) rfl)
  | ifWord => exact conditional_sound h hk
  | _ => exact .refuse _

theorem operators_sound (h : SoundBelow names c.size) {least : Nat} {σ : Stratum} {greedy : Bool}
    {c₀ : Cursor} {w : List Token} {lhs : Expr} (hlhs : Written names σ greedy c₀ w lhs c)
    (hleast : least ≤ σ.level) :
    Ends (ClimbFrom names least c₀) (operators names.scope least lhs.promoted)
      ⟨names.symbols, c⟩ := by
  rw [operators_eq]
  apply Ends.token
  cases hop : c.current.kind.operator? with
  | none =>
    refine .pure ⟨rfl, σ, greedy, w, lhs, hlhs, rfl, hleast, fun op hop' => ?_⟩
    cases hop.symm.trans hop'
  | some op =>
    have hk : c.kind = .op op.symbol := Kind.operator?_eq_some hop
    have hne : c.kind ≠ .eof := by simp [hk]
    simp only
    split
    next hless =>
      refine .pure ⟨rfl, σ, greedy, w, lhs, hlhs, rfl, hleast, fun op' hop' => ?_⟩
      cases hop.symm.trans hop'
      exact hless
    next hbinds =>
      refine .advance ?_
      rw [← bind_assoc]
      refine .bind ?_
      rintro rhs ⟨symbols, d⟩ hread
      obtain ⟨rfl, τ, greedy', w', tree, hrhs, rfl, htight, hstop⟩ :=
        (h.after hne .refl).climb _ op.precedence_lt_primary _ _ hread
      have hwhole := hlhs.binary hop hrhs htight fun op' hop' => Nat.le_of_lt_succ (hstop op' hop')
      rw [Expr.join_promoted]
      exact (h.after hne hrhs.yields.leads).operators hwhole
        (op.level_stratum ▸ Nat.not_lt.mp hbinds)

theorem climb_sound (h : SoundBelow names c.size) {least : Nat}
    (hleast : least ≤ Stratum.primary.level) :
    Ends (ClimbFrom names least c) (climb names.scope least) ⟨names.symbols, c⟩ := by
  unfold climb
  refine .bind ?_
  rintro lhs ⟨symbols, d⟩ hread
  obtain ⟨rfl, greedy, w, tree, hlhs, rfl⟩ := operand_sound h _ _ hread
  have hsize : d.size + w.length ≤ c.size := hlhs.yields.size_le
  have hlength := List.length_pos_iff.mpr hlhs.derives.ne_nil
  exact (h d (by omega)).operators hlhs hleast

theorem expr_sound_of (h : SoundBelow names c.size) :
    Ends (ExprFrom names c) (expr names.scope) ⟨names.symbols, c⟩ := by
  rw [expr_eq_climb]
  rintro e ⟨symbols, d⟩ hread
  obtain ⟨rfl, σ, greedy, w, tree, htree, rfl, _, hstop⟩ := climb_sound h (Nat.zero_le _) _ _ hread
  refine ⟨rfl, w, tree, ⟨⟨greedy, htree.derives.comparison⟩, htree.yields, ?_,
    htree.follows.name⟩, rfl⟩
  cases hop : d.kind.operator? with
  | none => rfl
  | some op => exact absurd (hstop op hop) (Nat.not_lt_zero _)

theorem moreArguments_sound (h : SoundBelow names c.size) :
    Ends (MoreFrom names c) (moreArguments names.scope) ⟨names.symbols, c⟩ := by
  rw [moreArguments_eq]
  refine .bind ?_
  rintro arg ⟨symbols, d⟩ hread
  obtain ⟨rfl, w, tree, ⟨⟨greedy, htree⟩, hw, _⟩, rfl⟩ := expr_sound_of h _ _ hread
  apply Ends.token
  simp only
  split
  next hclose =>
    exact .advance (.pure ⟨rfl, w, [tree], d, .last htree, rfl, hw, hclose, rfl, rfl⟩)
  next =>
    refine .pass fun hcomma => .bind ?_
    have hcomma : d.kind = .comma := hcomma
    have hne : d.kind ≠ .eof := by simp [hcomma]
    have hless := Nat.lt_of_lt_of_le (Cursor.size_advance_lt hne) hw.leads.size_le
    rintro ⟨args, close⟩ ⟨symbols, e⟩ hread'
    obtain ⟨rfl, w', trees, f, htrees, rfl, hw', hf, rfl, rfl⟩ :=
      (h _ hless).moreArguments _ _ hread'
    refine .pure ⟨rfl, _, tree :: trees, f, .more htree hcomma htrees, rfl, ?_, hf, rfl, rfl⟩
    exact Cursor.yields_append.mpr ⟨d, hw, .cons hne hw'⟩

theorem arguments_sound (h : SoundBelow names c.size) :
    Ends (ArgumentsFrom names c) (arguments names.scope) ⟨names.symbols, c⟩ := by
  rw [arguments_eq]
  apply Ends.token
  simp only
  split
  next hclose => exact .advance (.pure ⟨rfl, [], [], c, .none, rfl, .nil, hclose, rfl, rfl⟩)
  next =>
    rintro r t hread
    obtain ⟨hsymbols, w, trees, d, htrees, hrest⟩ := moreArguments_sound h r t hread
    exact ⟨hsymbols, w, trees, d, .some htrees, hrest⟩

theorem soundBelow (names : Names) (n : Nat) : SoundBelow names n := by
  induction n with
  | zero => exact fun c hc => absurd hc (Nat.not_lt_zero _)
  | succ n ih =>
    intro c hc
    have h : SoundBelow names c.size := fun d hd => ih d (by omega)
    exact ⟨fun _ => climb_sound h, operators_sound h, expr_sound_of h, arguments_sound h,
      moreArguments_sound h⟩

theorem expr_sound (names : Names) (c : Cursor) :
    Ends (ExprFrom names c) (expr names.scope) ⟨names.symbols, c⟩ :=
  expr_sound_of (soundBelow names _)

end Sound

theorem expr_of_offers {names : Names} {c d : Cursor} {w : List Token} {tree : Expr}
    (h : Offers names c w tree d) :
    expr names.scope ⟨names.symbols, c⟩ = .ok tree.promoted ⟨names.symbols, d⟩ := by
  obtain ⟨⟨greedy, htree⟩, hw, hstop, hname⟩ := h
  exact Climbs.expr (climbs_of_derives htree) hw hstop hname

end Reader

end FormCompiler
