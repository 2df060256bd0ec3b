import FormCompiler.Proofs.Parser.Derived

namespace FormCompiler

mutual

def Expr.literals : Expr → List Expr
  | .int value span => [.int value span]
  | .float value span => [.float value span]
  | .binary _ lhs rhs _ => lhs.literals ++ rhs.literals
  | .call _ args _ _ => Expr.literalsArgs args
  | .cond condition whenTrue whenFalse _ =>
    condition.literals ++ (whenTrue.literals ++ whenFalse.literals)
  | .var .. | .endOfInput => []

def Expr.literalsArgs : List Expr → List Expr
  | [] => []
  | arg :: args => arg.literals ++ Expr.literalsArgs args

end

namespace Expr

theorem length_literals_promote (lhs rhs : Expr) :
    (lhs.promote rhs).literals.length = lhs.literals.length := by
  unfold promote
  split
  · split <;> rfl
  · rfl

mutual

theorem length_literals_promoted (e : Expr) : e.promoted.literals.length = e.literals.length := by
  cases e with
  | binary op lhs rhs span =>
    rw [promoted, literals, literals, List.length_append, List.length_append,
      length_literals_promote, length_literals_promoted lhs, length_literals_promoted rhs]
  | call callee args type span =>
    rw [promoted, literals, literals, length_literals_promotedArgs args]
  | cond condition whenTrue whenFalse span =>
    rw [promoted, literals, literals]
    simp only [List.length_append, length_literals_promoted condition,
      length_literals_promoted whenTrue, length_literals_promoted whenFalse]
  | _ => rfl

theorem length_literals_promotedArgs (args : List Expr) :
    (literalsArgs (promotedArgs args)).length = (literalsArgs args).length := by
  cases args with
  | nil => rfl
  | cons arg args =>
    rw [promotedArgs, literalsArgs, literalsArgs, List.length_append, List.length_append,
      length_literals_promoted arg, length_literals_promotedArgs args]

end

def isNumber : Expr → Bool
  | .int .. | .float .. => true
  | _ => false

theorem isNumber_promote (lhs rhs : Expr) : (lhs.promote rhs).isNumber = lhs.isNumber := by
  unfold promote
  split
  · split <;> rfl
  · rfl

theorem isNumber_promoted (e : Expr) : e.promoted.isNumber = e.isNumber := by
  cases e <;> simp only [promoted, isNumber]

theorem literals_of_isNumber {e : Expr} (h : e.isNumber = true) : e.literals = [e] := by
  cases e <;> first | rfl | cases h

theorem promote_of_not_isNumber {lhs : Expr} (h : lhs.isNumber = false) (rhs : Expr) :
    lhs.promote rhs = lhs := by
  cases lhs <;> first | rfl | cases h

theorem promoted_eq_of_promote {lhs lhs' rhs : Expr}
    (h : lhs.promoted.promote rhs = lhs'.promoted.promote rhs)
    (hl : lhs.literals = lhs'.literals) : lhs.promoted = lhs'.promoted := by
  have hsame := congrArg isNumber h
  simp only [isNumber_promote, isNumber_promoted] at hsame
  cases hn : lhs.isNumber with
  | true =>
    rw [literals_of_isNumber hn, literals_of_isNumber (hsame ▸ hn)] at hl
    rw [List.singleton_inj.mp hl]
  | false =>
    rwa [promote_of_not_isNumber (by rw [isNumber_promoted, hn]),
      promote_of_not_isNumber (by rw [isNumber_promoted, ← hsame, hn])] at h

theorem literals_append_inj {e e' : Expr} {ls ls' : List Expr} (h : e.promoted = e'.promoted)
    (hl : e.literals ++ ls = e'.literals ++ ls') : e.literals = e'.literals ∧ ls = ls' := by
  apply List.append_inj hl
  rw [← length_literals_promoted e, h, length_literals_promoted e']

mutual

theorem eq_of_promoted {e e' : Expr} (h : e.promoted = e'.promoted)
    (hl : e.literals = e'.literals) : e = e' := by
  cases e with
  | binary op lhs rhs span =>
    cases e' with
    | binary op' lhs' rhs' span' =>
      simp only [promoted] at h
      injection h with hop hlhs hrhs hspan
      rw [← hrhs] at hlhs
      have hlength := congrArg (List.length ∘ literals) hlhs
      simp only [Function.comp, length_literals_promote, length_literals_promoted] at hlength
      obtain ⟨hl, hr⟩ := List.append_inj hl hlength
      rw [eq_of_promoted (promoted_eq_of_promote hlhs hl) hl, eq_of_promoted hrhs hr, hop, hspan]
    | _ => simp only [promoted] at h; cases h
  | call callee args type span =>
    cases e' with
    | call callee' args' type' span' =>
      simp only [promoted] at h
      injection h with hcallee hargs htype hspan
      rw [eq_of_promotedArgs hargs hl, hcallee, htype, hspan]
    | _ => simp only [promoted] at h; cases h
  | cond condition whenTrue whenFalse span =>
    cases e' with
    | cond condition' whenTrue' whenFalse' span' =>
      simp only [promoted] at h
      injection h with hc ht hf hspan
      obtain ⟨hlc, hl⟩ := literals_append_inj hc hl
      obtain ⟨hlt, hlf⟩ := literals_append_inj ht hl
      rw [eq_of_promoted hc hlc, eq_of_promoted ht hlt, eq_of_promoted hf hlf, hspan]
    | _ => simp only [promoted] at h; cases h
  | _ =>
    cases e' <;> simp only [promoted] at h <;> cases h
    rfl

theorem eq_of_promotedArgs {args args' : List Expr} (h : promotedArgs args = promotedArgs args')
    (hl : literalsArgs args = literalsArgs args') : args = args' := by
  cases args with
  | nil =>
    cases args' with
    | nil => rfl
    | cons arg' args' => cases h
  | cons arg args =>
    cases args' with
    | nil => cases h
    | cons arg' args' =>
      injection h with harg hargs
      obtain ⟨hla, hl⟩ := literals_append_inj harg hl
      rw [eq_of_promoted harg hla, eq_of_promotedArgs hargs hl]

end

end Expr

def Token.number? (t : Token) : Option Expr :=
  match t.kind with
  | .int text => (Literal.int? text).map (Expr.int · t.span)
  | .float text => (Literal.float? text).map (Expr.float · t.span)
  | _ => none

namespace Names

variable {names : Names}

mutual

theorem Derives.literals {σ : Stratum} {greedy : Bool} {w : List Token} {e : Expr} :
    Derives names σ greedy w e → e.literals = w.filterMap Token.number?
  | .int hk hv => by simp [Expr.literals, Token.number?, hk, hv]
  | .float hk hv => by simp [Expr.literals, Token.number?, hk, hv]
  | .var hk _ => by simp [Expr.literals, Token.number?, hk]
  | .call ht _ ho hargs hu => by
    simp [Expr.literals, hargs.literals, Token.number?, ht, ho, hu]
  | .paren ho he hu => by simp [he.literals, Token.number?, ho, hu]
  | .cond hi ho h₁ hu h₂ hl h₃ => by
    simp [Expr.literals, h₁.literals, h₂.literals, h₃.literals, Token.number?, hi, ho, hu, hl]
  | .binary hl ht hr => by
    simp [Expr.literals, hl.literals, hr.literals, Token.number?, ht]
  | .lift h => h.literals

theorem DerivesArgs.literals {w : List Token} {args : List Expr} :
    DerivesArgs names w args → Expr.literalsArgs args = w.filterMap Token.number?
  | .none => rfl
  | .some h => h.literals

theorem DerivesMore.literals {w : List Token} {args : List Expr} :
    DerivesMore names w args → Expr.literalsArgs args = w.filterMap Token.number?
  | .last h => by simp [Expr.literalsArgs, h.literals]
  | .more h ht hrest => by
    simp [Expr.literalsArgs, h.literals, hrest.literals, Token.number?, ht]

end

theorem Offers.unique {c d d' : Cursor} {w w' : List Token} {e e' : Expr}
    (h : names.Offers c w e d) (h' : names.Offers c w' e' d') : w' = w ∧ e' = e ∧ d' = d := by
  have hread := (Reader.expr_of_offers h).symm.trans (Reader.expr_of_offers h')
  injection hread with hpromoted hplace
  obtain rfl : d = d' := congrArg Place.cursor hplace
  obtain ⟨⟨greedy, htree⟩, hw, _⟩ := h
  obtain ⟨⟨greedy', htree'⟩, hw', _⟩ := h'
  obtain rfl := hw.tokens_eq hw'
  exact ⟨rfl, Expr.eq_of_promoted hpromoted.symm (htree'.literals.trans htree.literals.symm), rfl⟩

mutual

theorem Derives.kind_ne_eof {σ : Stratum} {greedy : Bool} {w : List Token} {e : Expr} :
    Derives names σ greedy w e → ∀ t ∈ w, t.kind ≠ .eof
  | .int hk _ | .float hk _ | .var hk _ => by simp [hk]
  | .call ht _ ho hargs hu => by simpa [ht, ho, hu, or_imp, forall_and] using hargs.kind_ne_eof
  | .paren ho he hu => by simpa [ho, hu, or_imp, forall_and] using he.kind_ne_eof
  | .cond hi ho h₁ hu h₂ hl h₃ => by
    simpa [hi, ho, hu, hl, or_imp, forall_and] using
      ⟨h₁.kind_ne_eof, h₂.kind_ne_eof, h₃.kind_ne_eof⟩
  | .binary hl ht hr => by
    simpa [ht, or_imp, forall_and] using ⟨hl.kind_ne_eof, hr.kind_ne_eof⟩
  | .lift h => h.kind_ne_eof

theorem DerivesArgs.kind_ne_eof {w : List Token} {args : List Expr} :
    DerivesArgs names w args → ∀ t ∈ w, t.kind ≠ .eof
  | .none => nofun
  | .some h => h.kind_ne_eof

theorem DerivesMore.kind_ne_eof {w : List Token} {args : List Expr} :
    DerivesMore names w args → ∀ t ∈ w, t.kind ≠ .eof
  | .last h => h.kind_ne_eof
  | .more h ht hrest => by
    simpa [ht, or_imp, forall_and] using ⟨h.kind_ne_eof, hrest.kind_ne_eof⟩

end

end Names

namespace Cursor

theorem exists_yields {w : List Token} (hw : ∀ t ∈ w, t.kind ≠ .eof) :
    ∃ c d : Cursor, c.Yields w d ∧ d.kind = .eof := by
  have hyields : ∀ (w : List Token) (first : Token), (∀ t ∈ w, t.kind ≠ .eof) → ∃ d : Cursor,
      (Cursor.mk first { pending := w, ending := .nowhere }).advance.Yields w d ∧
        d.kind = .eof := by
    intro w
    induction w with
    | nil => exact fun first _ => ⟨_, .nil, rfl⟩
    | cons t w ih =>
      intro first hw
      obtain ⟨d, hd, heof⟩ := ih t fun u hu => hw u (List.mem_cons_of_mem _ hu)
      exact ⟨d, .cons (hw t List.mem_cons_self) hd, heof⟩
  obtain ⟨d, hd, heof⟩ := hyields w ⟨.semicolon, .nowhere⟩ hw
  exact ⟨_, d, hd, heof⟩

end Cursor

namespace Names

variable {names : Names}

theorem Derives.unique {greedy greedy' : Bool} {w : List Token} {e e' : Expr}
    (h : Derives names .comparison greedy w e) (h' : Derives names .comparison greedy' w e') :
    e' = e := by
  -- Both trees are offered where nothing but the tokens stands.
  obtain ⟨c, d, hw, hd⟩ := Cursor.exists_yields h.kind_ne_eof
  have hoffers : ∀ {greedy e}, Derives names .comparison greedy w e → names.Offers c w e d :=
    fun h => ⟨⟨_, h⟩, hw, by rw [hd]; rfl, fun _ => by simp [hd]⟩
  exact ((hoffers h).unique (hoffers h')).2.1

end Names

namespace Parser

def names (p : Parser) (scope : String) : Names := ⟨p.symbols, scope⟩

theorem expression_eq (p : Parser) (scope : String) :
    ((p.expression scope).result, (p.expression scope).parser) =
      match Reader.expr scope ⟨p.symbols, p.cursor⟩ with
      | .ok e t => (some e, { p with cursor := t.cursor })
      | .error e t => (none, { p with cursor := t.cursor, errors := p.errors ++ [e] }) := by
  unfold expression Reader.expr
  cases Expr.parse ⟨p.symbols, scope⟩ p.cursor with
  | error r => rfl
  | ok read => rfl

theorem expression_of_offers {p : Parser} {scope : String} {w : List Token} {tree : Expr}
    {d : Cursor} (h : (p.names scope).Offers p.cursor w tree d) :
    (p.expression scope).result = some tree.promoted ∧
      (p.expression scope).parser = { p with cursor := d } := by
  have hread := Reader.expr_of_offers h
  have heq := p.expression_eq scope
  rw [show Reader.expr scope ⟨p.symbols, p.cursor⟩ = _ from hread] at heq
  exact Prod.mk.inj heq

theorem exists_offers {p : Parser} {scope : String} {e : Expr}
    (h : (p.expression scope).result = some e) : ∃ w tree,
      (p.names scope).Offers p.cursor w tree (p.expression scope).parser.cursor ∧
        tree.promoted = e := by
  have heq := p.expression_eq scope
  have hsound := Reader.expr_sound (p.names scope) p.cursor
  cases hread : Reader.expr scope ⟨p.symbols, p.cursor⟩ with
  | error e' t =>
    rw [hread] at heq
    cases h.symm.trans (Prod.mk.inj heq).1
  | ok e' t =>
    rw [hread] at heq
    obtain ⟨hresult, hparser⟩ := Prod.mk.inj heq
    cases h.symm.trans hresult
    rw [hparser]
    exact (hsound e t hread).2

/-- Expressions are read as the grammar says. One is read, and with it the tokens `w`, just when
the tokens are written by the grammar and no operator follows; what is read is the tree that the
grammar gives them, its numbers promoted. If there are no such tokens then nothing is read. There
is one choice of them at most, and the grammar gives no tokens two trees. -/
theorem expression_grammar (p : Parser) (scope : String) :
    (∀ w e d, ((p.expression scope).result = some e ∧
        (p.expression scope).parser = { p with cursor := d } ∧ p.cursor.Yields w d) ↔
      ∃ tree, (p.names scope).Offers p.cursor w tree d ∧ tree.promoted = e) ∧
    ((p.expression scope).result = none ↔
      ∀ w tree d, ¬ (p.names scope).Offers p.cursor w tree d) ∧
    (∀ w w' tree tree' d d', (p.names scope).Offers p.cursor w tree d →
      (p.names scope).Offers p.cursor w' tree' d' → w' = w ∧ tree' = tree ∧ d' = d) ∧
    ∀ greedy greedy' w tree tree', (p.names scope).Derives .comparison greedy w tree →
      (p.names scope).Derives .comparison greedy' w tree' → tree' = tree := by
  refine ⟨fun w e d => ⟨?_, ?_⟩, ⟨?_, ?_⟩, ?_, ?_⟩
  · rintro ⟨hresult, hparser, hw⟩
    obtain ⟨w', tree, hoffers, htree⟩ := exists_offers hresult
    rw [hparser] at hoffers
    obtain rfl := hoffers.2.1.tokens_eq hw
    exact ⟨tree, hoffers, htree⟩
  · rintro ⟨tree, hoffers, rfl⟩
    obtain ⟨hresult, hparser⟩ := expression_of_offers hoffers
    exact ⟨hresult, hparser, hoffers.2.1⟩
  · intro hnone w tree d hoffers
    cases hnone.symm.trans (expression_of_offers hoffers).1
  · intro hnone
    cases hresult : (p.expression scope).result with
    | none => rfl
    | some e =>
      obtain ⟨w, tree, hoffers, _⟩ := exists_offers hresult
      exact absurd hoffers (hnone w tree _)
  · exact fun w w' tree tree' d d' h h' => h.unique h'
  · exact fun greedy greedy' w tree tree' h h' => h.unique h'

end Parser

end FormCompiler
