import FormCompiler.Proofs.Parser.Derived
import FormCompiler.Proofs.Token.Lexer

namespace FormCompiler

structure Laid (w : List Token) : Prop where
  ordered : w.Pairwise fun t u => t.span.stop.offset ≤ u.span.start.offset
  filled : ∀ t ∈ w, t.span.start.offset < t.span.stop.offset
  placed : ∀ t ∈ w, t.span.isNowhere = false

namespace Laid

variable {w w₁ w₂ : List Token} {t : Token}

theorem sublist (h : Laid w₂) (hw : w₁.Sublist w₂) : Laid w₁ where
  ordered := h.ordered.sublist hw
  filled t ht := h.filled t (hw.subset ht)
  placed t ht := h.placed t (hw.subset ht)

theorem left (h : Laid (w₁ ++ w₂)) : Laid w₁ := h.sublist (List.sublist_append_left _ _)

theorem right (h : Laid (w₁ ++ w₂)) : Laid w₂ := h.sublist (List.sublist_append_right _ _)

theorem tail (h : Laid (t :: w)) : Laid w := h.sublist (List.sublist_cons_self _ _)

end Laid

theorem laid_tokenize {cs : List Char} {w : List Token} (hw : w.Sublist (tokenize cs))
    (hgoing : ∀ t ∈ w, t.kind ≠ .eof) : Laid w where
  ordered := (lossless_tokenize cs).ordered.sublist hw
  filled t ht := ((lossless_tokenize cs).spelled t (hw.subset ht) (hgoing t ht)).1
  placed t ht := by
    have hstart := ((lossless_tokenize cs).placed t (hw.subset ht)).start
    simp [Span.isNowhere, congrArg Position.line hstart, Position.endOf]

namespace Span

structure Over (w : List Token) (s : Span) : Prop where
  start : ∃ t ∈ w, s.start = t.span.start
  stop : ∃ t ∈ w, s.stop = t.span.stop
  filled : s.start.offset < s.stop.offset

structure Within (s t : Span) : Prop where
  start : t.start.offset ≤ s.start.offset
  stop : s.stop.offset ≤ t.stop.offset

def Before (s t : Span) : Prop := s.stop.offset ≤ t.start.offset

namespace Over

variable {w w₁ w₂ : List Token} {s t : Span}

theorem token {t : Token} (hlaid : Laid w) (ht : t ∈ w) : t.span.Over w :=
  ⟨⟨t, ht, rfl⟩, ⟨t, ht, rfl⟩, hlaid.filled t ht⟩

theorem mono (h : s.Over w₁) (hw : w₁ ⊆ w₂) : s.Over w₂ where
  start := by
    obtain ⟨t, ht, hstart⟩ := h.start
    exact ⟨t, hw ht, hstart⟩
  stop := by
    obtain ⟨t, ht, hstop⟩ := h.stop
    exact ⟨t, hw ht, hstop⟩
  filled := h.filled

theorem before (hlaid : Laid (w₁ ++ w₂)) (hs : s.Over w₁) (ht : t.Over w₂) : s.Before t := by
  obtain ⟨u, hu, hstop⟩ := hs.stop
  obtain ⟨v, hv, hstart⟩ := ht.start
  rw [Before, hstop, hstart]
  exact (List.pairwise_append.mp hlaid.ordered).2.2 u hu v hv

theorem placed (hlaid : Laid w) (h : s.Over w) : s.isNowhere = false := by
  obtain ⟨t, ht, hstart⟩ := h.start
  rw [isNowhere, hstart]
  exact hlaid.placed t ht

theorem through (hlaid : Laid w) (hs : s.Over w) (ht : t.Over w)
    (horder : s.start.offset ≤ t.start.offset) :
    s.through t = ⟨s.start, t.stop⟩ ∧ (s.through t).Over w := by
  have hwhole : s.through t = ⟨s.start, t.stop⟩ := by
    simp [Span.through, hs.placed hlaid, ht.placed hlaid]
  rw [hwhole]
  exact ⟨rfl, hs.start, ht.stop, Nat.lt_of_le_of_lt horder ht.filled⟩

end Over

end Span

namespace Expr

def parts : Expr → List Expr
  | .binary _ lhs rhs _ => [lhs, rhs]
  | .call _ args _ _ => args
  | .cond condition whenTrue whenFalse _ => [condition, whenTrue, whenFalse]
  | _ => []

/-- The span of the expression, and the span of every expression in it, is one over the tokens. It
covers the spans of the parts, and these follow one another. -/
inductive Nested (w : List Token) : Expr → Prop
  | intro {e : Expr} : e.span.Over w → (∀ part ∈ e.parts, part.span.Within e.span) →
      (∀ part ∈ e.parts, Nested w part) → e.parts.Pairwise (fun d e => d.span.Before e.span) →
      Nested w e

structure Row (w : List Token) (es : List Expr) : Prop where
  nested : ∀ e ∈ es, e.Nested w
  ordered : es.Pairwise fun d e => d.span.Before e.span

variable {w w₁ w₂ : List Token} {e : Expr} {es es₁ es₂ : List Expr}

theorem Nested.stands (h : e.Nested w) : e.span.Over w := by
  cases h with
  | intro hstands _ _ _ => exact hstands

theorem Nested.mono (h : e.Nested w₁) (hw : w₁ ⊆ w₂) : e.Nested w₂ := by
  induction h with
  | intro hstands hwithin _ hordered ih => exact .intro (hstands.mono hw) hwithin ih hordered

theorem Nested.leaf (h : e.span.Over w) (hnone : e.parts = []) : e.Nested w :=
  .intro h (by simp [hnone]) (by simp [hnone]) (by simp [hnone])

namespace Row

theorem nil : Row w [] := ⟨by simp, .nil⟩

theorem singleton (h : e.Nested w) : Row w [e] :=
  ⟨List.forall_mem_singleton.mpr h, List.pairwise_singleton _ _⟩

theorem mono (h : Row w₁ es) (hw : w₁ ⊆ w₂) : Row w₂ es :=
  ⟨fun e he => (h.nested e he).mono hw, h.ordered⟩

theorem append (hlaid : Laid (w₁ ++ w₂)) (h₁ : Row w₁ es₁) (h₂ : Row w₂ es₂) :
    Row (w₁ ++ w₂) (es₁ ++ es₂) where
  nested := by
    have hleft := h₁.mono (List.subset_append_left w₁ w₂)
    have hright := h₂.mono (List.subset_append_right w₁ w₂)
    exact List.forall_mem_append.mpr ⟨hleft.nested, hright.nested⟩
  ordered := List.pairwise_append.mpr ⟨h₁.ordered, h₂.ordered, fun d hd e he =>
    (h₁.nested d hd).stands.before hlaid (h₂.nested e he).stands⟩

theorem start_le_first (h : Row w (e :: es)) :
    ∀ d ∈ e :: es, e.span.start.offset ≤ d.span.start.offset := by
  have hfilled := (h.nested e List.mem_cons_self).stands.filled
  have hlater := (List.pairwise_cons.mp h.ordered).1
  refine List.forall_mem_cons.mpr ⟨Nat.le_refl _, fun d hd => ?_⟩
  exact Nat.le_trans (Nat.le_of_lt hfilled) (hlater d hd)

theorem stop_le_last (es : List Expr) (h : Row w (es ++ [e])) :
    ∀ d ∈ es ++ [e], d.span.stop.offset ≤ e.span.stop.offset := by
  have hfilled := (h.nested e (by simp)).stands.filled
  have hearlier := (List.pairwise_append.mp h.ordered).2.2
  refine List.forall_mem_append.mpr ⟨fun d hd => ?_, List.forall_mem_singleton.mpr (Nat.le_refl _)⟩
  exact Nat.le_trans (hearlier d hd e (List.mem_singleton_self _)) (Nat.le_of_lt hfilled)

theorem start_le_token {t : Token} (hlaid : Laid (t :: w)) (h : Row w es) :
    ∀ e ∈ es, t.span.start.offset ≤ e.span.start.offset := by
  intro e he
  have hfirst : Laid ([t] ++ w) := hlaid
  have hstands : t.span.Over [t] := .token hfirst.left (List.mem_singleton_self _)
  exact Nat.le_trans (Nat.le_of_lt hstands.filled) (hstands.before hfirst (h.nested e he).stands)

theorem stop_le_token {t : Token} (hlaid : Laid (w ++ [t])) (h : Row w es) :
    ∀ e ∈ es, e.span.stop.offset ≤ t.span.stop.offset := by
  intro e he
  have hstands : t.span.Over [t] := .token hlaid.right (List.mem_singleton_self _)
  exact Nat.le_trans ((h.nested e he).stands.before hlaid hstands) (Nat.le_of_lt hstands.filled)

end Row

/-- An expression whose span goes from one span to another nests if its parts stand between the
beginning of the one and the end of the other. -/
theorem Nested.through {s t : Span} (hlaid : Laid w) (hs : s.Over w) (ht : t.Over w)
    (horder : s.start.offset ≤ t.start.offset) (hwhole : e.span = s.through t)
    (hrow : Row w e.parts) (hafter : ∀ part ∈ e.parts, s.start.offset ≤ part.span.start.offset)
    (hupTo : ∀ part ∈ e.parts, part.span.stop.offset ≤ t.stop.offset) : e.Nested w := by
  obtain ⟨hends, hstands⟩ := hs.through hlaid ht horder
  rw [← hwhole] at hends hstands
  refine .intro hstands (fun part hpart => ?_) hrow.nested hrow.ordered
  rw [hends]
  exact ⟨hafter part hpart, hupTo part hpart⟩

theorem span_promote (lhs rhs : Expr) : (lhs.promote rhs).span = lhs.span := by
  unfold promote
  split
  · split <;> rfl
  · rfl

theorem parts_promote (lhs rhs : Expr) : (lhs.promote rhs).parts = lhs.parts := by
  unfold promote
  split
  · split <;> rfl
  · rfl

theorem Nested.promote (h : e.Nested w) (rhs : Expr) : (e.promote rhs).Nested w := by
  cases h with
  | intro hstands hwithin hnested hordered =>
    rw [← parts_promote e rhs] at hwithin hnested hordered
    rw [← span_promote e rhs] at hstands hwithin
    exact .intro hstands hwithin hnested hordered

end Expr

namespace Names

open FormCompiler.Expr

variable {names : Names} {w w₁ w₂ w₃ : List Token} {t o c i l : Token}

theorem nested_join {op : BinaryOp} {lhs rhs : Expr} (hlaid : Laid (w₁ ++ t :: w₂))
    (hl : lhs.Nested w₁) (hr : rhs.Nested w₂) : (join op lhs rhs).Nested (w₁ ++ t :: w₂) := by
  have hrow : Row (w₁ ++ t :: w₂) [lhs.promote rhs, rhs] :=
    .append hlaid (.singleton (hl.promote rhs)) (.mono (.singleton hr) (List.subset_cons_self _ _))
  obtain ⟨hl, hr⟩ := List.forall_mem_cons.mp hrow.nested
  rw [join, ← span_promote lhs rhs]
  exact .through hlaid hl.stands (List.forall_mem_singleton.mp hr).stands
    (hrow.start_le_first rhs (by simp)) rfl hrow hrow.start_le_first (hrow.stop_le_last [_])

theorem nested_call {name : String} {args : List Expr} {type : Ty}
    (hlaid : Laid (t :: o :: (w ++ [c]))) (hrow : Row w args) :
    (Expr.call name args type (t.span.through c.span)).Nested (t :: o :: (w ++ [c])) := by
  have horder : t.span.stop.offset ≤ c.span.start.offset :=
    List.rel_of_pairwise_cons hlaid.ordered (by simp)
  have hfilled := hlaid.filled t List.mem_cons_self
  have hinner : Row (o :: (w ++ [c])) args :=
    hrow.mono (List.Subset.trans (List.subset_append_left _ _) (List.subset_cons_self _ _))
  exact .through hlaid (.token hlaid List.mem_cons_self) (.token hlaid (by simp)) (by omega) rfl
    (hinner.mono (List.subset_cons_self _ _)) (hinner.start_le_token hlaid)
    (hrow.stop_le_token hlaid.tail.tail)

theorem nested_cond {condition whenTrue whenFalse : Expr}
    (hlaid : Laid (i :: o :: (w₁ ++ c :: (w₂ ++ l :: w₃)))) (h₁ : condition.Nested w₁)
    (h₂ : whenTrue.Nested w₂) (h₃ : whenFalse.Nested w₃) :
    (Expr.cond condition whenTrue whenFalse (i.span.through whenFalse.span)).Nested
      (i :: o :: (w₁ ++ c :: (w₂ ++ l :: w₃))) := by
  have hlater := hlaid.tail.tail
  have hbranches : Row (w₂ ++ l :: w₃) [whenTrue, whenFalse] :=
    .append hlater.right.tail (.singleton h₂) (.mono (.singleton h₃) (List.subset_cons_self _ _))
  have hparts : Row (w₁ ++ c :: (w₂ ++ l :: w₃)) [condition, whenTrue, whenFalse] :=
    .append hlater (.singleton h₁) (hbranches.mono (List.subset_cons_self _ _))
  have hinner : Row (o :: (w₁ ++ c :: (w₂ ++ l :: w₃))) [condition, whenTrue, whenFalse] :=
    hparts.mono (List.subset_cons_self _ _)
  have hrow := hinner.mono (List.subset_cons_self i _)
  exact .through hlaid (.token hlaid List.mem_cons_self) (hrow.nested whenFalse (by simp)).stands
    (hinner.start_le_token hlaid whenFalse (by simp)) rfl hrow (hinner.start_le_token hlaid)
    (hrow.stop_le_last [_, _])

mutual

theorem nested_of_derives {σ : Stratum} {greedy : Bool} {w : List Token} {e : Expr} :
    Derives names σ greedy w e → Laid w → e.promoted.Nested w
  | .int .., hlaid | .float .., hlaid | .var .., hlaid =>
    .leaf (.token hlaid (List.mem_singleton_self _)) rfl
  | .call _ _ _ hargs _, hlaid => by
    rw [promoted]
    exact nested_call hlaid (row_of_derivesArgs hargs hlaid.tail.tail.left)
  | .paren _ he _, hlaid => (nested_of_derives he hlaid.tail.left).mono
    (List.Subset.trans (List.subset_append_left _ _) (List.subset_cons_self _ _))
  | .cond _ _ h₁ _ h₂ _ h₃, hlaid => by
    have hlater := hlaid.tail.tail
    rw [promoted, ← span_promoted]
    have hbranches := hlater.right.tail
    exact nested_cond hlaid (nested_of_derives h₁ hlater.left) (nested_of_derives h₂ hbranches.left)
      (nested_of_derives h₃ hbranches.right.tail)
  | .binary hl _ hr, hlaid => by
    rw [← join_promoted]
    exact nested_join hlaid (nested_of_derives hl hlaid.left)
      (nested_of_derives hr hlaid.right.tail)
  | .lift h, hlaid => nested_of_derives h hlaid

theorem row_of_derivesArgs {w : List Token} {args : List Expr} :
    DerivesArgs names w args → Laid w → Row w (promotedArgs args)
  | .none, _ => .nil
  | .some h, hlaid => row_of_derivesMore h hlaid

theorem row_of_derivesMore {w : List Token} {args : List Expr} :
    DerivesMore names w args → Laid w → Row w (promotedArgs args)
  | .last h, hlaid => .singleton (nested_of_derives h hlaid)
  | .more h _ hrest, hlaid =>
    .append hlaid (.singleton (nested_of_derives h hlaid.left))
      ((row_of_derivesMore hrest hlaid.right.tail).mono (List.subset_cons_self _ _))

end

end Names

end FormCompiler
