import FormCompiler.Proofs.Parser.Kept
import FormCompiler.Proofs.Session.Turn

namespace FormCompiler

inductive Piece
  | ending
  | skipped
  | declaration (decl : Declaration)
  | expression (expr : Expr)

namespace Piece

def form? (counter : Nat) : Piece → Option Form
  | .ending => some (.expression .endOfInput)
  | .skipped => none
  | .declaration d => some (.declaration d)
  | .expression e => some (if e.isCall then .expression e else .anonymous (.wrap e counter))

def reading (counter : Nat) : Piece → Reading
  | .ending => .ending
  | .skipped => .nothing
  | .declaration d => .declaration d
  | .expression e => .expression (.wrap e counter)

inductive Spelled (W : String → Prop) : Piece → Prop
  | ending : Spelled W .ending
  | skipped : Spelled W .skipped
  | declaration {d : Declaration} : d.Spelled W → Spelled W (.declaration d)
  | expression {e : Expr} : e.Spelled W → Spelled W (.expression e)

end Piece

namespace Reader

def form : Reader Piece := do
  match (← token).kind with
  | .eof => return .ending
  | .includeWord => do
    skip
    return .skipped
  | .typeWord _ => do
    let d ← global
    return .declaration d
  | _ => do
    let e ← expr ""
    insist .semicolon .afterExpression
    return .expression e

theorem keeps_form {W : String → Prop} (s : Place) : Keeps W (Piece.Spelled W) form s := by
  have hexpression : Keeps W (Piece.Spelled W) (do
      let e ← expr ""
      insist .semicolon .afterExpression
      return .expression e) s := by
    refine Keeps.bind (keeps_expr s) fun e t _ he => ?_
    exact .insist fun _ => .pure (.expression he)
  unfold form
  apply Keeps.token
  cases s.cursor.current.kind with
  | eof => exact .pure .ending
  | includeWord => exact Keeps.bind keeps_skip fun _ _ _ _ => .pure .skipped
  | typeWord word => exact Keeps.bind keeps_global fun d _ _ hd => .pure (.declaration hd)
  | _ => exact hexpression

theorem spelled_trivial (c : Cursor) : c.Spelled fun _ => True := fun _ _ _ _ => trivial

theorem steady_form (s : Place) : Steady (Piece.Spelled fun _ => True) form s :=
  keeps_form s (spelled_trivial _)

theorem steady_skip (s : Place) : Steady (fun _ => True) skip s := keeps_skip (spelled_trivial _)

theorem form_eof {s : Place} (h : s.cursor.kind = .eof) : form s = .ok .ending s := by
  unfold form
  rw [show s = ⟨s.symbols, s.cursor⟩ from rfl, token_bind]
  simp only [show s.cursor.current.kind = _ from h]
  rfl

theorem symbols_expr (scope : String) (s : Place) : (place (expr scope s)).symbols = s.symbols := by
  unfold expr ofExcept
  split <;> rfl

theorem form_symbols {s t : Place} {piece : Piece} (h : form s = .ok piece t) :
    t.symbols = s.symbols ∨ ∃ d, piece = .declaration d := by
  have hexpression : (do
      let e ← expr ""
      insist .semicolon .afterExpression
      return .expression e : Reader Piece) s = .ok piece t → t.symbols = s.symbols := by
    intro h
    have hsymbols := symbols_expr "" s
    simp only [bind, EStateM.bind] at h
    split at h
    next e u he =>
      rw [he] at hsymbols
      rw [show u = ⟨u.symbols, u.cursor⟩ from rfl, insist_eq_ofAttempt] at h
      unfold Cursor.insist at h
      split at h
      next he' =>
        cases h
        split at he'
        · cases he'; exact hsymbols
        · cases he'
      next => cases h
    next => cases h
  unfold form at h
  obtain ⟨symbols, c⟩ := s
  rw [token_bind] at h
  cases hk : c.current.kind with
  | eof => simp only [hk] at h; cases h; exact .inl rfl
  | includeWord => simp only [hk] at h; cases h; exact .inl rfl
  | typeWord word =>
    simp only [hk, bind, EStateM.bind] at h
    split at h
    · cases h; exact .inr ⟨_, rfl⟩
    · cases h
  | _ => simp only [hk] at h; exact .inl (hexpression h)

end Reader

namespace Parser

variable (p : Parser)

def begin : Place := ⟨p.symbols.checkpoint, p.cursor.advance⟩

def wentTo (t : Place) : Parser := { p with cursor := t.cursor, symbols := t.symbols }

def fledFrom (t : Place) : Parser :=
  { p with cursor := t.cursor.skipForm, symbols := t.symbols.rollback }

variable {p}

def readHere (q : Parser) : Reply (Option Form) :=
  match q.cursor.kind with
  | .eof => ⟨some (.expression .endOfInput), q, []⟩
  | .includeWord =>
    let s := q.synchronize
    ⟨none, s.parser,
      .warn s!"{q.cursor.span.text}: include is not supported, ignoring" :: s.notes⟩
  | .typeWord _ =>
    let d := q.declaration ""
    settle ⟨d.result.map .declaration, d.parser, d.notes⟩
  | _ => settle q.topExpression

theorem readHere_eq (q : Parser) :
    ((readHere q).result, (readHere q).parser) = match Reader.form ⟨q.symbols, q.cursor⟩ with
      | .ok piece t => (piece.form? q.counter, q.wentTo t)
      | .error e t => (none, { q.fledFrom t with errors := q.errors ++ [e] }) := by
  obtain ⟨c, symbols, counter, errors⟩ := q
  unfold readHere Reader.form
  rw [Reader.token_bind]
  simp only
  cases hk : c.kind with
  | eof =>
    simp only [show c.current.kind = _ from hk]
    rfl
  | includeWord =>
    simp only [show c.current.kind = _ from hk]
    rfl
  | typeWord word =>
    simp only [show c.current.kind = _ from hk]
    simp only [declaration, Declaration.parse, if_true, bind, EStateM.bind, Reader.global]
    cases Declaration.parseGlobal symbols c with
    | ok read => rfl
    | error refusal => rfl
  | _ =>
    simp only [show c.current.kind = _ from hk]
    simp only [topExpression, bind, EStateM.bind, Reader.expr]
    cases Expr.parse ⟨symbols, ""⟩ c with
    | error refusal => rfl
    | ok read =>
      obtain ⟨e, d, hd⟩ := read
      simp only [Except.bind, Reader.ofExcept, Reader.insist_eq_ofAttempt]
      cases d.insist .semicolon .afterExpression with
      | error refusal => rfl
      | ok u => rfl

theorem next_eq (p : Parser) :
    (p.next.result, p.next.parser) = match Reader.form p.begin with
      | .ok piece t => (piece.form? p.counter, p.wentTo t)
      | .error e t => (none, { p.fledFrom t with errors := p.errors ++ [e] }) := by
  let q : Parser := ⟨p.cursor.advance, p.symbols.checkpoint, p.counter, p.errors⟩
  exact readHere_eq q

theorem reading_afterwards (h : p.errors = []) :
    (p.reading, p.afterwards) = match Reader.form p.begin with
      | .ok piece t => (piece.reading p.counter, p.wentTo t)
      | .error _ t => (.broken, p.fledFrom t) := by
  have hnext := p.next_eq
  obtain ⟨c, symbols, counter, errors⟩ := p
  subst h
  unfold reading afterwards
  cases hform : Reader.form (begin ⟨c, symbols, counter, []⟩) with
  | error e t =>
    rw [hform] at hnext
    obtain ⟨hresult, hparser⟩ := Prod.mk.inj hnext
    rw [hresult, hparser]
    rfl
  | ok piece t =>
    rw [hform] at hnext
    obtain ⟨hresult, hparser⟩ := Prod.mk.inj hnext
    rw [hresult, hparser]
    cases piece with
    | ending => rfl
    | skipped => rfl
    | declaration d => rfl
    | expression e => cases e <;> rfl

theorem walks_next (p : Parser) : p.cursor.advance.Walks p.next.parser.cursor := by
  have hnext := p.next_eq
  have hform := (Reader.steady_form p.begin).walks
  cases hf : Reader.form p.begin with
  | ok piece t =>
    rw [hf] at hnext hform
    rw [(Prod.mk.inj hnext).2]
    exact hform
  | error e t =>
    rw [hf] at hnext hform
    rw [(Prod.mk.inj hnext).2]
    exact hform.trans (Reader.steady_skip t).walks

theorem leads_afterwards (p : Parser) : p.cursor.advance.Leads p.afterwards.cursor :=
  p.walks_next.leads

theorem counter_afterwards (h : p.errors = []) : p.afterwards.counter = p.counter := by
  have hnext := reading_afterwards h
  cases hf : Reader.form p.begin with
  | ok piece t =>
    rw [hf] at hnext
    rw [(Prod.mk.inj hnext).2]
    rfl
  | error e t =>
    rw [hf] at hnext
    rw [(Prod.mk.inj hnext).2]
    rfl

theorem rollback_afterwards (h : p.errors = []) :
    p.afterwards.symbols.rollback = p.symbols.checkpoint := by
  have hnext := reading_afterwards h
  have hform := (Reader.steady_form p.begin).undone
  cases hf : Reader.form p.begin with
  | ok piece t =>
    rw [hf] at hnext hform
    rw [(Prod.mk.inj hnext).2]
    exact hform
  | error e t =>
    rw [hf] at hnext hform
    rw [(Prod.mk.inj hnext).2]
    exact (congrArg SymbolTable.rollback hform).trans rfl

theorem symbols_afterwards (h : p.errors = []) (hd : ∀ d, p.reading ≠ .declaration d) :
    p.afterwards.symbols.entries = p.symbols.entries := by
  have hnext := reading_afterwards h
  cases hf : Reader.form p.begin with
  | ok piece t =>
    rw [hf] at hnext
    obtain ⟨hreading, hafter⟩ := Prod.mk.inj hnext
    rw [hafter]
    rcases Reader.form_symbols hf with he | ⟨d, rfl⟩
    · exact (congrArg SymbolTable.entries he).trans rfl
    · exact absurd hreading (hd d)
  | error e t =>
    rw [hf] at hnext
    rw [(Prod.mk.inj hnext).2]
    have hform := (Reader.steady_form p.begin).undone
    rw [hf] at hform
    exact (congrArg SymbolTable.entries hform).trans rfl

theorem remaining_afterwards_lt (h : p.errors = []) (hr : p.reading ≠ .ending) :
    p.afterwards.remaining < p.remaining := by
  have hpending : p.cursor.stream.pending ≠ [] := by
    intro hnil
    have heof : p.cursor.advance.kind = .eof := by
      simp only [Cursor.advance, Cursor.kind, TokenStream.next, hnil]
    have hnext := reading_afterwards h
    rw [Reader.form_eof heof] at hnext
    exact hr (Prod.mk.inj hnext).1
  have hlength := p.leads_afterwards.suffix.length_le
  rw [Cursor.pending_advance, List.length_tail] at hlength
  have := List.length_pos_iff.mpr hpending
  unfold remaining
  omega

end Parser

inductive Reading.Spelled (W : String → Prop) (counter : Nat) : Reading → Prop
  | nothing : Spelled W counter .nothing
  | broken : Spelled W counter .broken
  | ending : Spelled W counter .ending
  | declaration {d : Declaration} : d.Spelled W → Spelled W counter (.declaration d)
  | expression {e : Expr} : e.Spelled W → Spelled W counter (.expression (.wrap e counter))

theorem Reading.Spelled.of_wrap {W : String → Prop} {counter number : Nat} {e : Expr}
    (h : Spelled W counter (.expression (.wrap e number))) : e.Spelled W := by
  generalize hr : Reading.expression (.wrap e number) = r at h
  cases h with
  | @expression e' he =>
    obtain rfl : e = e' := congrArg Anonymous.expr (Reading.expression.inj hr)
    exact he
  | _ => cases hr

namespace Parser

variable {p : Parser}

theorem reading_spelled (h : p.errors = []) {W : String → Prop} (hw : p.cursor.Spelled W) :
    p.reading.Spelled W p.counter := by
  have hnext := reading_afterwards h
  have hform := (Reader.keeps_form p.begin hw.advance).reads
  cases hf : Reader.form p.begin with
  | ok piece t =>
    rw [hf] at hnext
    rw [(Prod.mk.inj hnext).1]
    cases hform piece t hf with
    | ending => exact .ending
    | skipped => exact .nothing
    | declaration hd => exact .declaration hd
    | expression he => exact .expression he
  | error e t =>
    rw [hf] at hnext
    rw [(Prod.mk.inj hnext).1]
    exact .broken

theorem afterwards_spelled {W : String → Prop} (hw : p.cursor.Spelled W) :
    p.afterwards.cursor.Spelled W := p.leads_afterwards.spelled hw.advance

def extend (p : Parser) (more : List Token) : Parser := { p with cursor := p.cursor.extend more }

theorem next_extend {more : List Token} (hmore : more ≠ [])
    (hleft : more <:+ (p.extend more).next.parser.cursor.stream.pending) :
    ∃ (result : Option Form) (q : Parser), ∀ more, (p.extend more).next.result = result ∧
      (p.extend more).next.parser = q.extend more := by
  have hadvance := Cursor.advance_extend hmore
    (hleft.trans (p.extend more).walks_next.leads.suffix)
  have hbegin : ∀ more, (p.extend more).begin = p.begin.extend more := fun more =>
    congrArg (Place.mk _) (hadvance more)
  have hnext := (p.extend more).next_eq
  have hshort := (Reader.steady_form (p.extend more).begin).short p.begin more hmore (hbegin more)
  cases hf : Reader.form (p.extend more).begin with
  | ok piece t =>
    rw [hf] at hnext hshort
    rw [(Prod.mk.inj hnext).2] at hleft
    obtain ⟨r, hr⟩ := hshort hleft
    cases r with
    | error e t₀ => rw [hbegin, hr more] at hf; cases hf
    | ok piece t₀ =>
      refine ⟨piece.form? p.counter, p.wentTo t₀, fun more => Prod.mk.inj ?_⟩
      rw [next_eq, hbegin, hr more]
      rfl
  | error e t =>
    rw [hf] at hnext hshort
    rw [(Prod.mk.inj hnext).2] at hleft
    obtain ⟨r, hr⟩ := hshort (hleft.trans (Reader.steady_skip t).leads.suffix)
    cases r with
    | ok piece t₀ => rw [hbegin, hr more] at hf; cases hf
    | error e t₀ =>
      rw [hbegin, hr more] at hf
      cases hf
      obtain ⟨r, hr'⟩ := (Reader.steady_skip (t₀.extend more)).short t₀ more hmore rfl hleft
      cases r with
      | error e' t₁ => cases hr' more
      | ok u t₁ =>
        refine ⟨none, { p.wentTo ⟨t₀.symbols.rollback, t₁.cursor⟩ with errors := p.errors ++ [e] },
          fun more => Prod.mk.inj ?_⟩
        rw [next_eq, hbegin, hr more]
        have hskip : (t₀.extend more).cursor.skipForm = t₁.cursor.extend more := by
          have := hr' more
          simp only [Reader.skip, Reader.extend] at this
          injection this with _ this
          exact congrArg Place.cursor this
        simp only [Reader.extend, fledFrom, hskip]
        rfl

theorem reading_extend {more : List Token} (hmore : more ≠ [])
    (hleft : more <:+ (p.extend more).afterwards.cursor.stream.pending) :
    ∃ (reading : Reading) (q : Parser), ∀ more, (p.extend more).reading = reading ∧
      (p.extend more).afterwards = q.extend more := by
  obtain ⟨result, q, hnext⟩ := next_extend hmore hleft
  have hafterwards : ∀ more, (p.extend more).afterwards = q.takeErrors.2.extend more := by
    intro more
    rw [afterwards, (hnext more).2]
    rfl
  have hreading : ∀ more, (p.extend more).reading = (p.extend []).reading := by
    intro more
    simp only [reading, hafterwards, hnext]
    rfl
  exact ⟨_, _, fun more => ⟨hreading more, hafterwards more⟩⟩

end Parser

end FormCompiler
