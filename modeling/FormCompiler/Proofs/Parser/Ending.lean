import FormCompiler.Proofs.Parser.Discipline

namespace FormCompiler

namespace Cursor

variable {c d : Cursor}

inductive Beside (c d : Cursor) : Prop
  | meets : c.Meets d → Beside c d
  | spent : c.kind = .eof → d.kind = .eof → c.stream.Spent → d.stream.Spent → Beside c d

theorem Beside.advance (h : c.Beside d) : c.advance.Beside d.advance := by
  have hpast : c.stream.Spent → d.stream.Spent → c.advance.Beside d.advance := fun hc hd =>
    .spent hc.next hd.next hc.tail hd.tail
  cases h with
  | meets hmet =>
    by_cases hmore : c.kind = .eof
    · exact hpast (hmet.done hmore).1 (hmet.done hmore).2
    · exact .meets (hmet.advance hmore)
  | spent _ _ hc hd => exact hpast hc hd

theorem Beside.eof_iff (h : c.Beside d) : c.kind = .eof ↔ d.kind = .eof := by
  cases h with
  | meets hmet => rw [hmet.kind]
  | spent hc hd _ _ => simp [hc, hd]

theorem Meets.skipForm (h : c.Meets d) : c.skipForm.Meets d.skipForm := by
  cases (Reader.steady_skip ⟨{}, c⟩).meets ⟨{}, d⟩ ⟨rfl, h⟩ with
  | ok hmet => exact hmet.cursor

theorem heard_silent (h : c.stream.audible = false) (d : Cursor) : c.heard d = [] := by
  simp [heard, TokenStream.heard, h]

theorem Leads.audible (h : c.Leads d) : d.stream.audible = c.stream.audible := by
  rw [h.stream]

end Cursor

namespace Parser

variable {p q : Parser}

structure Beside (p q : Parser) : Prop where
  cursor : p.cursor.Beside q.cursor
  symbols : p.symbols = q.symbols
  counter : p.counter = q.counter
  errors : p.errors = q.errors

theorem Beside.ofStream {s s' : TokenStream} (h : s.Agree s') :
    (ofStream s).Beside (ofStream s') where
  cursor := .meets ⟨rfl, fun _ => h, nofun⟩
  symbols := rfl
  counter := rfl
  errors := rfl

inductive Found :
    EStateM.Result ParseError Place Piece → EStateM.Result ParseError Place Piece → Prop
  | read {piece : Piece} {t t' : Place} : t.symbols = t'.symbols → t.cursor.Beside t'.cursor →
      Found (.ok piece t) (.ok piece t')
  | refused {e : ParseError} {t t' : Place} : t.Meets t' → Found (.error e t) (.error e t')

theorem Beside.form (h : p.Beside q) : Found (Reader.form p.begin) (Reader.form q.begin) := by
  have hsymbols : p.begin.symbols = q.begin.symbols := congrArg SymbolTable.checkpoint h.symbols
  have hcursor : p.begin.cursor.Beside q.begin.cursor := h.cursor.advance
  cases hcursor with
  | spent hp hq hps hqs =>
    rw [Reader.form_eof hp, Reader.form_eof hq]
    exact .read hsymbols (.spent hp hq hps hqs)
  | meets hmet =>
    have hboth := (Reader.steady_form p.begin).meets q.begin ⟨hsymbols, hmet⟩
    revert hboth
    generalize Reader.form p.begin = r
    generalize Reader.form q.begin = r'
    rintro (⟨hmet⟩ | ⟨hmet⟩)
    · exact .read hmet.symbols (.meets hmet.cursor)
    · exact .refused hmet

theorem Beside.next (h : p.Beside q) :
    p.next.result = q.next.result ∧ p.next.parser.Beside q.next.parser := by
  have hp := p.next_eq
  have hq := q.next_eq
  have hfound := h.form
  revert hp hq hfound
  generalize Reader.form p.begin = r
  generalize Reader.form q.begin = r'
  intro hp hq hfound
  cases hfound with
  | read hsymbols hcursor =>
    obtain ⟨hpresult, hpparser⟩ := Prod.mk.inj hp
    obtain ⟨hqresult, hqparser⟩ := Prod.mk.inj hq
    rw [hpresult, hqresult, hpparser, hqparser, h.counter]
    exact ⟨rfl, hcursor, hsymbols, h.counter, h.errors⟩
  | @refused e t t' hmet =>
    obtain ⟨hpresult, hpparser⟩ := Prod.mk.inj hp
    obtain ⟨hqresult, hqparser⟩ := Prod.mk.inj hq
    rw [hpresult, hqresult, hpparser, hqparser]
    exact ⟨rfl, .meets hmet.cursor.skipForm, congrArg SymbolTable.rollback hmet.symbols, h.counter,
      congrArg (· ++ [e]) h.errors⟩

theorem Beside.countAnonymous (h : p.Beside q) : p.countAnonymous.Beside q.countAnonymous :=
  ⟨h.cursor, h.symbols, congrArg (· + 1) h.counter, h.errors⟩

theorem Beside.reject (h : p.Beside q) : p.reject.Beside q.reject :=
  ⟨h.cursor, congrArg SymbolTable.rollback h.symbols, h.counter, h.errors⟩

theorem Beside.afterwards (h : p.Beside q) : p.afterwards.Beside q.afterwards :=
  ⟨h.next.2.cursor, h.next.2.symbols, h.next.2.counter, rfl⟩

theorem Beside.following (h : p.Beside q) : p.following.Beside q.following := by
  unfold Parser.following
  rw [h.next.1]
  split
  · exact h.next.2
  · exact h.next.2
  · exact h.next.2.countAnonymous

theorem Beside.forms (h : p.Beside q) :
    p.forms.result = q.forms.result ∧ p.forms.parser.Beside q.forms.parser := by
  induction hn : p.remaining using Nat.strongRecOn generalizing p q with
  | ind n ih =>
    subst hn
    by_cases hend : p.cursor.advance.kind = .eof
    · obtain ⟨hpresult, hpparser⟩ := forms_end hend
      obtain ⟨hqresult, hqparser⟩ := forms_end (h.cursor.advance.eof_iff.mp hend)
      rw [hpresult, hqresult, hpparser, hqparser]
      exact ⟨rfl, h.next.2⟩
    · have hend' := h.cursor.advance.eof_iff.not.mp hend
      obtain ⟨hpresult, hpparser⟩ := forms_form hend
      obtain ⟨hqresult, hqparser⟩ := forms_form hend'
      obtain ⟨hresult, hparser⟩ := ih _ (remaining_following_lt hend) h.following rfl
      rw [hpresult, hqresult, hpparser, hqparser, h.next.1, hresult]
      exact ⟨rfl, hparser⟩

theorem Beside.reading (h : p.Beside q) : p.reading = q.reading := by
  unfold Parser.reading
  rw [h.next.1, h.next.2.errors, h.afterwards.counter]

def Silent (p : Parser) : Prop := p.cursor.stream.audible = false

theorem Silent.next (h : p.Silent) : p.next.parser.Silent := by
  unfold Silent
  rw [p.walks_next.leads.after.audible]
  exact h

def noteOf : EStateM.Result ParseError Place Piece → Span → List Note
  | .ok .skipped _, span => [.warn s!"{span.text}: include is not supported, ignoring"]
  | .ok _ _, _ => []
  | .error e _, _ => [e.note]

theorem settle_notes {r : Reply (Option Form)} (h : r.result = none → r.parser.Silent) :
    (settle r).notes = r.notes := by
  unfold settle
  cases hr : r.result with
  | some form => rfl
  | none =>
    have hsilent : r.parser.reject.cursor.stream.audible = false := h hr
    simp only [synchronize, Cursor.heard_silent hsilent, List.append_nil]

theorem settle_refuse_notes {r : Refusal} (h : q.Silent) (hr : r.cursor.stream.audible = false) :
    (settle (q.refuse r)).notes = [r.error.note] := by
  refine (settle_notes (r := q.refuse r) fun _ => hr).trans ?_
  simp only [refuse, Cursor.heard_silent (show q.cursor.stream.audible = false from h)]
  rfl

theorem readHere_notes (q : Parser) (h : q.Silent) :
    (readHere q).notes = noteOf (Reader.form ⟨q.symbols, q.cursor⟩) q.cursor.span := by
  obtain ⟨c, symbols, counter, errors⟩ := q
  have hsilent : c.stream.audible = false := h
  have hleads := (Reader.steady_form ⟨symbols, c⟩).leads
  unfold readHere
  revert hleads
  unfold Reader.form
  rw [Reader.token_bind]
  simp only
  cases hk : c.kind with
  | eof =>
    simp only [show c.current.kind = _ from hk]
    exact fun _ => rfl
  | includeWord =>
    simp only [show c.current.kind = _ from hk]
    intro _
    simp only [synchronize, Cursor.heard_silent hsilent]
    rfl
  | typeWord word =>
    simp only [show c.current.kind = _ from hk]
    simp only [declaration, Declaration.parse, if_true, bind, EStateM.bind, Reader.global]
    cases Declaration.parseGlobal symbols c with
    | ok read =>
      intro _
      refine (settle_notes fun hnone => ?_).trans (Cursor.heard_silent hsilent _)
      cases hnone
    | error refusal =>
      exact fun hleads => settle_refuse_notes hsilent (hleads.audible.trans hsilent)
  | _ =>
    simp only [show c.current.kind = _ from hk]
    simp only [topExpression, bind, EStateM.bind, Reader.expr]
    cases Expr.parse ⟨symbols, ""⟩ c with
    | error refusal =>
      exact fun hleads => settle_refuse_notes hsilent (hleads.audible.trans hsilent)
    | ok read =>
      obtain ⟨e, d, hd⟩ := read
      simp only [Except.bind, Reader.ofExcept, Reader.insist_eq_ofAttempt]
      cases d.insist .semicolon .afterExpression with
      | error refusal =>
        exact fun hleads => settle_refuse_notes hsilent (hleads.audible.trans hsilent)
      | ok u =>
        intro _
        refine (settle_notes fun hnone => ?_).trans (Cursor.heard_silent hsilent _)
        cases hnone

theorem Silent.next_notes (h : p.Silent) :
    p.next.notes = noteOf (Reader.form p.begin) p.begin.cursor.span := by
  let q : Parser := ⟨p.cursor.advance, p.symbols.checkpoint, p.counter, p.errors⟩
  have hsilent : q.Silent := (Cursor.Leads.advance .refl).audible.trans h
  have hfirst : p.cursor.heard p.cursor.advance = [] := Cursor.heard_silent h _
  change p.cursor.heard p.cursor.advance ++ (readHere q).notes = _
  rw [hfirst, readHere_notes q hsilent]
  rfl

theorem Beside.notes (h : p.Beside q) (hp : p.Silent) (hq : q.Silent) :
    p.next.notes = q.next.notes := by
  have hcursor : p.begin.cursor.Beside q.begin.cursor := h.cursor.advance
  have hfound := h.form
  rw [hp.next_notes, hq.next_notes]
  cases hcursor with
  | spent hp hq _ _ =>
    rw [Reader.form_eof hp, Reader.form_eof hq]
    rfl
  | meets hmet =>
    rw [show p.begin.cursor.span = q.begin.cursor.span from congrArg Token.span hmet.current]
    revert hfound
    generalize Reader.form p.begin = r
    generalize Reader.form q.begin = r'
    intro hfound
    cases hfound with
    | @read piece t t' _ _ => cases piece <;> rfl
    | refused _ => rfl

end Parser

end FormCompiler
