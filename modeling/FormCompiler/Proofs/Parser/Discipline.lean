import FormCompiler.Proofs.Parser.Next

/-!
From form to form. A form that is read ends on the token that closes it. One that is refused brings
one error and no names, and reading goes on behind the next token where a form may end.
-/

namespace FormCompiler

def Form.closing : Form → Kind
  | .declaration (.function ..) => .closeBrace
  | .expression .endOfInput => .eof
  | _ => .semicolon

theorem Form.closing_isBoundary (f : Form) : f.closing.isBoundary = true := by
  unfold closing
  split <;> rfl

namespace Cursor

theorem skipForm_isBoundary (c : Cursor) : c.skipForm.kind.isBoundary = true := by
  induction c using skipForm.induct with
  | case1 c h =>
    rw [skipForm, if_pos h]
    exact h
  | case2 c h ih =>
    rw [skipForm, if_neg h]
    exact ih

end Cursor

namespace Reader

variable {α β : Type}

def Ends (P : α → Place → Prop) (m : Reader α) (s : Place) : Prop := ∀ a t, m s = .ok a t → P a t

namespace Ends

variable {P : α → Place → Prop} {Q : β → Place → Prop} {m : Reader α} {k : α → Reader β} {s : Place}

theorem pure {a : α} (h : P a s) : Ends P (Pure.pure a) s := by
  intro b t hb
  cases hb
  exact h

theorem throw (e : ParseError) : Ends P (MonadExcept.throw e : Reader α) s := by
  intro b t hb
  cases hb

theorem bind (hk : ∀ a t, m s = .ok a t → Ends Q (k a) t) : Ends Q (m >>= k) s := by
  intro b u hb
  simp only [Bind.bind, EStateM.bind] at hb
  split at hb
  next a t hm => exact hk a t hm b u hb
  next => cases hb

theorem token {k : Token → Reader β} (hk : Ends Q (k s.cursor.current) s) :
    Ends Q (token >>= k) s := hk

theorem type? {scope name : String} {k : Option Ty → Reader β}
    (hk : Ends Q (k (s.symbols.lookup? scope name)) s) : Ends Q (type? scope name >>= k) s := hk

theorem advance {k : Unit → Reader β} (hk : Ends Q (k ()) ⟨s.symbols, s.cursor.advance⟩) :
    Ends Q (advance >>= k) s := hk

theorem refuse (cause : ParseError.Cause) : Ends P (refuse cause : Reader α) s := token (throw _)

theorem missing (what : Expected) : Ends P (missing what : Reader α) s := token (refuse _)

theorem insist {kind : Kind} {what : Expected} {k : Unit → Reader β}
    (hk : s.cursor.kind = kind → Ends Q (k ()) s) : Ends Q (insist kind what >>= k) s :=
  insist_cases (M := (Ends Q · s)) (fun _ => token) (missing what) hk

theorem pass {kind : Kind} {what : Expected} {k : Unit → Reader β}
    (hk : s.cursor.kind = kind → Ends Q (k ()) ⟨s.symbols, s.cursor.advance⟩) :
    Ends Q (pass kind what >>= k) s := by
  unfold Reader.pass
  rw [bind_assoc]
  exact insist fun h => advance (hk h)

end Ends

theorem Keeps.leads {P : α → Prop} {m : Reader α} {s t : Place} {a : α}
    (h : Keeps (fun _ => True) P m s) (hm : m s = .ok a t) : s.cursor.Leads t.cursor := by
  have hleads := (h (spelled_trivial _)).leads
  rw [hm] at hleads
  exact hleads

theorem ends_variableRest (scope : String) (start : Span) (type : Ty) (name : String) (s : Place) :
    Ends (fun d t => t.cursor.kind = (Form.declaration d).closing)
      (variableRest scope start type name) s := by
  rw [variableRest_eq]
  apply Ends.token
  cases hk : s.cursor.current.kind with
  | semicolon => exact .bind fun _ t ht => .pure (by cases ht; exact hk)
  | equals =>
    refine .bind fun _ t _ => .bind fun _ t _ => .bind fun init t _ => ?_
    exact .insist fun h => .token (.pure h)
  | _ => exact .missing _

theorem ends_body (function : String) (s : Place) :
    Ends (fun _ t => t.cursor.kind = .closeBrace) (body function) s := by
  -- Every statement is followed by a semicolon, which leaves fewer tokens behind it.
  induction hn : s.cursor.size using Nat.strongRecOn generalizing s with
  | ind n ih =>
    subst hn
    have hrest : ∀ (st : Stmt) (what : Expected) {t : Place}, s.cursor.Leads t.cursor →
        Ends (fun _ t => t.cursor.kind = .closeBrace) (do
          pass .semicolon what
          bodyAfter function st) t := by
      intro st what t ht
      refine .pass fun hsemicolon => .bind fun r v hv => .pure ?_
      have hne : t.cursor.kind ≠ .eof := fun he => (by cases hsemicolon.symm.trans he)
      exact ih _ (Nat.lt_of_lt_of_le (Cursor.size_advance_lt hne) ht.size_le) _ rfl r v hv
    have hexpression : Ends (fun _ t => t.cursor.kind = .closeBrace) (bodyOfExpr function) s :=
      .bind fun e t ht => hrest (.expression e) _ ((keeps_expr s).leads ht)
    rw [body_eq]
    apply Ends.token
    cases hk : s.cursor.current.kind with
    | closeBrace => exact .pure hk
    | returnWord =>
      exact .advance (.bind fun _ _ _ => .pass fun _ => .insist fun h => .pure h)
    | eof => exact .missing _
    | typeWord word =>
      exact .bind fun decl t ht =>
        hrest (.declaration decl) _ ((keeps_localVariable function).leads ht)
    | _ => exact hexpression

theorem ends_global (s : Place) :
    Ends (fun d t => t.cursor.kind = (Form.declaration d).closing) global s := by
  rw [global_eq]
  apply Ends.token
  refine .bind fun ⟨type, name⟩ t _ => .token ?_
  simp only
  split
  · refine .bind fun _ u _ => .bind fun proto v _ => .token ?_
    cases hk : v.cursor.current.kind with
    | semicolon => exact .pure hk
    | openBrace => exact .bind fun _ w _ => .bind fun r x hx => .pure (ends_body name w r x hx)
    | _ => exact .missing _
  · exact ends_variableRest "" _ type name t

end Reader

namespace Piece

structure Between (counter : Nat) (first : Kind) (piece : Piece) (t : Place) : Prop where
  ending : piece = .ending ↔ first = .eof
  skipped : piece = .skipped ↔ first = .includeWord
  boundary : t.cursor.kind.isBoundary = true
  closing : ∀ form ∈ piece.form? counter, t.cursor.kind = form.closing

variable {counter : Nat} {piece : Piece}

theorem form?_eq_end : piece.form? counter = some (.expression .endOfInput) ↔ piece = .ending := by
  cases piece with
  | expression e => cases e <;> simp [form?, Expr.isCall]
  | _ => simp [form?]

theorem form?_eq_none : piece.form? counter = none ↔ piece = .skipped := by
  cases piece <;> simp [form?]

theorem closing_of_expression {e : Expr} {form : Form}
    (h : form ∈ (Piece.expression e).form? counter) : form.closing = .semicolon := by
  obtain rfl := Option.mem_some.mp h
  cases e <;> rfl

end Piece

namespace Reader

theorem ends_form (counter : Nat) (s : Place) :
    Ends (Piece.Between counter s.cursor.kind) form s := by
  change Ends (Piece.Between counter s.cursor.current.kind) form s
  have hexpression (he : s.cursor.current.kind ≠ .eof) (hi : s.cursor.current.kind ≠ .includeWord) :
      Ends (Piece.Between counter s.cursor.current.kind) (do
        let e ← expr ""
        insist .semicolon .afterExpression
        return .expression e) s := by
    refine .bind fun e t _ => .insist fun hk => .pure ⟨by simp [he], by simp [hi], ?_, ?_⟩
    · rw [hk]
      rfl
    · exact fun form hform => hk.trans (Piece.closing_of_expression hform).symm
  unfold form
  apply Ends.token
  cases hk : s.cursor.current.kind with
  | eof =>
    have hkind : s.cursor.kind = .eof := hk
    refine .pure ⟨by simp, by simp, by rw [hkind]; rfl, fun form hform => ?_⟩
    rw [hkind, ← Option.mem_some.mp hform]
    rfl
  | includeWord =>
    refine .bind fun _ t ht => .pure ?_
    cases ht
    exact ⟨by simp, by simp, s.cursor.skipForm_isBoundary, fun form hform => by cases hform⟩
  | typeWord word =>
    refine .bind fun d t ht => .pure ?_
    have hclosing := ends_global s d t ht
    refine ⟨by simp, by simp, ?_, fun form hform => ?_⟩
    · rw [hclosing]
      exact Form.closing_isBoundary _
    · rw [hclosing, Option.mem_some.mp hform]
  | _ =>
    simp only [hk] at hexpression
    exact hexpression (by simp) (by simp)

theorem kind_of_refused {s t : Place} {e : ParseError} (h : form s = .error e t) :
    s.cursor.kind ≠ .eof ∧ s.cursor.kind ≠ .includeWord := by
  refine ⟨fun hk => ?_, fun hk => ?_⟩
  · rw [form_eof hk] at h
    cases h
  · unfold form at h
    rw [show s = ⟨s.symbols, s.cursor⟩ from rfl, token_bind] at h
    simp only [show s.cursor.current.kind = _ from hk] at h
    cases h

end Reader

namespace Parser

/-- What becomes of the next form: it is read and closed without an error, it is the end of the
text, or nothing comes of it but, unless it is an `include`, an error. -/
structure Disciplined (p : Parser) : Prop where
  takes : p.cursor.advance.Leads p.next.parser.cursor
  boundary : p.next.parser.cursor.kind.isBoundary = true
  ends : p.next.result = some (.expression .endOfInput) ↔ p.cursor.advance.kind = .eof
  reads : ∀ form, p.next.result = some form →
    p.next.parser.errors = p.errors ∧ p.next.parser.cursor.kind = form.closing
  drops : p.next.result = none → p.next.parser.symbols = p.symbols.checkpoint ∧
    if p.cursor.advance.kind = .includeWord then p.next.parser.errors = p.errors
    else ∃ e, p.next.parser.errors = p.errors ++ [e]

variable {p q : Parser}

theorem disciplined (p : Parser) : p.Disciplined := by
  have hnext := p.next_eq
  have hleads := (Reader.steady_form p.begin).leads
  have hundone := (Reader.steady_form p.begin).undone
  cases hform : Reader.form p.begin with
  | ok piece t =>
    rw [hform] at hnext hleads
    obtain ⟨hresult, hparser⟩ := Prod.mk.inj hnext
    have hbetween := Reader.ends_form p.counter p.begin piece t hform
    refine ⟨by rw [hparser]; exact hleads, by rw [hparser]; exact hbetween.boundary, ?_, ?_, ?_⟩
    · rw [hresult, Piece.form?_eq_end]
      exact hbetween.ending
    · rw [hresult, hparser]
      exact fun form hform => ⟨rfl, hbetween.closing form hform⟩
    · intro hnone
      rw [hresult, Piece.form?_eq_none] at hnone
      have hinclude : p.cursor.advance.kind = .includeWord := hbetween.skipped.mp hnone
      rw [hparser, if_pos hinclude]
      refine ⟨?_, rfl⟩
      rcases Reader.form_symbols hform with hsymbols | ⟨d, hd⟩
      · exact hsymbols
      · cases hnone.symm.trans hd
  | error e t =>
    rw [hform] at hnext hleads hundone
    obtain ⟨hresult, hparser⟩ := Prod.mk.inj hnext
    obtain ⟨hend, hinclude⟩ := Reader.kind_of_refused hform
    refine ⟨?_, ?_, ?_, ?_, ?_⟩
    · rw [hparser]
      exact hleads.trans (Reader.steady_skip t).leads
    · rw [hparser]
      exact t.cursor.skipForm_isBoundary
    · rw [hresult]
      exact ⟨nofun, fun h => absurd h hend⟩
    · rw [hresult]
      exact nofun
    · have hinclude : p.cursor.advance.kind ≠ .includeWord := hinclude
      rw [hparser, if_neg hinclude]
      exact fun _ => ⟨hundone, e, rfl⟩

def malformed (p : Parser) : Bool := p.next.result.isNone && p.cursor.advance.kind != .includeWord

def following (p : Parser) : Parser :=
  match p.next.result with
  | none | some (.declaration _) => p.next.parser
  | some _ => p.next.parser.countAnonymous

inductive Stages : Parser → List Parser → Parser → Prop
  | ending {p : Parser} : p.cursor.advance.kind = .eof → Stages p [] p
  | form {p q : Parser} {ps : List Parser} : p.cursor.advance.kind ≠ .eof →
      Stages p.following ps q → Stages p (p :: ps) q

theorem cursor_following (p : Parser) : p.following.cursor = p.next.parser.cursor := by
  unfold following
  split <;> rfl

theorem errors_following (p : Parser) : p.following.errors = p.next.parser.errors := by
  unfold following
  split <;> rfl

theorem remaining_following_lt (h : p.cursor.advance.kind ≠ .eof) :
    p.following.remaining < p.remaining := by
  have hpending : p.cursor.stream.pending ≠ [] := by
    intro hnil
    apply h
    simp only [Cursor.advance, Cursor.kind, TokenStream.next, hnil]
  have hlength := p.disciplined.takes.suffix.length_le
  rw [Cursor.pending_advance, List.length_tail] at hlength
  have := List.length_pos_iff.mpr hpending
  unfold remaining
  rw [cursor_following]
  omega

theorem forms_end (h : p.cursor.advance.kind = .eof) :
    p.forms.result = [] ∧ p.forms.parser = p.next.parser := by
  have hresult := p.disciplined.ends.mpr h
  rw [forms]
  simp only [hresult]
  exact ⟨rfl, rfl⟩

theorem forms_form (h : p.cursor.advance.kind ≠ .eof) :
    p.forms.result = p.next.result.toList ++ p.following.forms.result ∧
      p.forms.parser = p.following.forms.parser := by
  have hless := remaining_following_lt h
  rw [forms]
  unfold following at hless ⊢
  cases hresult : p.next.result with
  | none =>
    simp only [hresult] at hless ⊢
    rw [dif_pos hless]
    exact ⟨rfl, rfl⟩
  | some form =>
    have hend : form.isEnd ≠ true := by
      intro he
      apply h
      apply p.disciplined.ends.mp
      rw [hresult]
      unfold Form.isEnd at he
      split at he
      · rfl
      · cases he
    simp only [hresult] at hless ⊢
    rw [if_neg hend]
    cases form with
    | declaration d =>
      rw [dif_pos hless]
      exact ⟨rfl, rfl⟩
    | _ =>
      rw [dif_pos hless]
      exact ⟨rfl, rfl⟩

theorem length_errors_next (p : Parser) :
    p.next.parser.errors.length = p.errors.length + if p.malformed then 1 else 0 := by
  unfold malformed
  cases hresult : p.next.result with
  | some form => simp [(p.disciplined.reads form hresult).1]
  | none =>
    have hdrops := (p.disciplined.drops hresult).2
    split at hdrops
    next hinclude => simp [hdrops, hinclude]
    next hinclude =>
      obtain ⟨e, he⟩ := hdrops
      simp [he, hinclude]

theorem Stages.length_errors {ps : List Parser} (h : Stages p ps q) :
    q.next.parser.errors.length = p.errors.length + ps.countP malformed := by
  induction h with
  | @ending p hend =>
    rw [(p.disciplined.reads _ (p.disciplined.ends.mpr hend)).1]
    rfl
  | form _ _ ih =>
    rw [ih, errors_following, length_errors_next, List.countP_cons]
    omega

theorem stages_forms (p : Parser) : ∃ ps q, Stages p ps q ∧
    p.forms.result = ps.filterMap (·.next.result) ∧ p.forms.parser = q.next.parser := by
  induction hn : p.remaining using Nat.strongRecOn generalizing p with
  | ind n ih =>
    subst hn
    by_cases h : p.cursor.advance.kind = .eof
    · obtain ⟨hresult, hparser⟩ := forms_end h
      exact ⟨[], p, .ending h, hresult, hparser⟩
    · obtain ⟨ps, q, hstages, hresult, hparser⟩ := ih _ (remaining_following_lt h) p.following rfl
      obtain ⟨hresult', hparser'⟩ := forms_form h
      refine ⟨p :: ps, q, .form h hstages, ?_, hparser'.trans hparser⟩
      rw [hresult', hresult, List.filterMap_cons]
      cases p.next.result <;> rfl

/-- Whatever is read next is read in good order, and reading form by form comes to the end of the
text, with one error for each form that is malformed. -/
theorem forms_disciplined (p : Parser) : p.Disciplined ∧ ∃ ps q, Stages p ps q ∧
    p.forms.result = ps.filterMap (·.next.result) ∧ p.forms.parser = q.next.parser ∧
    p.forms.parser.errors.length = p.errors.length + ps.countP malformed := by
  obtain ⟨ps, q, hstages, hresult, hparser⟩ := p.stages_forms
  exact ⟨p.disciplined, ps, q, hstages, hresult, hparser, hparser ▸ hstages.length_errors⟩

end Parser

end FormCompiler
