import FormCompiler.Proofs.Parser.Spans

namespace FormCompiler

namespace Cursor

def Holds (c d : Cursor) (e : Expr) : Prop :=
  ∃ (names : Names) (w : List Token) (tree : Expr) (a b : Cursor),
    c.Leads a ∧ names.Offers a w tree b ∧ b.Leads d ∧ tree.promoted = e

def Blames (c : Cursor) (err : ParseError) : Prop :=
  ∃ d, c.Leads d ∧ err.span = d.span ∧
    ∀ name, err.cause = .nestedFunction name → ∃ word, d.kind = .typeWord word

theorem Holds.onward {c d d' : Cursor} {e : Expr} (h : c.Holds d e) (hd : d.Leads d') :
    c.Holds d' e := by
  obtain ⟨names, w, tree, a, b, ha, hoffers, hb, hsame⟩ := h
  exact ⟨names, w, tree, a, b, ha, hoffers, hb.trans hd, hsame⟩

end Cursor

mutual

inductive Stmt.Has : Stmt → Expr → Prop
  | declaration {decl : Declaration} {e : Expr} : Declaration.Has decl e →
      Stmt.Has (.declaration decl) e
  | expression {e : Expr} : Stmt.Has (.expression e) e

inductive Declaration.Has : Declaration → Expr → Prop
  | body {proto : Prototype} {body : List Stmt} {result : Option Expr} {st : Stmt} {e : Expr} :
      st ∈ body → Stmt.Has st e → Declaration.Has (.function proto body result) e
  | result {proto : Prototype} {body : List Stmt} {e : Expr} :
      Declaration.Has (.function proto body (some e)) e

end

inductive Form.Has : Form → Expr → Prop
  | expression {e : Expr} : Has (.expression e) e
  | declaration {decl : Declaration} {e : Expr} : decl.Has e → Has (.declaration decl) e
  | anonymous {anon : Anonymous} : Has (.anonymous anon) anon.expr

inductive Piece.Has : Piece → Expr → Prop
  | declaration {decl : Declaration} {e : Expr} : decl.Has e → Has (.declaration decl) e
  | expression {e : Expr} : Has (.expression e) e

theorem Piece.has_of_form? {piece : Piece} {counter : Nat} {form : Form} {e : Expr}
    (hform : form ∈ piece.form? counter) (hgoing : piece ≠ .ending) (has : form.Has e) :
    piece.Has e := by
  cases piece with
  | ending => exact absurd rfl hgoing
  | skipped => cases hform
  | declaration decl =>
    cases hform
    cases has with
    | declaration has => exact .declaration has
  | expression e =>
    obtain rfl := Option.mem_some.mp hform
    split at has <;> cases has <;> exact .expression

namespace Reader

variable {α β : Type}

/-- On the way from `c`: what is read from `s` and the place where it ends are such as `P` says, and
an error is about a token from `c` on. -/
def Accounts (c : Cursor) (P : α → Cursor → Prop) (m : Reader α) (s : Place) : Prop :=
  c.Leads s.cursor → (∀ a t, m s = .ok a t → s.cursor.Leads t.cursor ∧ P a t.cursor) ∧
    ∀ err t, m s = .error err t → c.Blames err

namespace Accounts

variable {c : Cursor} {P : α → Cursor → Prop} {Q : β → Cursor → Prop} {m : Reader α}
  {k : α → Reader β} {s : Place}

theorem of_leads (h : c.Leads s.cursor → Accounts c P m s) : Accounts c P m s :=
  fun hs => h hs hs

theorem pure {a : α} (h : P a s.cursor) : Accounts c P (Pure.pure a) s := by
  intro _
  refine ⟨?_, by rintro err t ⟨⟩⟩
  rintro _ _ ⟨⟩
  exact ⟨.refl, h⟩

theorem throw {err : ParseError} (h : c.Leads s.cursor → c.Blames err) :
    Accounts c P (MonadExcept.throw err : Reader α) s := by
  intro hs
  refine ⟨by rintro a t ⟨⟩, ?_⟩
  rintro _ _ ⟨⟩
  exact h hs

theorem bind (hm : Accounts c P m s)
    (hk : ∀ a t, s.cursor.Leads t.cursor → P a t.cursor → Accounts c Q (k a) t) :
    Accounts c Q (m >>= k) s := by
  intro hs
  obtain ⟨hreads, hblames⟩ := hm hs
  simp only [Bind.bind, EStateM.bind]
  cases hms : m s with
  | ok a t =>
    obtain ⟨ht, ha⟩ := hreads a t hms
    obtain ⟨hreads', hblames'⟩ := hk a t ht ha (hs.trans ht)
    exact ⟨fun b u hb => ⟨ht.trans (hreads' b u hb).1, (hreads' b u hb).2⟩, hblames'⟩
  | error err t =>
    refine ⟨by rintro b u ⟨⟩, ?_⟩
    rintro _ _ ⟨⟩
    exact hblames err t hms

theorem token {k : Token → Reader β} (hk : Accounts c Q (k s.cursor.current) s) :
    Accounts c Q (token >>= k) s := hk

theorem type? {scope name : String} {k : Option Ty → Reader β}
    (hk : Accounts c Q (k (s.symbols.lookup? scope name)) s) :
    Accounts c Q (type? scope name >>= k) s := hk

theorem advance {k : Unit → Reader β}
    (hk : Accounts c Q (k ()) ⟨s.symbols, s.cursor.advance⟩) :
    Accounts c Q (advance >>= k) s := by
  intro hs
  obtain ⟨hreads, hblames⟩ := hk hs.advance
  exact ⟨fun b t hb => ⟨(hreads b t hb).1.after, (hreads b t hb).2⟩, hblames⟩

theorem declare {scope name : String} {type : Ty} {k : Unit → Reader β}
    (hk : Accounts c Q (k ()) ⟨s.symbols.declare scope name type, s.cursor⟩) :
    Accounts c Q (declare scope name type >>= k) s := hk

theorem refuse {cause : ParseError.Cause} (h : ∀ name, cause ≠ .nestedFunction name) :
    Accounts c P (refuse cause : Reader α) s :=
  .token (.throw fun hs => ⟨s.cursor, hs, rfl, fun name hnested => absurd hnested (h name)⟩)

theorem missing (what : Expected) : Accounts c P (missing what : Reader α) s :=
  .token (.refuse (by simp))

theorem insist {kind : Kind} {what : Expected} {k : Unit → Reader β}
    (hk : s.cursor.kind = kind → Accounts c Q (k ()) s) :
    Accounts c Q (insist kind what >>= k) s :=
  insist_cases (M := (Accounts c Q · s)) (fun _ => token) (missing what) hk

theorem pass {kind : Kind} {what : Expected} {k : Unit → Reader β}
    (hk : s.cursor.kind = kind → Accounts c Q (k ()) ⟨s.symbols, s.cursor.advance⟩) :
    Accounts c Q (pass kind what >>= k) s := by
  unfold Reader.pass
  rw [bind_assoc]
  exact insist fun h => advance (hk h)

theorem mono {P' : α → Cursor → Prop} (h : Accounts c P m s)
    (hP : ∀ a t, c.Leads s.cursor → m s = .ok a t → P a t.cursor → P' a t.cursor) :
    Accounts c P' m s := by
  intro hs
  obtain ⟨hreads, hblames⟩ := h hs
  exact ⟨fun a t ht => ⟨(hreads a t ht).1, hP a t hs ht (hreads a t ht).2⟩, hblames⟩

end Accounts

section Expressions

theorem accounts_rules (c : Cursor) (scope : String) :
    Rules (fun R m _ s _ => Accounts c (fun a _ => ∃ a', R a a') m s) (fun _ => True) scope where
  pure h := .pure ⟨_, h⟩
  bind hm hk := .bind hm fun a t ht ha => ha.elim fun a' ha => hk a a' t t ht ha
  token hk := .token (hk _ _ rfl rfl)
  type? _ hk := .type? (hk _ trivial)
  advance _ hk := .advance hk
  refuse h := .refuse h

theorem congruent_any : Expr.Congruent (fun _ => True) fun _ _ => True :=
  ⟨trivial, trivial, fun _ => trivial, fun _ _ => trivial, fun _ _ _ => trivial,
    fun _ _ _ _ _ _ _ => trivial⟩

theorem accounts_expr (c : Cursor) (scope : String) (s : Place) :
    Accounts c (fun e t => c.Holds t e) (expr scope) s := by
  refine ((accounts_rules c scope).expr congruent_any s s).mono fun e t hs ht _ => ?_
  obtain ⟨_, w, tree, hoffers, hsame⟩ := expr_sound ⟨s.symbols, scope⟩ s.cursor e t ht
  exact ⟨_, w, tree, _, _, hs, hoffers, .refl, hsame⟩

end Expressions

section Declarations

variable {c : Cursor} {s : Place}

theorem accounts_head : Accounts c (fun _ _ => True) head s := by
  rw [head_eq]
  apply Accounts.token
  cases s.cursor.current.kind with
  | typeWord word =>
    refine .advance (.token ?_)
    cases s.cursor.advance.current.kind with
    | name name => exact .advance (.pure trivial)
    | _ => exact .missing _
  | _ => exact .missing _

theorem accounts_params (function : String) (before : List Param) :
    Accounts c (fun _ _ => True) (params function before) s := by
  -- Every parameter but the last is followed by a comma, which leaves fewer tokens behind it.
  induction hn : s.cursor.size using Nat.strongRecOn generalizing s before with
  | ind n ih =>
    subst hn
    rw [params_eq]
    apply Accounts.token
    cases hk : s.cursor.current.kind with
    | typeWord word =>
      have hless := Cursor.size_advance_lt (c := s.cursor) fun he => (by cases hk.symm.trans he)
      refine .advance (.token ?_)
      cases s.cursor.advance.current.kind with
      | name name =>
        simp only
        split
        · exact .refuse (by simp)
        · refine .advance (.declare (.token ?_))
          simp only
          split
          · have h₂ := Cursor.size_advance_le s.cursor.advance
            have h₃ := Cursor.size_advance_le s.cursor.advance.advance
            exact .advance (ih _ (Nat.lt_of_le_of_lt (Nat.le_trans h₃ h₂) hless) _ rfl)
          · exact .pure trivial
      | _ => exact .missing _
    | _ => exact .missing _

theorem accounts_prototype (start : Span) (returns : Ty) (name : String) :
    Accounts c (fun _ _ => True) (prototype start returns name) s := by
  rw [prototype_eq]
  apply Accounts.token
  simp only
  split
  · exact .insist fun _ => .token (.declare (.advance (.pure trivial)))
  · refine .bind (accounts_params name []) fun ps t _ _ => ?_
    exact .insist fun _ => .token (.declare (.advance (.pure trivial)))

theorem accounts_initializer (type : Ty) (name : String) :
    Accounts c (fun _ _ => True) (initializer type name) s :=
  ((accounts_rules c "").initializer type name s s).mono fun _ _ _ _ _ => trivial

theorem accounts_variableRest (scope : String) (start : Span) (type : Ty) (name : String) :
    Accounts c (fun d _ => ∀ e, ¬d.Has e) (variableRest scope start type name) s := by
  rw [variableRest_eq]
  apply Accounts.token
  cases s.cursor.current.kind with
  | semicolon => exact .declare (.pure (by rintro e ⟨⟩))
  | equals =>
    refine .advance (.declare (.bind (accounts_initializer type name) fun init t _ _ => ?_))
    exact .insist fun _ => .token (.pure (by rintro e ⟨⟩))
  | _ => exact .missing _

theorem accounts_localVariable (scope : String) {word : TypeWord}
    (hk : s.cursor.kind = .typeWord word) :
    Accounts c (fun d _ => ∀ e, ¬d.Has e) (localVariable scope) s := by
  rw [localVariable_eq]
  refine .of_leads fun hs => .token (.bind accounts_head ?_)
  rintro ⟨type, name⟩ t _ _
  apply Accounts.token
  split
  · exact .throw fun _ => ⟨s.cursor, hs, rfl, fun _ _ => ⟨word, hk⟩⟩
  · exact accounts_variableRest scope _ type name

def HoldsBody (c : Cursor) (r : List Stmt × Option Expr) (d : Cursor) : Prop :=
  (∀ st ∈ r.1, ∀ e, st.Has e → c.Holds d e) ∧ ∀ e ∈ r.2, c.Holds d e

theorem HoldsBody.cons {st : Stmt} {r : List Stmt × Option Expr} {d d' : Cursor}
    (hst : ∀ e, st.Has e → c.Holds d e) (hd : d.Leads d') (hr : HoldsBody c r d') :
    HoldsBody c (st :: r.1, r.2) d' :=
  ⟨List.forall_mem_cons.mpr ⟨fun e he => (hst e he).onward hd, hr.1⟩, hr.2⟩

theorem accounts_body (function : String) : Accounts c (HoldsBody c) (body function) s := by
  -- Every statement is followed by a semicolon, which leaves fewer tokens behind it.
  induction hn : s.cursor.size using Nat.strongRecOn generalizing s with
  | ind n ih =>
    subst hn
    have hrest : ∀ (st : Stmt) (what : Expected) {t : Place}, s.cursor.Leads t.cursor →
        (∀ e, st.Has e → c.Holds t.cursor e) → Accounts c (HoldsBody c) (do
          pass .semicolon what
          bodyAfter function st) t := by
      intro st what t ht hst
      refine .pass fun hsemicolon => ?_
      have hne : t.cursor.kind ≠ .eof := fun he => (by cases hsemicolon.symm.trans he)
      have hless := Nat.lt_of_lt_of_le (Cursor.size_advance_lt hne) ht.size_le
      refine .bind (ih _ hless rfl) ?_
      rintro ⟨stmts, result⟩ u hu hr
      exact .pure (HoldsBody.cons hst (Cursor.Leads.after hu) hr)
    have hexpression : Accounts c (HoldsBody c) (bodyOfExpr function) s := by
      refine .bind (accounts_expr c function s) fun e t ht he => hrest (.expression e) _ ht ?_
      rintro _ ⟨⟩
      exact he
    rw [body_eq]
    apply Accounts.token
    cases hk : s.cursor.current.kind with
    | closeBrace => exact .pure ⟨by simp, by simp⟩
    | returnWord =>
      refine .advance (.bind (accounts_expr c function _) fun e t _ he => ?_)
      refine .pass fun _ => .insist fun _ => .pure ⟨by simp, ?_⟩
      rintro _ ⟨⟩
      exact he.onward (.advance .refl)
    | eof => exact .missing _
    | typeWord word =>
      refine .bind (accounts_localVariable function hk) fun decl t ht hdecl => ?_
      refine hrest (.declaration decl) _ ht ?_
      rintro e ⟨has⟩
      exact absurd has (hdecl e)
    | _ => exact hexpression

theorem accounts_global :
    Accounts c (fun d t => ∀ e, d.Has e → c.Holds t e) global s := by
  rw [global_eq]
  refine .token (.bind accounts_head ?_)
  rintro ⟨type, name⟩ t _ _
  apply Accounts.token
  simp only
  split
  · refine .advance (.bind (accounts_prototype _ type name) fun proto u _ _ => .token ?_)
    cases u.cursor.current.kind with
    | semicolon => exact .pure (by rintro e ⟨⟩)
    | openBrace =>
      refine .advance (.bind (accounts_body name) ?_)
      rintro ⟨stmts, result⟩ v _ ⟨hstmts, hresult⟩
      refine .pure ?_
      rintro e (⟨hst, has⟩ | _)
      · exact hstmts _ hst e has
      · exact hresult e rfl
    | _ => exact .missing _
  · refine (accounts_variableRest "" _ type name).mono fun d u _ _ hnone e has => ?_
    exact absurd has (hnone e)

theorem accounts_skip : Accounts c (fun _ _ => True) skip s := by
  intro _
  refine ⟨?_, by rintro err t ⟨⟩⟩
  rintro _ _ ⟨⟩
  exact ⟨(steady_skip s).leads, trivial⟩

theorem accounts_form : Accounts c (fun piece t => ∀ e, piece.Has e → c.Holds t e) form s := by
  unfold form
  apply Accounts.token
  have hexpression : Accounts c (fun (piece : Piece) t => ∀ e, piece.Has e → c.Holds t e) (do
      let e ← expr ""
      insist .semicolon .afterExpression
      return .expression e) s := by
    refine .bind (accounts_expr c "" s) fun e t _ he => .insist fun _ => .pure ?_
    rintro _ ⟨⟩
    exact he
  cases s.cursor.current.kind with
  | eof => exact .pure (by rintro e ⟨⟩)
  | includeWord => exact .bind accounts_skip fun _ _ _ _ => .pure (by rintro e ⟨⟩)
  | typeWord word =>
    refine .bind accounts_global fun d t _ hd => .pure ?_
    rintro e ⟨has⟩
    exact hd e has
  | _ => exact hexpression

end Declarations

end Reader

namespace Cursor

variable {c d a b : Cursor} {w : List Token}

theorem Blames.before {err : ParseError} (h : d.Blames err) (hd : c.Leads d) : c.Blames err := by
  obtain ⟨b, hb, habout⟩ := h
  exact ⟨b, hd.trans hb, habout⟩

theorem Leads.exists_advance (h : c.advance.Leads d) : ∃ b, c.Leads b ∧ d = b.advance := by
  cases h with
  | refl => exact ⟨c, .refl, rfl⟩
  | advance h => exact ⟨_, h.after, rfl⟩

theorem Leads.current (h : c.advance.Leads d) :
    d.current ∈ c.stream.pending ∨ d.current = ⟨.eof, c.stream.ending⟩ := by
  obtain ⟨b, hb, rfl⟩ := h.exists_advance
  unfold Cursor.advance TokenStream.next
  cases hp : b.stream.pending with
  | nil => exact .inr (by rw [hb.stream])
  | cons t ts =>
    refine .inl (hb.suffix.subset ?_)
    rw [hp]
    exact List.mem_cons_self

theorem taken_append (h : c.Leads d) : c.taken d ++ d.stream.pending = c.stream.pending := by
  obtain ⟨front, hfront⟩ := h.suffix
  simp [taken, ← hfront]

theorem Yields.going (h : c.Yields w d) : ∀ t ∈ w, t.kind ≠ .eof := by
  induction h with
  | nil => simp
  | cons hc _ ih => exact List.forall_mem_cons.mpr ⟨hc, ih⟩

theorem Yields.pending (h : c.advance.Yields w d) :
    ∃ later, c.stream.pending = w ++ later ∧ d.stream.pending.length ≤ later.length := by
  generalize hnext : c.advance = b at h
  induction h generalizing c with
  | nil =>
    refine ⟨c.stream.pending, rfl, ?_⟩
    rw [← hnext, pending_advance, List.length_tail]
    exact Nat.sub_le _ _
  | cons hc _ ih =>
    subst hnext
    obtain ⟨later, hlater, hlength⟩ := ih rfl
    exact ⟨later, by rw [pending_of_advance hc, hlater, List.cons_append], hlength⟩

theorem Yields.infix_taken (ha : c.advance.Leads a) (h : a.Yields w b) (hb : b.Leads d) :
    w <:+: c.taken d := by
  obtain ⟨x, hx, rfl⟩ := ha.exists_advance
  obtain ⟨later, hlater, hless⟩ := h.pending
  obtain ⟨front, hfront⟩ := hx.suffix
  have hleft := hb.suffix.length_le
  refine ⟨front, later.take (later.length - d.stream.pending.length), ?_⟩
  have hcount : c.stream.pending.length - d.stream.pending.length =
      (front ++ w).length + (later.length - d.stream.pending.length) := by
    simp only [← hfront, hlater, List.length_append]
    omega
  rw [taken, hcount, ← hfront, hlater, ← List.append_assoc, List.take_length_add_append]

end Cursor

namespace Parser

variable {p q : Parser} {ps : List Parser}

def tokens (p : Parser) : List Token := p.cursor.taken p.next.parser.cursor

theorem nested_next {cs : List Char} (htokens : p.cursor.stream.pending <:+ tokenize cs)
    (hgoing : p.cursor.advance.kind ≠ .eof) {form : Form} (hform : form ∈ p.next.result) {e : Expr}
    (has : form.Has e) : e.Nested p.tokens := by
  have hnext := p.next_eq
  cases hread : Reader.form p.begin with
  | error err t =>
    rw [hread] at hnext
    rw [(Prod.mk.inj hnext).1] at hform
    cases hform
  | ok piece t =>
    rw [hread] at hnext
    obtain ⟨hresult, hparser⟩ := Prod.mk.inj hnext
    have hmore : piece ≠ .ending :=
      fun hended => hgoing ((Reader.ends_form p.counter p.begin piece t hread).ending.mp hended)
    obtain ⟨-, holds⟩ := (Reader.accounts_form .refl).1 piece t hread
    obtain ⟨names, w, tree, a, b, ha, ⟨⟨greedy, hderives⟩, hw, -⟩, hb, rfl⟩ :=
      holds e (Piece.has_of_form? (hresult ▸ hform) hmore has)
    have hcursor : p.next.parser.cursor = t.cursor := by
      rw [hparser]
      rfl
    have hinside : w <:+: p.tokens := by
      rw [tokens, hcursor]
      exact hw.infix_taken ha hb
    have hsublist : w.Sublist (tokenize cs) :=
      hinside.sublist.trans ((List.take_sublist _ _).trans htokens.sublist)
    exact (Names.nested_of_derives hderives (laid_tokenize hsublist hw.going)).mono hinside.subset

theorem blames_next (p : Parser) :
    ∀ err ∈ p.next.parser.errors, err ∈ p.errors ∨ p.cursor.advance.Blames err := by
  have hnext := p.next_eq
  cases hread : Reader.form p.begin with
  | error e t =>
    rw [hread] at hnext
    rw [(Prod.mk.inj hnext).2]
    have hblames : p.cursor.advance.Blames e := (Reader.accounts_form .refl).2 e t hread
    refine List.forall_mem_append.mpr ⟨fun err herr => .inl herr, ?_⟩
    exact List.forall_mem_singleton.mpr (.inr hblames)
  | ok piece t =>
    rw [hread] at hnext
    rw [(Prod.mk.inj hnext).2]
    exact fun err herr => .inl herr

theorem leads_following (p : Parser) : p.cursor.advance.Leads p.following.cursor := by
  rw [cursor_following]
  exact p.disciplined.takes

namespace Stages

theorem leads (h : Stages p ps q) :
    ∀ r ∈ ps, p.cursor.Leads r.cursor ∧ r.cursor.advance.kind ≠ .eof := by
  induction h with
  | ending _ => simp
  | @form p q ps hgoing _ ih =>
    refine List.forall_mem_cons.mpr ⟨⟨.refl, hgoing⟩, fun r hr => ?_⟩
    exact ⟨p.leads_following.after.trans (ih r hr).1, (ih r hr).2⟩

theorem flatMap_tokens (h : Stages p ps q) :
    p.cursor.stream.pending = ps.flatMap tokens ++ q.cursor.stream.pending := by
  induction h with
  | ending _ => rfl
  | @form p q ps _ _ ih =>
    rw [List.flatMap_cons, List.append_assoc, ← ih, cursor_following, tokens]
    exact (Cursor.taken_append p.disciplined.takes.after).symm

theorem blames (h : Stages p ps q) :
    ∀ err ∈ q.next.parser.errors, err ∈ p.errors ∨ p.cursor.advance.Blames err := by
  induction h with
  | @ending p _ => exact p.blames_next
  | @form p q ps _ _ ih =>
    intro err herr
    rcases ih err herr with here | hlater
    · rw [errors_following] at here
      exact p.blames_next err here
    · exact .inr (hlater.before p.leads_following.advance)

end Stages

end Parser

/-- The tokens of a text are shared out among its forms and what follows the last one. The
expressions of a form nest on the tokens of the form. An error is about one token of the text, the
end being one of them; about a nested function, it is about the type that the function starts
with. -/
theorem parseText_spans (text : String) :
    ∃ ps q, Parser.Stages (.ofStream (.ofSource (.ofText text))) ps q ∧
      (parseText text).result = ps.filterMap (·.next.result) ∧
      tokenize text.toList = ps.flatMap Parser.tokens ++ q.cursor.stream.pending ∧
      (∀ p ∈ ps, ∀ form ∈ p.next.result, ∀ e, form.Has e → e.Nested p.tokens) ∧
      ∀ err ∈ (parseText text).parser.errors, ∃ t ∈ tokenize text.toList, err.span = t.span ∧
        ∀ name, err.cause = .nestedFunction name → ∃ word, t.kind = .typeWord word := by
  obtain ⟨ps, q, hstages, hresult, hparser⟩ :=
    Parser.stages_forms (.ofStream (.ofSource (.ofText text)))
  refine ⟨ps, q, hstages, hresult, hstages.flatMap_tokens, fun p hp form hform e has => ?_,
    fun err herr => ?_⟩
  · obtain ⟨hleads, hgoing⟩ := hstages.leads p hp
    exact Parser.nested_next hleads.suffix hgoing hform has
  · rw [parseText, hparser] at herr
    obtain ⟨d, hd, hspan, hnested⟩ := (hstages.blames err herr).resolve_left (by rintro ⟨⟩)
    refine ⟨d.current, ?_, hspan, hnested⟩
    rcases hd.current with hmem | hended
    · exact hmem
    · obtain ⟨us, hwhole, -⟩ := (lossless_tokenize text.toList).ended
      rw [hended, hwhole, ← Position.afterAll_first]
      exact List.mem_append_right _ (List.mem_singleton_self _)

end FormCompiler
