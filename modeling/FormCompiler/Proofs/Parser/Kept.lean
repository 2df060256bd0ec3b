import FormCompiler.Proofs.Parser.Rules

namespace FormCompiler.Reader

section Expressions

variable {α : Type} {W : String → Prop} {scope : String} {s : Place}

theorem Keeps.mono {P P' : α → Prop} {m : Reader α} (h : Keeps W P m s)
    (hP : ∀ a, P a → P' a) : Keeps W P' m s :=
  fun hw => { h hw with reads := fun a t ha => hP a ((h hw).reads a t ha) }

theorem keeps_rules (W : String → Prop) (scope : String) :
    Rules (fun R m _ s _ => Keeps W (fun a => ∃ a', R a a') m s) W scope where
  pure h := .pure ⟨_, h⟩
  bind hm hk := .bind hm fun a t ht ha => ha.elim fun a' ha => hk a a' t t ht ha
  token hk := .token (hk _ _ rfl rfl)
  type? hname hk := fun hw => Keeps.type? (hk _ (hw.name hname)) hw
  advance hinner hk := .advance hinner.1 hk
  refuse _ := .refuse _

theorem congruent_spelled (W : String → Prop) :
    Expr.Congruent W fun e _ => e.Spelled W where
  int := .int
  float := .float
  var := .var
  call hcallee hargs :=
    .call hcallee ((List.forall₂_and_left _ _).mp (hargs.imp fun _ _ h => ⟨h, trivial⟩)).1
  cond := .cond
  join op _ _ _ _ hlhs hrhs := hlhs.join hrhs op

theorem keeps_expr (s : Place) : Keeps W (Expr.Spelled W) (expr scope) s := by
  refine ((keeps_rules W scope).expr (congruent_spelled W) s s).mono ?_
  rintro e ⟨_, he⟩
  exact he

end Expressions

section Declarations

variable {W : String → Prop} {s : Place}

theorem keeps_head : Keeps W (fun r => W r.2) head s := by
  rw [head_eq]
  apply Keeps.token
  cases hk : s.cursor.current.kind with
  | typeWord word =>
    apply Keeps.advance (by simp [hk])
    apply Keeps.token
    cases hk : s.cursor.advance.current.kind with
    | name name => exact fun hw => Keeps.advance (by simp [hk]) (.pure (hw.name hk)) hw
    | _ => exact .missing _
  | _ => exact .missing _

theorem keeps_params (function : String) (before : List Param) :
    Keeps W (fun _ => True) (params function before) s := by
  -- Every parameter but the last is followed by a comma, which leaves fewer tokens behind it.
  induction hn : s.cursor.size using Nat.strongRecOn generalizing s before with
  | ind n ih =>
    subst hn
    rw [params_eq]
    apply Keeps.token
    cases hk : s.cursor.current.kind with
    | typeWord word =>
      have hless := Cursor.size_advance_lt (c := s.cursor) fun he => (by cases hk.symm.trans he)
      apply Keeps.advance (by simp [hk])
      apply Keeps.token
      cases hk : s.cursor.advance.current.kind with
      | name name =>
        simp only
        split
        · exact .refuse _
        · apply Keeps.advance (by simp [hk])
          apply Keeps.declare
          apply Keeps.token
          simp only
          split
          · case isTrue hcomma =>
            apply Keeps.advance (by simp [hcomma])
            refine ih _ ?_ _ rfl
            have h₂ := Cursor.size_advance_le s.cursor.advance
            have h₃ := Cursor.size_advance_le s.cursor.advance.advance
            exact Nat.lt_of_le_of_lt (Nat.le_trans h₃ h₂) hless
          · exact .pure trivial
      | _ => exact .missing _
    | _ => exact .missing _

theorem keeps_prototype (start : Span) (returns : Ty) (name : String) :
    Keeps W (fun p => p.name = name) (prototype start returns name) s := by
  rw [prototype_eq]
  apply Keeps.token
  simp only
  split
  · refine .insist fun hclose => ?_
    apply Keeps.token
    exact .declare (.advance (by simp [hclose]) (.pure rfl))
  · refine Keeps.bind (keeps_params name []) fun ps t _ _ => ?_
    refine .insist fun hclose => ?_
    apply Keeps.token
    exact .declare (.advance (by simp [hclose]) (.pure rfl))

theorem keeps_initializer (type : Ty) (name : String) :
    Keeps W (fun _ => True) (initializer type name) s :=
  ((keeps_rules W "").initializer type name s s).mono fun _ _ => trivial

theorem keeps_variableRest (scope : String) (start : Span) (type : Ty) {name : String}
    (hname : W name) : Keeps W (Declaration.Spelled W) (variableRest scope start type name) s := by
  rw [variableRest_eq]
  apply Keeps.token
  cases hk : s.cursor.current.kind with
  | semicolon => exact .declare (.pure (.variableOf hname))
  | equals =>
    apply Keeps.advance (by simp [hk])
    apply Keeps.declare
    refine Keeps.bind (keeps_initializer type name) fun init t _ _ => ?_
    refine .insist fun _ => ?_
    exact .token (.pure (.variableAs hname))
  | _ => exact .missing _

theorem keeps_localVariable (scope : String) :
    Keeps W (Declaration.Spelled W) (localVariable scope) s := by
  rw [localVariable_eq]
  apply Keeps.token
  refine Keeps.bind keeps_head ?_
  rintro ⟨type, name⟩ t _ hname
  apply Keeps.token
  split
  · exact .throw _
  · exact keeps_variableRest scope _ type hname

def SpelledBody (W : String → Prop) (r : List Stmt × Option Expr) : Prop :=
  (∀ st ∈ r.1, st.Spelled W) ∧ ∀ e ∈ r.2, e.Spelled W

theorem SpelledBody.cons {W : String → Prop} {st : Stmt} {r : List Stmt × Option Expr}
    (hst : st.Spelled W) (hr : SpelledBody W r) : SpelledBody W (st :: r.1, r.2) :=
  ⟨List.forall_mem_cons.mpr ⟨hst, hr.1⟩, hr.2⟩

theorem keeps_body (function : String) : Keeps W (SpelledBody W) (body function) s := by
  -- Every statement is followed by a semicolon, which leaves fewer tokens behind it.
  induction hn : s.cursor.size using Nat.strongRecOn generalizing s with
  | ind n ih =>
    subst hn
    have hrest : ∀ (st : Stmt) {t : Place}, s.cursor.Leads t.cursor → st.Spelled W →
        t.cursor.current.kind = .semicolon →
        Keeps W (SpelledBody W) (bodyAfter function st) ⟨t.symbols, t.cursor.advance⟩ := by
      intro st t ht hst hsemicolon
      have hne : t.cursor.kind ≠ .eof := fun he => (by cases hsemicolon.symm.trans he)
      have hless := Nat.lt_of_lt_of_le (Cursor.size_advance_lt hne) ht.size_le
      refine Keeps.bind (ih _ hless rfl) ?_
      rintro ⟨stmts, result⟩ u _ hr
      exact .pure (SpelledBody.cons hst hr)
    have hexpression : Keeps W (SpelledBody W) (bodyOfExpr function) s := by
      refine Keeps.bind (keeps_expr s) fun e t ht he => ?_
      exact .pass (by simp) fun hsemicolon => hrest (.expression e) ht he hsemicolon
    rw [body_eq]
    apply Keeps.token
    cases hk : s.cursor.current.kind with
    | closeBrace => exact .pure ⟨fun _ h => (by cases h), fun _ h => (by cases h)⟩
    | returnWord =>
      apply Keeps.advance (by simp [hk])
      refine Keeps.bind (keeps_expr _) fun e t _ he => ?_
      refine .pass (by simp) fun _ => ?_
      refine .insist fun _ => ?_
      refine .pure ⟨fun _ h => (by cases h), ?_⟩
      exact fun e' he' => Option.mem_some.mp he' ▸ he
    | eof => exact .missing _
    | typeWord word =>
      refine Keeps.bind (keeps_localVariable function) fun decl t ht _ => ?_
      exact .pass (by simp) fun hsemicolon => hrest (.declaration decl) ht trivial hsemicolon
    | _ => exact hexpression

theorem keeps_global : Keeps W (Declaration.Spelled W) global s := by
  rw [global_eq]
  apply Keeps.token
  refine Keeps.bind keeps_head ?_
  rintro ⟨type, name⟩ t _ hname
  apply Keeps.token
  simp only
  split
  · case isTrue hopen =>
    apply Keeps.advance (by simp [hopen])
    refine Keeps.bind (keeps_prototype _ type name) fun proto u _ hproto => ?_
    apply Keeps.token
    cases hk : u.cursor.current.kind with
    | semicolon => exact .pure (.prototype (hproto ▸ hname))
    | openBrace =>
      apply Keeps.advance (by simp [hk])
      refine Keeps.bind (keeps_body name) ?_
      rintro ⟨stmts, result⟩ v _ ⟨hstmts, hresult⟩
      exact .pure (.function (hproto ▸ hname) hstmts hresult)
    | _ => exact .missing _
  · exact keeps_variableRest "" _ type hname

def skip : Reader Unit := fun s => .ok () ⟨s.symbols, s.cursor.skipForm⟩

theorem skip_eq : skip = (do
    if (← token).kind.isBoundary then return ()
    else do
      advance
      skip) := by
  funext ⟨symbols, c⟩
  rw [token_bind]
  conv => lhs; unfold skip
  rw [Cursor.skipForm]
  change _ = (if c.kind.isBoundary then _ else _ : Reader Unit) _
  by_cases h : c.kind.isBoundary = true
  · rw [if_pos h, if_pos h]
    rfl
  · rw [if_neg h, if_neg h]
    rfl

theorem keeps_skip : Keeps W (fun _ => True) skip s := by
  induction hn : s.cursor.size using Nat.strongRecOn generalizing s with
  | ind n ih =>
    subst hn
    rw [skip_eq]
    apply Keeps.token
    split
    · exact .pure trivial
    next h =>
      have hne : s.cursor.kind ≠ .eof := by
        intro he
        rw [show s.cursor.current.kind = _ from he] at h
        exact h rfl
      apply Keeps.advance hne
      exact ih _ (Cursor.size_advance_lt hne) rfl

end Declarations

end FormCompiler.Reader
