import FormCompiler.Proofs.Parser.Doubts

namespace FormCompiler

namespace Reader

section Expressions

variable {scope : String} {harmless : String → Bool} {last doubts : Doubts} {s s' : Place}

def ReadAlike (scope : String) (harmless : String → Bool) (last doubts : Doubts) (e e' : Expr)
    (t t' : Place) : Prop :=
  e.Alike e' ∧ Abreast scope harmless last doubts t t'

theorem together_rules (scope : String) (harmless : String → Bool) (last doubts : Doubts) :
    Rules (fun R m m' s s' => Abreast scope harmless last doubts s s' →
      Together (fun a a' t t' => R a a' ∧ Abreast scope harmless last doubts t t') m m' s s')
      (fun _ => True) scope where
  pure ha h := .pure ⟨ha, h⟩
  bind hm hk h := .bind (hm h) fun a a' t t' ht ha => hk a a' t t' ht ha.1 ha.2
  token hk h := .token (hk _ _ rfl h.kind h)
  type? hname hk h := by
    apply Together.type?
    rw [h.lookup? hname]
    exact hk _ trivial h
  advance hinner hk h := .advance (hk (h.advance rfl hinner.2))
  refuse _ h := .refuse h.kinds _ _

theorem congruent_alike : Expr.Congruent (fun _ => True) Expr.Alike where
  int := .int
  float := .float
  var _ := .var
  call _ := .call
  cond := .cond
  join op _ _ _ _ hlhs hrhs := hlhs.join hrhs op

theorem together_expr (h : Abreast scope harmless last doubts s s') :
    Together (ReadAlike scope harmless last doubts) (expr scope) (expr scope) s s' :=
  (together_rules scope harmless last doubts).expr congruent_alike s s' h

end Expressions

section Declarations

variable {scope : String} {harmless : String → Bool} {last doubts : Doubts} {s s' : Place}

structure HeadAlike (s s' : Place) (r r' : Ty × String) (t t' : Place) : Prop where
  same : r' = r
  word : ∃ word, s.cursor.current.kind = .typeWord word
  name : s.cursor.advance.current.kind = .name r.2
  place : t = ⟨s.symbols, s.cursor.advance.advance⟩
  place' : t' = ⟨s'.symbols, s'.cursor.advance.advance⟩

theorem together_head (h : s'.cursor.kinds = s.cursor.kinds) :
    Together (HeadAlike s s') head head s s' := by
  rw [head_eq]
  apply Together.token
  simp only [Cursor.kind_of_kinds h]
  cases hk : s.cursor.current.kind with
  | typeWord word =>
    have hkinds := Cursor.advance_of_kinds h
    apply Together.advance
    apply Together.token
    simp only [Cursor.kind_of_kinds hkinds]
    cases hname : s.cursor.advance.current.kind with
    | name name => exact .advance (.pure ⟨rfl, ⟨word, hk⟩, hname, rfl, rfl⟩)
    | _ => exact .missing hkinds _
  | _ => exact .missing h _

theorem together_params {function : String} (before : List Param)
    (h : Abreast function harmless last doubts s s') :
    Together
      (fun ps ps' t t' => ps' = ps ∧ ∃ doubts, Abreast function harmless last doubts t t')
      (params function before) (params function before) s s' := by
  -- Every parameter but the last is followed by a comma, which leaves fewer tokens behind it.
  induction hn : s.cursor.size using Nat.strongRecOn generalizing s s' doubts before with
  | ind n ih =>
    subst hn
    rw [params_eq]
    apply Together.token
    simp only [h.kind]
    cases hk : s.cursor.current.kind with
    | typeWord word =>
      have hless := Cursor.size_advance_lt (c := s.cursor) (hk.trans_ne (by simp))
      have hkinds := Cursor.advance_of_kinds h.kinds
      apply Together.advance
      apply Together.token
      simp only [Cursor.kind_of_kinds hkinds]
      cases hname : s.cursor.advance.current.kind with
      | name name =>
        have hnext := h.declare hk hname (.ofWord word)
        simp only
        split
        · exact .refuse hkinds _ _
        · apply Together.advance
          apply Together.declare
          apply Together.token
          rw [hnext.kind]
          simp only
          split
          next hcomma =>
            apply Together.advance
            refine ih _ ?_ _ (hnext.advance hcomma (by simp)) rfl
            have h₂ := Cursor.size_advance_le s.cursor.advance
            have h₃ := Cursor.size_advance_le s.cursor.advance.advance
            exact Nat.lt_of_le_of_lt (Nat.le_trans h₃ h₂) hless
          · exact .pure ⟨rfl, _, hnext⟩
      | _ => exact .missing hkinds _
    | _ => exact .missing h.kinds _

def PrototypeAlike (name : String) (harmless : String → Bool) (last : Doubts) (p p' : Prototype)
    (t t' : Place) : Prop :=
  p'.signature = p.signature ∧ ∃ doubts, Abreast name harmless last doubts t t'

theorem together_prototype (start start' : Span) (returns : Ty) {name : String}
    (hname : IsName name) (h : Abreast name harmless last doubts s s') :
    Together (PrototypeAlike name harmless last) (prototype start returns name)
      (prototype start' returns name) s s' := by
  have hending : ∀ (ps : List Param) (doubts : Doubts) (t t' : Place),
      Abreast name harmless last doubts t t' → Together (PrototypeAlike name harmless last)
        (do
          insist .closeParen .endOfParameters
          let t ← token
          declare "" name returns
          advance
          return ⟨returns, name, ps, start.through t.span⟩)
        (do
          insist .closeParen .endOfParameters
          let t ← token
          declare "" name returns
          advance
          return ⟨returns, name, ps, start'.through t.span⟩) t t' := by
    intro ps doubts t t' ht
    refine .insist ht.kinds fun hclose => ?_
    apply Together.token
    have hafter := ht.advance hclose (by simp)
    have hnext := hafter.declare_scope hname returns
    exact .declare (.advance (.pure ⟨rfl, _, hnext⟩))
  rw [prototype_eq, prototype_eq]
  apply Together.token
  simp only [h.kind]
  split
  · exact hending [] _ s s' h
  · refine Together.bind (together_params [] h) ?_
    rintro _ ps t t' _ ⟨rfl, doubts, ht⟩
    exact hending ps _ t t' ht

theorem together_initializer (type : Ty) (name : String)
    (h : Abreast scope harmless last doubts s s') :
    Together (fun init init' t t' => init = init' ∧ Abreast scope harmless last doubts t t')
      (initializer type name) (initializer type name) s s' :=
  (together_rules scope harmless last doubts).initializer type name s s' h

def VariableAlike (scope : String) (harmless : String → Bool) (last : Doubts) (d d' : Declaration)
    (t t' : Place) : Prop :=
  Stmt.Alike (.declaration d) (.declaration d') ∧
    (∃ doubts, Abreast scope harmless last doubts t t') ∧ t.cursor.current.kind = .semicolon

theorem together_variableRest (start start' : Span) (type : Ty) (name : String)
    (h : Abreast scope harmless last doubts ⟨s.symbols.declare scope name type, s.cursor⟩
      ⟨s'.symbols.declare scope name type, s'.cursor⟩) :
    Together (VariableAlike scope harmless last) (variableRest scope start type name)
      (variableRest scope start' type name) s s' := by
  have hkinds : s'.cursor.kinds = s.cursor.kinds := h.kinds
  rw [variableRest_eq, variableRest_eq]
  apply Together.token
  simp only [Cursor.kind_of_kinds hkinds]
  cases hk : s.cursor.current.kind with
  | semicolon => exact .declare (.pure ⟨.variableOf, ⟨_, h⟩, hk⟩)
  | equals =>
    have hnext := h.advance hk (by simp)
    apply Together.advance
    apply Together.declare
    refine Together.bind (together_initializer type name hnext) ?_
    rintro init _ t t' _ ⟨rfl, ht⟩
    refine .insist ht.kinds fun hsemicolon => ?_
    exact .token (.pure ⟨.variableAs, ⟨_, ht⟩, hsemicolon⟩)
  | _ => exact .missing hkinds _

theorem together_localVariable (h : Abreast scope harmless last doubts s s') :
    Together (VariableAlike scope harmless last) (localVariable scope) (localVariable scope)
      s s' := by
  rw [localVariable_eq]
  apply Together.token
  refine Together.bind (together_head h.kinds) ?_
  rintro ⟨type, name⟩ _ _ _ _ ⟨rfl, ⟨word, hword⟩, hname, rfl, rfl⟩
  have hkinds := Cursor.advance_of_kinds (Cursor.advance_of_kinds h.kinds)
  apply Together.token
  simp only [Cursor.kind_of_kinds hkinds]
  split
  · exact .throw hkinds _ _
  · exact together_variableRest _ _ type name (h.declare hword hname type)

def BodyAlike (function : String) (harmless : String → Bool) (last : Doubts)
    (r r' : List Stmt × Option Expr) (t t' : Place) : Prop :=
  List.Forall₂ Stmt.Alike r.1 r'.1 ∧ Option.Rel Expr.Alike r.2 r'.2 ∧
    (∃ doubts, Abreast function harmless last doubts t t') ∧ t.cursor.current.kind = .closeBrace

theorem together_body {function : String} (h : Abreast function harmless last doubts s s') :
    Together (BodyAlike function harmless last) (body function) (body function) s s' := by
  -- Every statement is followed by a semicolon, which leaves fewer tokens behind it.
  induction hn : s.cursor.size using Nat.strongRecOn generalizing s s' doubts with
  | ind n ih =>
    subst hn
    have hrest : ∀ (st st' : Stmt) {doubts : Doubts} {t t' : Place}, st.Alike st' →
        s.cursor.Leads t.cursor → Abreast function harmless last doubts t t' →
        t.cursor.current.kind = .semicolon → Together (BodyAlike function harmless last)
          (bodyAfter function st) (bodyAfter function st')
          ⟨t.symbols, t.cursor.advance⟩ ⟨t'.symbols, t'.cursor.advance⟩ := by
      intro st st' doubts t t' hst hl ht hsemicolon
      have hne : t.cursor.kind ≠ .eof := hsemicolon.trans_ne (by simp)
      have hless := Nat.lt_of_lt_of_le (Cursor.size_advance_lt hne) hl.size_le
      have hnext := ht.advance hsemicolon (by simp)
      refine Together.bind (ih _ hless hnext rfl) ?_
      rintro ⟨stmts, result⟩ ⟨stmts', result'⟩ u u' _ ⟨hstmts, hresult, hu⟩
      exact .pure ⟨.cons hst hstmts, hresult, hu⟩
    have hexpression : Together (BodyAlike function harmless last) (bodyOfExpr function)
        (bodyOfExpr function) s s' := by
      refine Together.bind (together_expr h) ?_
      rintro e e' t t' hl ⟨he, ht⟩
      exact .pass ht.kinds fun hsemicolon => hrest _ _ (.expression he) hl ht hsemicolon
    rw [body_eq]
    apply Together.token
    simp only [h.kind]
    cases hk : s.cursor.current.kind with
    | closeBrace => exact .pure ⟨.nil, .none, ⟨_, h⟩, hk⟩
    | returnWord =>
      apply Together.advance
      refine Together.bind (together_expr (h.advance hk (by simp))) ?_
      rintro e e' t t' _ ⟨he, ht⟩
      refine .pass ht.kinds fun hsemicolon => ?_
      have hnext := ht.advance hsemicolon (by simp)
      refine .insist hnext.kinds fun hclose => ?_
      exact .pure ⟨.nil, .some he, ⟨_, hnext⟩, hclose⟩
    | eof => exact .missing h.kinds _
    | typeWord word =>
      refine Together.bind (together_localVariable h) ?_
      rintro decl decl' t t' hl ⟨hdecl, ⟨doubts, ht⟩, _⟩
      exact .pass ht.kinds fun hsemicolon => hrest _ _ hdecl hl ht hsemicolon
    | _ => exact hexpression

structure Before (last doubts : Doubts) (s s' : Place) : Prop where
  kinds : s'.cursor.kinds = s.cursor.kinds
  named : s.cursor.Spelled IsName
  tables : s.symbols.AgreeBut doubts s'.symbols
  settles : doubts.afterForm? s.symbols s.cursor.kinds = some last

namespace Before

theorem abreast (h : Before last doubts s s') : Abreast "" (fun _ => true) doubts doubts s s' where
  kinds := h.kinds
  named := h.named
  tables := h.tables
  isScope := .inl rfl
  agrees := fun name hdoubt => absurd hdoubt (h.tables.global name)
  settles := Doubts.settle?_clear h.tables.global false

variable {word : TypeWord} {name : String}

theorem isName (h : Before last doubts s s') (hname : s.cursor.advance.current.kind = .name name) :
    IsName name := h.named.advance.name hname

theorem enter (h : Before last doubts s s') (hword : s.cursor.current.kind = .typeWord word)
    (hname : s.cursor.advance.current.kind = .name name)
    (hopen : s.cursor.advance.advance.current.kind = .openParen) :
    Abreast name (doubts.harmless s.symbols name) last doubts
      ⟨s.symbols, s.cursor.advance.advance.advance⟩
      ⟨s'.symbols, s'.cursor.advance.advance.advance⟩ := by
  have hne : s.cursor.advance.current.kind ≠ .eof := hname.trans_ne (by simp)
  have hne' : s.cursor.advance.advance.current.kind ≠ .eof := hopen.trans_ne (by simp)
  have hsettles := h.settles
  rw [Cursor.kinds_of_advance hne, Cursor.kinds_of_advance hne', Cursor.kinds_eq, hword, hname,
    hopen] at hsettles
  exact ⟨Cursor.advance_of_kinds (Cursor.advance_of_kinds (Cursor.advance_of_kinds h.kinds)),
    h.named.advance.advance.advance, h.tables, .inr (h.isName hname),
    fun _ => h.tables.lookup?_harmless, Abreast.settle?_advance hsettles⟩

theorem last_eq (h : Before last doubts s s')
    (hname : s.cursor.advance.current.kind = .name name)
    (hopen : s.cursor.advance.advance.current.kind ≠ .openParen) : last = doubts := by
  have hsettles := h.settles
  have hne : s.cursor.advance.current.kind ≠ .eof := hname.trans_ne (by simp)
  unfold Doubts.afterForm? at hsettles
  split at hsettles
  next word' function kinds he =>
    rw [Cursor.kinds_of_advance hne] at he
    have hadvance := (List.cons.inj he).2
    have hthird := s.cursor.advance.kinds_advance
    rw [hadvance, List.tail_cons, if_neg (List.cons_ne_nil _ _)] at hthird
    exact absurd (List.cons.inj hthird).1 hopen
  next => exact (Option.some.inj hsettles).symm

end Before

def DeclaredAlike (last : Doubts) (d d' : Declaration) (t t' : Place) : Prop :=
  d.Alike d' ∧ (∃ scope harmless doubts, Abreast scope harmless last doubts t t') ∧
    (t.cursor.current.kind = .semicolon ∨ t.cursor.current.kind = .closeBrace)

theorem together_global (h : Before last doubts s s') :
    Together (DeclaredAlike last) global global s s' := by
  rw [global_eq]
  apply Together.token
  refine Together.bind (together_head h.kinds) ?_
  rintro ⟨type, name⟩ _ _ _ _ ⟨rfl, ⟨word, hword⟩, hname, rfl, rfl⟩
  have hkinds := Cursor.advance_of_kinds (Cursor.advance_of_kinds h.kinds)
  apply Together.token
  simp only [Cursor.kind_of_kinds hkinds]
  split
  next hopen =>
    apply Together.advance
    have hinside := h.enter hword hname hopen
    refine Together.bind (together_prototype _ _ type (h.isName hname) hinside) ?_
    rintro p p' t t' _ ⟨hp, doubts, ht⟩
    apply Together.token
    simp only [ht.kind]
    cases hk : t.cursor.current.kind with
    | semicolon => exact .pure ⟨.prototype (congrArg _ hp), ⟨_, _, _, ht⟩, .inl hk⟩
    | openBrace =>
      apply Together.advance
      have hnext := ht.advance hk (by simp)
      refine Together.bind (together_body hnext) ?_
      rintro ⟨stmts, result⟩ ⟨stmts', result'⟩ u u' _ ⟨hstmts, hresult, ⟨doubts, hu⟩, hclose⟩
      exact .pure ⟨.function hp hstmts hresult, ⟨_, _, _, hu⟩, .inr hclose⟩
    | _ => exact .missing ht.kinds _
  next hopen =>
    refine (together_variableRest _ _ type name (h.abreast.declare hword hname type)).mono ?_
    rintro d d' t t' ⟨hd, ⟨doubts', ht⟩, hsemicolon⟩
    exact ⟨hd.declaration, ⟨"", _, doubts', h.last_eq hname hopen ▸ ht⟩, .inl hsemicolon⟩

end Declarations

inductive PieceAlike (last : Doubts) : Piece → Piece → Place → Place → Prop
  | ending {t t' : Place} : PieceAlike last .ending .ending t t'
  | skipped {t t' : Place} : PieceAlike last .skipped .skipped t t'
  | declaration {d d' : Declaration} {t t' : Place} : DeclaredAlike last d d' t t' →
      PieceAlike last (.declaration d) (.declaration d') t t'
  | expression {e e' : Expr} {t t' : Place} : e.Alike e' →
      PieceAlike last (.expression e) (.expression e') t t'

theorem together_skip {s s' : Place} (h : s'.cursor.kinds = s.cursor.kinds) :
    Together (fun _ _ t t' => t'.cursor.kinds = t.cursor.kinds) skip skip s s' :=
  .ok ⟨(steady_skip s).leads, Cursor.skipForm_of_kinds h⟩

theorem together_form {last doubts : Doubts} {s s' : Place} (h : Before last doubts s s') :
    Together (fun piece piece' t t' => t'.cursor.kinds = t.cursor.kinds ∧
      PieceAlike last piece piece' t t') form form s s' := by
  unfold form
  apply Together.token
  simp only [Cursor.kind_of_kinds h.kinds]
  have hexpression : Together (fun piece piece' t t' => t'.cursor.kinds = t.cursor.kinds ∧
      PieceAlike last piece piece' t t')
      (do
        let e ← expr ""
        insist .semicolon .afterExpression
        return .expression e)
      (do
        let e ← expr ""
        insist .semicolon .afterExpression
        return .expression e) s s' := by
    refine Together.bind (together_expr h.abreast) ?_
    rintro e e' t t' _ ⟨he, ht⟩
    exact .insist ht.kinds fun _ => .pure ⟨ht.kinds, .expression he⟩
  cases s.cursor.current.kind with
  | eof => exact .pure ⟨h.kinds, .ending⟩
  | includeWord =>
    refine Together.bind (together_skip h.kinds) ?_
    intro _ _ t t' _ ht
    exact .pure ⟨ht, .skipped⟩
  | typeWord word =>
    refine Together.bind (together_global h) ?_
    rintro d d' t t' _ hd
    obtain ⟨_, _, _, ht⟩ := hd.2.1
    exact .pure ⟨ht.kinds, .declaration hd⟩
  | _ => exact hexpression

end Reader

inductive Reading.Abreast : Reading → Reading → Prop
  | nothing : Abreast .nothing .nothing
  | broken : Abreast .broken .broken
  | ending : Abreast .ending .ending
  | declaration {d d' : Declaration} : d.Alike d' → Abreast (.declaration d) (.declaration d')
  | expression {e e' : Expr} {counter : Nat} : e.Alike e' →
      Abreast (.expression (.wrap e counter)) (.expression (.wrap e' counter))

namespace Parser

def formKinds (p : Parser) : List Kind := (p.cursor.taken p.next.parser.cursor).map Token.kind

def cut (p : Parser) (n : Nat) : Parser :=
  { p with cursor := ⟨p.cursor.current,
    { p.cursor.stream with pending := p.cursor.stream.pending.take n }⟩ }

theorem extend_cut (p : Parser) (n : Nat) :
    (p.cut n).extend (p.cursor.stream.pending.drop n) = p := by
  change { p with cursor := ⟨p.cursor.current, { p.cursor.stream with
    pending := p.cursor.stream.pending.take n ++ p.cursor.stream.pending.drop n }⟩ } = p
  rw [List.take_append_drop]

theorem formKinds_eq (p : Parser) : p.formKinds = (p.cursor.stream.pending.take
    (p.cursor.stream.pending.length - p.afterwards.cursor.stream.pending.length)).map Token.kind :=
  rfl

structure Level (doubts : Doubts) (p p' : Parser) : Prop where
  errors : p.errors = []
  errors' : p'.errors = []
  counter : p'.counter = p.counter
  named : p.cursor.Spelled IsName
  tables : p.symbols.AgreeBut doubts p'.symbols

structure Abreast (doubts : Doubts) (p p' : Parser) : Prop extends Level doubts p p' where
  kinds : p'.cursor.kinds = p.cursor.kinds

structure NextAlike (last : Doubts) (p p' : Parser) : Prop where
  reading : p.reading.Abreast p'.reading
  kinds : p'.afterwards.cursor.kinds = p.afterwards.cursor.kinds
  tables : ∀ d, p.reading = .declaration d →
    p.afterwards.symbols.AgreeBut last p'.afterwards.symbols

namespace Abreast

variable {p p' : Parser} {last doubts : Doubts}

theorem next_last (h : p.Abreast doubts p')
    (hform : doubts.afterForm? p.symbols p.cursor.advance.kinds = some last)
    (hends : p.afterwards.cursor.stream.pending.map Token.kind = [] ∨
      p.afterwards.cursor.stream.pending.map Token.kind = [.eof]) : NextAlike last p p' := by
  have hbefore : Reader.Before last doubts p.begin p'.begin :=
    ⟨Cursor.advance_of_kinds h.kinds, h.named.advance, h.tables.of_entries rfl rfl, hform⟩
  have hp := reading_afterwards h.errors
  have hp' := reading_afterwards h.errors'
  have hread := Reader.together_form hbefore
  unfold Reader.Together at hread
  generalize Reader.form p.begin = r, Reader.form p'.begin = r' at hp hp' hread
  cases hread with
  | @error e e' t t' hkinds =>
    obtain ⟨hreading, hafter⟩ := Prod.mk.inj hp
    obtain ⟨hreading', hafter'⟩ := Prod.mk.inj hp'
    refine ⟨?_, ?_, fun d hd => ?_⟩
    · rw [hreading, hreading']
      exact .broken
    · rw [hafter, hafter']
      exact Cursor.skipForm_of_kinds hkinds
    · cases hreading.symm.trans hd
  | @ok piece piece' t t' ht =>
    obtain ⟨_, hkinds, hpiece⟩ := ht
    obtain ⟨hreading, hafter⟩ := Prod.mk.inj hp
    obtain ⟨hreading', hafter'⟩ := Prod.mk.inj hp'
    rw [hafter] at hends
    refine ⟨?_, by rw [hafter, hafter']; exact hkinds, fun d hd => ?_⟩
    · rw [hreading, hreading']
      cases hpiece with
      | ending => exact .ending
      | skipped => exact .nothing
      | declaration hd => exact .declaration hd.1
      | expression he =>
        rw [h.counter]
        exact .expression he
    · rw [hreading] at hd
      rw [hafter, hafter']
      cases hpiece with
      | declaration hdeclared =>
        obtain ⟨_, ⟨scope, _, left, hleft⟩, hclose⟩ := hdeclared
        have hsettles := hleft.settles
        -- After the token that closes the form, nothing is read in the scope.
        have hlast : left = last := by
          rw [Cursor.kinds_eq] at hsettles
          rcases hclose with hclose | hclose
          all_goals
            rcases hends with hends | hends
            all_goals
              rw [hclose, show t.cursor.stream.pending.map Token.kind = _ from hends] at hsettles
              exact Option.some.inj hsettles
        exact hlast ▸ hleft.tables
      | _ => cases hd

theorem pending (h : p.Abreast doubts p') :
    p'.cursor.stream.pending.map Token.kind = p.cursor.stream.pending.map Token.kind :=
  (List.cons.inj h.kinds).2

theorem drop_pending (h : p.Abreast doubts p') (n : Nat) :
    (p'.cursor.stream.pending.drop n).map Token.kind =
      (p.cursor.stream.pending.drop n).map Token.kind := by
  rw [List.map_drop, List.map_drop, h.pending]

theorem cut (h : p.Abreast doubts p') (n : Nat) (span : Span) :
    ((p.cut n).extend [⟨.eof, span⟩]).Abreast doubts ((p'.cut n).extend [⟨.eof, span⟩]) where
  errors := h.errors
  errors' := h.errors'
  counter := h.counter
  kinds := by
    change (Cursor.extend (p'.cut n).cursor _).kinds = (Cursor.extend (p.cut n).cursor _).kinds
    rw [Cursor.kinds_extend, Cursor.kinds_extend, Cursor.kinds_eq, Cursor.kinds_eq]
    simp only [Parser.cut]
    rw [Cursor.kind_of_kinds h.kinds, List.map_take, List.map_take, h.pending]
  named := by
    intro t ht
    simp only [Parser.extend, Cursor.extend, Parser.cut, List.mem_cons, List.mem_append,
      List.not_mem_nil, or_false] at ht
    rcases ht with rfl | ht | rfl
    · exact h.named _ List.mem_cons_self
    · exact h.named t (List.mem_cons_of_mem _ (List.mem_of_mem_take ht))
    · exact fun _ hname => (by cases hname)
  tables := h.tables

theorem afterForm?_advance (t : SymbolTable) (c : Cursor) : doubts.afterForm? t c.advance.kinds =
    doubts.afterForm? t (c.stream.pending.map Token.kind) := by
  rw [Cursor.kinds_advance, Cursor.kinds_eq, List.tail_cons]
  split
  next hnil =>
    rw [hnil]
    rfl
  next => rfl

/-- A form that is read alike where nothing but the end comes after it is read alike whatever comes
after it. -/
theorem next_extend {span : Span} (hlast : NextAlike last (p.extend [⟨.eof, span⟩])
      (p'.extend [⟨.eof, span⟩])) {reading : Reading} {q : Parser}
    (hread : ∀ more, (p.extend more).reading = reading ∧ (p.extend more).afterwards = q.extend more)
    (hq : q.cursor.stream.pending = []) {rest rest' : List Token}
    (hrest : rest'.map Token.kind = rest.map Token.kind) :
    NextAlike last (p.extend rest) (p'.extend rest') := by
  have hleft' : [⟨.eof, span⟩] <:+
      (p'.extend [⟨.eof, span⟩]).afterwards.cursor.stream.pending := by
    have hlength := Cursor.length_of_kinds hlast.kinds
    rw [(hread _).2] at hlength
    change _ = (q.cursor.stream.pending ++ _).length at hlength
    rw [hq] at hlength
    exact List.suffix_of_suffix_length_le (List.suffix_append _ _)
      (leads_afterwards (p'.extend _)).after.suffix (Nat.le_of_eq hlength.symm)
  obtain ⟨reading', q', hread'⟩ := reading_extend (List.cons_ne_nil _ _) hleft'
  have hkinds := hlast.kinds
  rw [(hread _).2, (hread' _).2] at hkinds
  change (Cursor.extend _ _).kinds = (Cursor.extend _ _).kinds at hkinds
  rw [Cursor.kinds_extend, Cursor.kinds_extend] at hkinds
  have hkinds := List.append_cancel_right hkinds
  refine ⟨?_, ?_, fun d hd => ?_⟩
  · rw [(hread _).1, (hread' _).1, ← (hread [⟨.eof, span⟩]).1, ← (hread' [⟨.eof, span⟩]).1]
    exact hlast.reading
  · rw [(hread _).2, (hread' _).2]
    change (Cursor.extend _ _).kinds = (Cursor.extend _ _).kinds
    rw [Cursor.kinds_extend, Cursor.kinds_extend, hkinds, hrest]
  · rw [(hread _).1, ← (hread [⟨.eof, span⟩]).1] at hd
    have htables := hlast.tables d hd
    rw [(hread _).2, (hread' _).2] at htables
    rw [(hread _).2, (hread' _).2]
    exact htables

theorem next (h : p.Abreast doubts p')
    (hform : doubts.afterForm? p.symbols p.formKinds = some last) : NextAlike last p p' := by
  have hsuffix := p.leads_afterwards.after.suffix
  rw [formKinds_eq] at hform
  obtain ⟨rest, hrest⟩ : ∃ rest, p.afterwards.cursor.stream.pending = rest := ⟨_, rfl⟩
  obtain ⟨n, hn⟩ : ∃ n, p.cursor.stream.pending.length - rest.length = n := ⟨_, rfl⟩
  rw [hrest, hn] at hform
  rw [hrest] at hsuffix
  have hdrop : p.cursor.stream.pending.drop n = rest :=
    hn ▸ (List.suffix_iff_eq_drop.mp hsuffix).symm
  have hp : p = (p.cut n).extend rest := hdrop ▸ (p.extend_cut n).symm
  have hp' : p' = (p'.cut n).extend (p'.cursor.stream.pending.drop n) := (p'.extend_cut n).symm
  by_cases hnil : rest = []
  · refine h.next_last ?_ (.inl (by rw [hrest, hnil]; rfl))
    rw [afterForm?_advance, ← hform, ← hn, hnil, List.length_nil, Nat.sub_zero, List.take_length]
  · have hleft : rest <:+ ((p.cut n).extend rest).afterwards.cursor.stream.pending := by
      rw [← hp]
      exact hrest ▸ List.suffix_refl _
    obtain ⟨reading, q, hread⟩ := reading_extend (p := p.cut n) hnil hleft
    have hq : q.cursor.stream.pending = [] := by
      have hpending := congrArg (·.cursor.stream.pending) (hread rest).2
      rw [← hp] at hpending
      exact List.append_left_eq_self.mp (hpending.symm.trans hrest)
    have hends : ((p.cut n).extend [⟨.eof, .nowhere⟩]).afterwards.cursor.stream.pending =
        [⟨.eof, .nowhere⟩] := by
      rw [(hread _).2]
      change q.cursor.stream.pending ++ _ = _
      rw [hq, List.nil_append]
    have hcutForm : doubts.afterForm? p.symbols
        ((p.cut n).extend [⟨.eof, .nowhere⟩]).cursor.advance.kinds = some last := by
      rw [afterForm?_advance, ← hform]
      change doubts.afterForm? p.symbols
        ((p.cursor.stream.pending.take n ++ [_]).map Token.kind) = _
      rw [List.map_append]
      exact Doubts.afterForm?_eof
    have hlast := (h.cut n .nowhere).next_last hcutForm (.inr (by rw [hends]; rfl))
    rw [hp, hp']
    exact next_extend hlast hread hq (by rw [h.drop_pending, hdrop])

end Abreast

end Parser

end FormCompiler
