import FormCompiler.Proofs.Parser.Written

namespace FormCompiler

def Kind.startsExpr : Kind → Bool
  | .int _ | .float _ | .name _ | .openParen | .ifWord => true
  | _ => false

namespace SymbolTable

variable {t t' : SymbolTable}

theorem declareAll_append (t : SymbolTable) (ns ns' : List Naming) :
    t.declareAll (ns ++ ns') = (t.declareAll ns).declareAll ns' := List.foldl_append

theorem declareAll_entries (h : t'.entries = t.entries) (ns : List Naming) :
    (t'.declareAll ns).entries = (t.declareAll ns).entries := by
  induction ns generalizing t t' with
  | nil => exact h
  | cons n ns ih => exact ih (declare_entries h n.scope n.name n.type)

theorem lookup?_of_entries (h : t'.entries = t.entries) (scope : String) :
    t'.lookup? scope = t.lookup? scope := by
  funext name
  unfold lookup?
  rw [h]

theorem withParams_written (t : SymbolTable) (function : String) {params : List Param}
    (h : ∀ q ∈ params, q.type.IsWritten) :
    t.withParams function (params.map Param.written) =
      t.declareAll (params.map (Param.naming function)) := by
  induction params generalizing t with
  | nil => rfl
  | cons q params ih =>
    obtain ⟨hq, hparams⟩ := List.forall_mem_cons.mp h
    refine (ih _ hparams).trans ?_
    change (t.declare function q.name (.ofWord q.type.word)).declareAll _ = _
    rw [hq.ofWord_word]
    rfl

end SymbolTable

theorem Param.param_written {q : Param} (h : q.type.IsWritten) : q.written.param = q := by
  rw [written, WrittenParam.param, h.ofWord_word]

theorem WellScopedBody.of_entries {function : String} {t t' : SymbolTable} {body : List Stmt}
    {result : Option Expr} (he : t'.entries = t.entries)
    (h : WellScopedBody function t body result) : WellScopedBody function t' body result := by
  have hlook := SymbolTable.lookup?_of_entries he function
  induction body generalizing t t' with
  | nil =>
    rw [WellScopedBody, hlook]
    exact h
  | cons st body ih =>
    cases st with
    | expression e =>
      rw [WellScopedBody, hlook]
      exact ⟨h.1, ih he h.2 hlook⟩
    | declaration d =>
      have he' := SymbolTable.declareAll_entries he (Stmt.namings function (.declaration d))
      exact ⟨h.1, ih he' h.2 (SymbolTable.lookup?_of_entries he' function)⟩

theorem Form.WellScoped.of_entries {t t' : SymbolTable} {counter : Nat} {f : Form}
    (he : t'.entries = t.entries) (h : f.WellScoped t counter) : f.WellScoped t' counter := by
  have hlook := SymbolTable.lookup?_of_entries he ""
  cases f with
  | expression e =>
    rw [WellScoped, hlook]
    exact h
  | anonymous a =>
    rw [WellScoped, hlook]
    exact h
  | declaration d =>
    cases d with
    | function p body result => exact ⟨h.1, h.2.of_entries (SymbolTable.declareAll_entries he _)⟩
    | _ => exact h

theorem Declaration.exists_kinds (d : Declaration) :
    ∃ word kinds, d.kinds = .typeWord word :: kinds := by
  cases d <;> exact ⟨_, _, rfl⟩

theorem Declaration.IsWrittenVariable.kinds_eq {d : Declaration} (h : d.IsWrittenVariable) :
    d.variableKinds = d.kinds := by
  cases d with
  | prototype | function => exact h.elim
  | variableOf | variableAs => rfl

theorem Expr.isCall_erase (e : Expr) : e.erase.isCall = e.isCall := by
  cases e <;> simp [erase, isCall]

theorem bodyKinds_cons (st : Stmt) (body : List Stmt) (result : Option Expr) :
    bodyKinds (st :: body) result = st.kinds ++ bodyKinds body result := by
  simp [bodyKinds]

theorem Names.eof_notMem_kinds (names : Names) {e : Expr} (h : e.WellScoped names.type?) :
    .eof ∉ e.kinds := by
  intro hmem
  have hw : (e.kinds.map (Token.mk · .nowhere)).map Token.kind = e.kinds := by
    rw [List.map_map]
    exact List.map_id _
  obtain ⟨tree, htree, _⟩ := renders names h hw
  exact htree.kind_ne_eof _ (List.mem_map_of_mem hmem) rfl

namespace Reader

variable {t : SymbolTable} {scope : String} {c : Cursor} {after : List Kind}

theorem startsExpr_of_expr {e : Expr} {s : Place} (h : expr scope ⟨t, c⟩ = .ok e s) :
    c.current.kind.startsExpr = true := by
  rw [expr_eq, operand_eq, bind_assoc, token_bind] at h
  cases hk : c.current.kind with
  | int | float | name | openParen | ifWord => rfl
  | _ =>
    simp only [hk] at h
    cases h

theorem expr_reads {e : Expr} (h : e.WellScoped (t.lookup? scope))
    (hc : c.kinds = e.kinds ++ .semicolon :: after) :
    ∃ e' d, expr scope ⟨t, c⟩ = .ok e' ⟨t, d⟩ ∧ e'.erase = e.erase ∧
      d.kinds = .semicolon :: after := by
  have heof := Names.eof_notMem_kinds ⟨t, scope⟩ h
  obtain ⟨w, d, hw, hkinds, hd⟩ := Cursor.exists_yields_of_kinds hc heof
  have hk : d.kind = .semicolon := Cursor.kind_of_cons hd
  obtain ⟨e', hread, herase⟩ := exists_expr h hw hkinds (hk ▸ rfl) (hk ▸ nofun)
  exact ⟨e', d, hread, herase, hd⟩

theorem initializer_reads {type : Ty} {name : String} {init : Initializer}
    (h : init.IsWritten type) (hc : c.current.kind = init.kind) :
    initializer type name ⟨t, c⟩ = .ok init ⟨t, c.advance⟩ := by
  rw [initializer_eq, token_bind]
  cases init with
  | int value =>
    obtain ⟨rfl, hvalue⟩ := h
    simp only [hc, Initializer.kind, Literal.int?_ofInt hvalue, if_true]
    rfl
  | float value =>
    obtain ⟨rfl, hvalue⟩ := h
    simp only [hc, Initializer.kind, Literal.float?_ofFloat hvalue, if_true]
    rfl

theorem variable_reads (scope : String) {d : Declaration} (h : d.IsWrittenVariable)
    (hc : c.kinds = d.variableKinds ++ after) :
    ∃ type name, head ⟨t, c⟩ = .ok (type, name) ⟨t, c.advance.advance⟩ ∧
      c.advance.advance.current.kind ≠ .openParen ∧ ∀ start, ∃ d' e,
        variableRest scope start type name ⟨t, c.advance.advance⟩ =
          .ok d' ⟨t.declareAll (Stmt.namings scope (.declaration d)), e⟩ ∧
        d'.erase = d.erase ∧ e.kinds = .semicolon :: after := by
  cases d with
  | prototype | function => exact h.elim
  | variableOf type name span =>
    have hc₂ := Cursor.kinds_advance_of_cons (Cursor.kinds_advance_of_cons hc)
    refine ⟨_, _, head_reads hc, by simp [Cursor.kind_of_cons hc₂], fun start => ?_⟩
    refine ⟨.variableOf type name (start.through c.advance.advance.current.span), _, ?_, ?_, hc₂⟩
    · rw [variableRest_eq, token_bind]
      simp only [Cursor.kind_of_cons hc₂, declare_bind, Ty.IsWritten.ofWord_word h]
      rfl
    · rw [Declaration.erase, Declaration.erase]
  | variableAs type name init span =>
    have hc₂ := Cursor.kinds_advance_of_cons (Cursor.kinds_advance_of_cons hc)
    have hc₃ := Cursor.kinds_advance_of_cons hc₂
    have hc₄ := Cursor.kinds_advance_of_cons hc₃
    refine ⟨_, _, head_reads hc, by simp [Cursor.kind_of_cons hc₂], fun start => ?_⟩
    let u := c.advance.advance.advance.advance
    refine ⟨.variableAs type name init (start.through u.current.span), u, ?_, ?_, hc₄⟩
    · rw [variableRest_eq, token_bind]
      simp only [Cursor.kind_of_cons hc₂, advance_bind, declare_bind, h.1.ofWord_word]
      rw [ok_bind (initializer_reads h.2 (Cursor.kind_of_cons hc₃)),
        ok_bind (insist_of_kind (Cursor.kind_of_cons hc₄)), token_bind]
      rfl
    · rw [Declaration.erase, Declaration.erase]

theorem localVariable_reads (scope : String) {d : Declaration} (h : d.IsWrittenVariable)
    (hc : c.kinds = d.variableKinds ++ after) :
    ∃ d' e, localVariable scope ⟨t, c⟩ =
        .ok d' ⟨t.declareAll (Stmt.namings scope (.declaration d)), e⟩ ∧
      d'.erase = d.erase ∧ e.kinds = .semicolon :: after := by
  obtain ⟨type, name, hhead, hname, hrest⟩ := variable_reads (t := t) scope h hc
  obtain ⟨d', e, hread, herase, he⟩ := hrest c.current.span
  refine ⟨d', e, ?_, herase, he⟩
  rw [localVariable_eq, token_bind, ok_bind hhead]
  simp only [token_bind]
  rw [if_neg hname, hread]

theorem bodyAfter_ok {function : String} {stmts : List Stmt} {result : Option Expr} {s u : Place}
    (h : body function s = .ok (stmts, result) u) {st : Stmt} :
    bodyAfter function st s = .ok (st :: stmts, result) u := by
  rw [bodyAfter, ok_bind h]
  rfl

theorem body_of_startsExpr (h : c.current.kind.startsExpr = true) (function : String) :
    body function ⟨t, c⟩ = bodyOfExpr function ⟨t, c⟩ := by
  conv => lhs; rw [body_eq, token_bind]
  cases hk : c.current.kind with
  | closeBrace | returnWord | eof | typeWord =>
    rw [hk] at h
    cases h
  | _ => rfl

theorem body_of_typeWord {word : TypeWord} (h : c.current.kind = .typeWord word)
    (function : String) :
    body function ⟨t, c⟩ = (do
      let decl ← localVariable function
      pass .semicolon .afterDeclaration
      bodyAfter function (.declaration decl) : Reader (List Stmt × Option Expr)) ⟨t, c⟩ := by
  conv => lhs; rw [body_eq, token_bind]
  simp only [h]

theorem result_reads {function : String} {result : Option Expr}
    (h : ∀ e ∈ result, e.WellScoped (t.lookup? function))
    (hc : c.kinds = bodyKinds [] result ++ .closeBrace :: after) :
    ∃ result' d, body function ⟨t, c⟩ = .ok ([], result') ⟨t, d⟩ ∧
      result'.map Expr.erase = result.map Expr.erase ∧ d.kinds = .closeBrace :: after := by
  cases result with
  | none =>
    refine ⟨none, c, ?_, rfl, hc⟩
    rw [body_eq, token_bind]
    simp only [Cursor.kind_of_cons hc]
    rfl
  | some e =>
    have hc : c.kinds = .returnWord :: (e.kinds ++ .semicolon :: .closeBrace :: after) := by
      simpa [bodyKinds] using hc
    obtain ⟨e', d, hread, herase, hd⟩ := expr_reads (h e rfl)
      (Cursor.kinds_advance_of_append hc (List.cons_ne_nil _ _))
    have hd' := Cursor.kinds_advance_of_cons hd
    refine ⟨some e', d.advance, ?_, congrArg some herase, hd'⟩
    rw [body_eq, token_bind]
    simp only [Cursor.kind_of_cons hc, advance_bind]
    rw [ok_bind hread, ok_bind (pass_of_kind (Cursor.kind_of_cons hd)),
      ok_bind (insist_of_kind (Cursor.kind_of_cons hd'))]
    rfl

theorem body_reads {function : String} {stmts : List Stmt} {result : Option Expr}
    (h : WellScopedBody function t stmts result)
    (hc : c.kinds = bodyKinds stmts result ++ .closeBrace :: after) :
    ∃ stmts' result' d, body function ⟨t, c⟩ =
        .ok (stmts', result') ⟨t.declareAll (stmts.flatMap (Stmt.namings function)), d⟩ ∧
      eraseBody stmts' = eraseBody stmts ∧ result'.map Expr.erase = result.map Expr.erase ∧
      d.kinds = .closeBrace :: after := by
  induction stmts generalizing t c with
  | nil =>
    obtain ⟨result', d, hread, herase, hd⟩ := result_reads h hc
    exact ⟨[], result', d, hread, rfl, herase, hd⟩
  | cons st stmts ih =>
    rw [bodyKinds_cons, List.append_assoc] at hc
    cases st with
    | expression e =>
      rw [Stmt.kinds, List.append_assoc] at hc
      obtain ⟨e', d, hread, herase, hd⟩ := expr_reads h.1 hc
      obtain ⟨stmts', result', f, hrest, hstmts, hresult, hf⟩ :=
        ih h.2 (Cursor.kinds_advance_of_append hd (by simp))
      refine ⟨.expression e' :: stmts', result', f, ?_, ?_, hresult, hf⟩
      · rw [body_of_startsExpr (startsExpr_of_expr hread), bodyOfExpr, ok_bind hread,
          ok_bind (pass_of_kind (Cursor.kind_of_cons hd)), bodyAfter_ok hrest]
        rfl
      · rw [eraseBody, eraseBody, Stmt.erase, Stmt.erase, herase, hstmts]
    | declaration d =>
      rw [Stmt.kinds] at hc
      obtain ⟨d', e, hread, herase, he⟩ := localVariable_reads (t := t) function h.1 hc
      obtain ⟨word, kinds, hkinds⟩ := d.exists_kinds
      rw [h.1.kinds_eq, hkinds] at hc
      obtain ⟨stmts', result', f, hrest, hstmts, hresult, hf⟩ :=
        ih h.2 (Cursor.kinds_advance_of_append he (by simp))
      refine ⟨.declaration d' :: stmts', result', f, ?_, ?_, hresult, hf⟩
      · rw [body_of_typeWord (Cursor.kind_of_cons hc), ok_bind hread,
          ok_bind (pass_of_kind (Cursor.kind_of_cons he)), bodyAfter_ok hrest, List.flatMap_cons,
          SymbolTable.declareAll_append]
      · rw [eraseBody, eraseBody, Stmt.erase, Stmt.erase, herase, hstmts]

theorem global_of_prototype {p : Prototype} {kind : Kind} (h : p.IsWritten)
    (hc : c.kinds = p.kinds ++ kind :: after) :
    ∃ (span : Span) (d : Cursor), d.kinds = kind :: after ∧
      global ⟨t, c⟩ = afterPrototype { p with span } kind ⟨t.declareAll p.namings, d⟩ := by
  have hnames : ((p.params.map Param.written).map Prod.snd).Nodup := by
    rw [List.map_map]
    exact h.nodup
  have hparams : (p.params.map Param.written).map WrittenParam.param = p.params := by
    rw [List.map_map]
    have hsame := List.map_congr_left fun q hq => Param.param_written (h.params q hq)
    exact hsame.trans (List.map_id' _)
  obtain ⟨span, d, hd, hread⟩ :=
    global_prototype (t := t) (by simpa [Prototype.kinds] using hc) hnames
  refine ⟨span, d, hd, ?_⟩
  rw [hread, h.returns.ofWord_word, hparams, SymbolTable.withParams_written t p.name h.params,
    Prototype.namings, SymbolTable.declareAll_append]
  rfl

theorem global_of_variable {d : Declaration} (h : d.IsWrittenVariable)
    (hc : c.kinds = d.variableKinds ++ after) :
    ∃ d' e, global ⟨t, c⟩ = .ok d' ⟨t.declareAll (Stmt.namings "" (.declaration d)), e⟩ ∧
      d'.erase = d.erase ∧ e.kinds = .semicolon :: after := by
  obtain ⟨type, name, hhead, hname, hrest⟩ := variable_reads (t := t) "" h hc
  obtain ⟨d', e, hread, herase, he⟩ := hrest c.current.span
  refine ⟨d', e, ?_, herase, he⟩
  rw [global_eq, token_bind, ok_bind hhead]
  simp only [token_bind]
  rw [if_neg hname, hread]

theorem global_reads_written {d : Declaration} (h : d.WellScoped t)
    (hc : c.kinds = d.kinds ++ after) :
    ∃ d' e, global ⟨t, c⟩ = .ok d' ⟨t.declareAll d.namings, e⟩ ∧ d'.erase = d.erase ∧
      e.kinds = (Form.declaration d).closing :: after := by
  cases d with
  | variableOf type name span => exact global_of_variable (d := .variableOf type name span) h hc
  | variableAs type name init span =>
    exact global_of_variable (d := .variableAs type name init span) h hc
  | prototype p =>
    obtain ⟨span, e, he, hread⟩ := global_of_prototype (t := t) h
      (by simpa [Declaration.kinds] using hc)
    exact ⟨.prototype { p with span }, e, hread, rfl, he⟩
  | function p stmts result =>
    have hc : c.kinds =
        p.kinds ++ .openBrace :: (bodyKinds stmts result ++ .closeBrace :: after) := by
      simpa [Declaration.kinds] using hc
    obtain ⟨span, e, he, hread⟩ := global_of_prototype (t := t) h.1 hc
    obtain ⟨stmts', result', f, hbody, hstmts, hresult, hf⟩ :=
      body_reads h.2 (Cursor.kinds_advance_of_append he (by simp))
    refine ⟨.function { p with span } stmts' result', f, ?_, ?_, hf⟩
    · rw [hread, afterPrototype, advance_bind, ok_bind hbody, Declaration.namings,
        SymbolTable.declareAll_append]
      rfl
    · rw [Declaration.erase, Declaration.erase, hstmts, hresult]
      rfl

theorem form_of_startsExpr (h : c.current.kind.startsExpr = true) :
    form ⟨t, c⟩ = (do
      let e ← expr ""
      insist .semicolon .afterExpression
      return .expression e : Reader Piece) ⟨t, c⟩ := by
  rw [form, token_bind]
  cases hk : c.current.kind with
  | eof | includeWord | typeWord =>
    rw [hk] at h
    cases h
  | _ => rfl

theorem form_of_expr {d : Cursor} {e : Expr} (h : expr "" ⟨t, c⟩ = .ok e ⟨t, d⟩)
    (hd : d.kind = .semicolon) :
    form ⟨t, c⟩ = .ok (.expression e) ⟨t, d⟩ := by
  rw [form_of_startsExpr (startsExpr_of_expr h), ok_bind h, ok_bind (insist_of_kind hd)]
  rfl

theorem form_of_expression {e : Expr} (h : e.WellScoped (t.lookup? ""))
    (hc : c.kinds = e.kinds ++ .semicolon :: after) :
    ∃ e' d, form ⟨t, c⟩ = .ok (.expression e') ⟨t, d⟩ ∧ e'.erase = e.erase ∧
      d.kinds = .semicolon :: after := by
  obtain ⟨e', d, hread, herase, hd⟩ := expr_reads h hc
  exact ⟨e', d, form_of_expr hread (Cursor.kind_of_cons hd), herase, hd⟩

theorem form_reads {f : Form} {counter : Nat} (h : f.WellScoped t counter)
    (hc : c.kinds = f.kinds ++ after) :
    ∃ piece d, form ⟨t, c⟩ = .ok piece ⟨t.declareAll f.namings, d⟩ ∧
      (piece.form? counter).map Form.erase = some f.erase ∧ d.kinds = f.closing :: after := by
  cases f with
  | declaration d =>
    obtain ⟨d', e, hread, herase, he⟩ := global_reads_written h hc
    obtain ⟨word, kinds, hkinds⟩ := d.exists_kinds
    rw [Form.kinds, hkinds] at hc
    exact ⟨.declaration d', e, form_typeWord (Cursor.kind_of_cons hc) hread,
      congrArg (some ∘ Form.declaration) herase, he⟩
  | expression e =>
    obtain ⟨e', d, hread, herase, hd⟩ := form_of_expression h.2 (by simpa [Form.kinds] using hc)
    have hcall : e'.isCall = true := by rw [← e'.isCall_erase, herase, e.isCall_erase, h.1]
    refine ⟨.expression e', d, hread, ?_, ?_⟩
    · rw [Piece.form?, if_pos hcall]
      exact congrArg (some ∘ Form.expression) herase
    · cases e with
      | call => exact hd
      | _ => cases h.1
  | anonymous a =>
    obtain ⟨e', d, hread, herase, hd⟩ := form_of_expression h.2.1 (by simpa [Form.kinds] using hc)
    obtain ⟨⟨returns, name, params, span⟩, e⟩ := a
    obtain ⟨hcall, -, hreturns, hname, hparams⟩ := h
    obtain rfl : returns = e.ty := hreturns
    obtain rfl : name = Anonymous.nameOf counter := hname
    obtain rfl : params = [] := hparams
    have hcall' : e'.isCall = false := by rw [← e'.isCall_erase, herase, e.isCall_erase, hcall]
    have hty : e'.ty = e.ty := by rw [← e'.ty_erase, herase, e.ty_erase]
    refine ⟨.expression e', d, hread, ?_, hd⟩
    rw [Piece.form?, if_neg (by simp [hcall'])]
    simp only [Option.map_some, Form.erase, Anonymous.wrap, Prototype.erase, hty, herase]

end Reader

namespace Cursor

variable {c : Cursor} {ts rest : List Token} {t : Token}

theorem advance_of_pending (h : c.stream.pending = t :: rest) :
    c.advance = ⟨t, { c.stream with pending := rest }⟩ := by
  rw [advance, TokenStream.next, h]

theorem leads_of_pending (hp : c.stream.pending = ts ++ t :: rest) :
    c.advance.Leads ⟨t, { c.stream with pending := rest }⟩ := by
  induction ts generalizing c with
  | nil =>
    rw [advance_of_pending hp]
    exact .refl
  | cons first ts ih =>
    have hadvance := advance_of_pending hp
    have hlead := ih (c := c.advance) (by rw [hadvance]; rfl)
    rw [hadvance] at hlead ⊢
    exact hlead.after

end Cursor

theorem Form.WellScoped.kinds_eq_concat {f : Form} {t : SymbolTable} {counter : Nat}
    (h : f.WellScoped t counter) : ∃ kinds, f.kinds = kinds ++ [f.closing] ∧ f.closing ≠ .eof := by
  cases f with
  | expression e =>
    cases e with
    | call => exact ⟨_, rfl, nofun⟩
    | _ => cases h.1
  | anonymous a => exact ⟨_, rfl, nofun⟩
  | declaration d =>
    cases d with
    | prototype => exact ⟨_, rfl, nofun⟩
    | variableOf type name span => exact ⟨[_, _], rfl, nofun⟩
    | variableAs type name init span => exact ⟨[_, _, _, _], rfl, nofun⟩
    | function p stmts result =>
      refine ⟨p.kinds ++ .openBrace :: bodyKinds stmts result, ?_, nofun⟩
      simp [kinds, Declaration.kinds, closing]

namespace Parser

variable {p : Parser} {f : Form} {ts rest : List Token} {t : Token}

/-- What is written for a form is read as that form. No error is noted, the last token of the form
is in hand, and the names that the form declares are known. -/
theorem next_written (h : f.WellScoped p.symbols p.counter)
    (hkinds : (ts ++ [t]).map Token.kind = f.kinds)
    (hpending : p.cursor.stream.pending = ts ++ t :: rest) :
    p.next.result.map Form.erase = some f.erase ∧ p.next.parser =
      { p with
        cursor := ⟨t, { p.cursor.stream with pending := rest }⟩
        symbols := p.symbols.checkpoint.declareAll f.namings } := by
  have hc : p.begin.cursor.kinds = f.kinds ++ rest.map Token.kind := by
    rw [begin, Cursor.kinds_advance, Cursor.kinds_eq, List.tail_cons, hpending, ← hkinds]
    simp
  have hentries : p.symbols.checkpoint.entries = p.symbols.entries := rfl
  obtain ⟨piece, d, hread, hform, hd⟩ := Reader.form_reads (h.of_entries hentries) hc
  have hread : Reader.form p.begin = _ := hread
  obtain ⟨kinds, hf, hclosing⟩ := h.kinds_eq_concat
  have hkind : t.kind = f.closing := by
    rw [hf, List.map_append] at hkinds
    exact List.singleton_inj.mp (List.append_inj' hkinds rfl).2
  -- The place that is reached lies ahead, as that of the last token does, and the same is left.
  have hlead : p.begin.cursor.Leads d := by
    have hsteady := (Reader.steady_form p.begin).leads
    rwa [hread] at hsteady
  have hplace : d = ⟨t, { p.cursor.stream with pending := rest }⟩ := by
    refine (Cursor.leads_of_pending hpending).eq_of_kinds hlead ?_ (hkind.trans_ne hclosing)
    rw [hd, Cursor.kinds_eq, hkind]
  have hnext := p.next_eq
  rw [hread] at hnext
  obtain ⟨hresult, hparser⟩ := Prod.mk.inj hnext
  rw [hresult, hparser, hplace]
  exact ⟨hform, rfl⟩

def scaling : Form :=
  .declaration (.function ⟨.int, "f", [⟨.int, "a"⟩], .nowhere⟩
    [.declaration (.variableAs .int "b" (.int 2) .nowhere)]
    (some (.binary .mul (.var "a" .int .nowhere)
      (.binary .add (.var "b" .int .nowhere) (.int 1 .nowhere) .nowhere) .nowhere)))

theorem next_written_scaling :
    scaling.WellScoped {} 0 ∧
    scaling.kinds =
      [.typeWord .int, .name "f", .openParen, .typeWord .int, .name "a", .closeParen, .openBrace,
        .typeWord .int, .name "b", .equals, .int "2", .semicolon, .returnWord, .name "a", .op '*',
        .openParen, .name "b", .op '+', .int "1", .closeParen, .semicolon, .closeBrace] ∧
    (ofStream ⟨scaling.kinds.map (Token.mk · .nowhere), .nowhere, [], true⟩).next.result.map
      Form.erase = some scaling.erase := by
  have hscoped : scaling.WellScoped {} 0 := by
    refine ⟨⟨.inl rfl, by simp [Ty.IsWritten], by simp⟩, ⟨.inl rfl, rfl, by decide⟩, ?_⟩
    rintro e ⟨⟩
    exact .binary (.var (by decide +kernel))
      (.binary (.var (by decide +kernel)) (.int (by decide)) nofun) nofun
  have hpending : (scaling.kinds.map (Token.mk · .nowhere)) =
      scaling.kinds.dropLast.map (Token.mk · .nowhere) ++ [⟨.closeBrace, .nowhere⟩] := by
    decide +kernel
  refine ⟨hscoped, by decide +kernel, ?_⟩
  exact (next_written hscoped (by decide +kernel) hpending).1

end Parser

end FormCompiler
