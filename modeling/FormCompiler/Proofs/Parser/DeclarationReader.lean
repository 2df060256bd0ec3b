import FormCompiler.Proofs.Parser.Reader

namespace FormCompiler

namespace Reader

variable {α β γ δ : Type} {symbols : SymbolTable} {c : Cursor}

def ofAttempt (get : γ → α × Place) (r : Attempt γ) : EStateM.Result ParseError Place α :=
  match r with
  | .ok read => .ok (get read).1 (get read).2
  | .error (r, symbols) => .error r.error ⟨symbols, r.cursor⟩

theorem ofAttempt_bind {get : γ → α × Place} {get' : δ → β × Place} {s : Place} {r : Attempt γ}
    {f : γ → Attempt δ} {m : Reader α} {k : α → Reader β} (hm : m s = ofAttempt get r)
    (hk : ∀ read, k (get read).1 (get read).2 = ofAttempt get' (f read)) :
    (m >>= k) s = ofAttempt get' (r >>= f) := by
  simp only [bind, EStateM.bind, hm]
  cases r with
  | error r => rfl
  | ok read => exact hk read

theorem expr_eq_ofAttempt (scope : String) : expr scope ⟨symbols, c⟩ =
    ofAttempt (fun read => (read.1, ⟨symbols, read.2.val⟩))
      (Attempt.of symbols (Expr.parse ⟨symbols, scope⟩ c)) := by
  unfold expr Attempt.of
  cases Expr.parse ⟨symbols, scope⟩ c with
  | error r => rfl
  | ok read => rfl

theorem pass_eq_ofAttempt {kind : Kind} (what : Expected) (hk : kind ≠ .eof) :
    pass kind what ⟨symbols, c⟩ = ofAttempt (fun d : c.Later => ((), ⟨symbols, d.val⟩))
      (Attempt.of symbols (c.pass kind what)) := by
  by_cases h : c.kind = kind
  · rw [pass_of_kind h, Cursor.pass, uncons?_of_kind h hk]
    simp only [if_true]
    rfl
  · rw [pass_of_ne h, cursor_pass_of_ne h]
    rfl

theorem insist_eq_ofAttempt (kind : Kind) (what : Expected) :
    insist kind what ⟨symbols, c⟩ = ofAttempt (fun u : Unit => (u, ⟨symbols, c⟩))
      (Attempt.of symbols (c.insist kind what)) := by
  unfold insist Cursor.insist
  rw [token_bind]
  change (if c.kind = kind then _ else _ : Reader Unit) _ = _
  by_cases h : c.kind = kind
  · rw [if_pos h, if_pos h]
    rfl
  · rw [if_neg h, if_neg h]
    rfl

def head : Reader (Ty × String) := fun s =>
  ofAttempt (fun h : Declaration.Head s.cursor => ((h.type, h.name), ⟨s.symbols, h.rest.val⟩))
    (Attempt.of s.symbols (Declaration.parseHead s.cursor))

def params (function : String) (before : List Param) : Reader (List Param) := fun s =>
  ofAttempt (fun r : List Param × SymbolTable × Cursor => (r.1, ⟨r.2.1, r.2.2⟩))
    (Declaration.parseParams function before s.symbols s.cursor)

def prototype (start : Span) (returns : Ty) (name : String) : Reader Prototype := fun s =>
  ofAttempt (fun r : Prototype × SymbolTable × Cursor => (r.1, ⟨r.2.1, r.2.2⟩))
    (Declaration.parsePrototype start returns name s.symbols s.cursor)

def initializer (type : Ty) (name : String) : Reader Initializer := fun s =>
  ofAttempt (fun r : Initializer × s.cursor.Later => (r.1, ⟨s.symbols, r.2.val⟩))
    (Attempt.of s.symbols (Declaration.parseInitializer type name s.cursor))

def variableRest (scope : String) (start : Span) (type : Ty) (name : String) :
    Reader Declaration := fun s =>
  ofAttempt (fun r : Declaration × SymbolTable × s.cursor.Onward => (r.1, ⟨r.2.1, r.2.2.val⟩))
    (Declaration.parseVariable scope start type name s.symbols s.cursor)

def localVariable (scope : String) : Reader Declaration := fun s =>
  ofAttempt (fun r : Declaration × SymbolTable × s.cursor.Later => (r.1, ⟨r.2.1, r.2.2.val⟩))
    (Declaration.parseLocal scope s.symbols s.cursor)

def body (function : String) : Reader (List Stmt × Option Expr) := fun s =>
  ofAttempt (fun r : List Stmt × Option Expr × SymbolTable × Cursor =>
    ((r.1, r.2.1), ⟨r.2.2.1, r.2.2.2⟩)) (Declaration.parseBody function s.symbols s.cursor)

def global : Reader Declaration := fun s =>
  ofAttempt (fun r : Declaration × SymbolTable × Cursor => (r.1, ⟨r.2.1, r.2.2⟩))
    (Declaration.parseGlobal s.symbols s.cursor)

theorem head_eq : head = (do
    match (← token).kind with
    | .typeWord word => do
      advance
      match (← token).kind with
      | .name name => do
        advance
        return (.ofWord word, name)
      | _ => missing .declaredName
    | _ => missing .type) := by
  funext ⟨symbols, c⟩
  rw [token_bind]
  unfold head Declaration.parseHead
  cases hk : c.kind with
  | typeWord word =>
    rw [uncons?_of_kind hk (by simp)]
    simp only [show c.current.kind = _ from hk, advance_bind, token_bind]
    cases hd : c.advance.kind with
    | name name =>
      rw [uncons?_of_kind hd (by simp)]
      simp only [show c.advance.current.kind = _ from hd]
      rfl
    | eof =>
      rw [uncons?_eof hd]
      simp only [show c.advance.current.kind = _ from hd]
      rfl
    | _ =>
      rw [uncons?_of_kind hd (by simp)]
      simp only [show c.advance.current.kind = _ from hd]
      rfl
  | eof =>
    rw [uncons?_eof hk]
    simp only [show c.current.kind = _ from hk]
    rfl
  | _ =>
    rw [uncons?_of_kind hk (by simp)]
    simp only [show c.current.kind = _ from hk]
    rfl

theorem params_eq (function : String) (before : List Param) : params function before = (do
    match (← token).kind with
    | .typeWord word => do
      advance
      match (← token).kind with
      | .name name =>
        if before.any (·.name == name) then refuse (.duplicateParameter function name)
        else do
          advance
          declare function name (.ofWord word)
          if (← token).kind = .comma then do
            advance
            params function (before ++ [⟨.ofWord word, name⟩])
          else return before ++ [⟨.ofWord word, name⟩]
      | _ => missing .parameterName
    | _ => missing .parameterType) := by
  funext ⟨symbols, c⟩
  rw [token_bind]
  conv => lhs; unfold params
  rw [Declaration.parseParams]
  cases hk : c.kind with
  | typeWord word =>
    rw [uncons?_of_kind hk (by simp)]
    simp only [show c.current.kind = _ from hk, advance_bind, token_bind]
    cases hd : c.advance.kind with
    | name name =>
      rw [uncons?_of_kind hd (by simp)]
      simp only [show c.advance.current.kind = _ from hd]
      by_cases hany : before.any (·.name == name) = true
      · rw [if_pos hany, if_pos hany]
        rfl
      · rw [if_neg hany, if_neg hany, advance_bind, declare_bind, token_bind]
        by_cases he : c.advance.advance.kind = .comma
        · rw [uncons?_of_kind he (by simp),
            if_pos (show c.advance.advance.current.kind = _ from he)]
          rfl
        · rw [if_neg (show ¬ c.advance.advance.current.kind = _ from he)]
          split
          next hcomma => exact absurd (kind_of_uncons? hcomma) he
          next => rfl
    | eof =>
      rw [uncons?_eof hd]
      simp only [show c.advance.current.kind = _ from hd]
      rfl
    | _ =>
      rw [uncons?_of_kind hd (by simp)]
      simp only [show c.advance.current.kind = _ from hd]
      rfl
  | eof =>
    rw [uncons?_eof hk]
    simp only [show c.current.kind = _ from hk]
    rfl
  | _ =>
    rw [uncons?_of_kind hk (by simp)]
    simp only [show c.current.kind = _ from hk]
    rfl

theorem prototype_eq (start : Span) (returns : Ty) (name : String) :
    prototype start returns name = (do
      let ps ← if (← token).kind = .closeParen then pure [] else params name []
      insist .closeParen .endOfParameters
      let t ← token
      declare "" name returns
      advance
      return ⟨returns, name, ps, start.through t.span⟩) := by
  funext ⟨symbols, c⟩
  rw [token_bind]
  unfold prototype Declaration.parsePrototype
  symm
  change (if c.kind = .closeParen then _ else _ : Reader Prototype) _ = _
  by_cases hk : c.kind = .closeParen
  · simp only [hk, if_true]
    apply ofAttempt_bind (insist_eq_ofAttempt _ _)
    intro u
    rfl
  · simp only [hk, if_false]
    apply ofAttempt_bind rfl
    rintro ⟨ps, symbols', d⟩
    apply ofAttempt_bind (insist_eq_ofAttempt _ _)
    intro u
    rfl

theorem symbols_initializer {type : Ty} {name : String} {init : Initializer} {s t : Place}
    (h : initializer type name s = .ok init t) : t.symbols = s.symbols := by
  unfold initializer Attempt.of at h
  cases hr : Declaration.parseInitializer type name s.cursor with
  | error r =>
    rw [hr] at h
    cases h
  | ok read =>
    rw [hr] at h
    cases h
    rfl

theorem initializer_eq (type : Ty) (name : String) : initializer type name = (do
    match (← token).kind with
    | .int text =>
      match Literal.int? text with
      | none => refuse (.malformedLiteral text)
      | some value =>
        if type = .int then do
          advance
          return .int value
        else refuse (.initializerMismatch name type .int)
    | .float text =>
      match Literal.float? text with
      | none => refuse (.malformedLiteral text)
      | some value =>
        if type = .double then do
          advance
          return .float value
        else refuse (.initializerMismatch name type .double)
    | _ => missing .initializer) := by
  funext ⟨symbols, c⟩
  rw [token_bind]
  unfold initializer Declaration.parseInitializer
  cases hk : c.kind with
  | int text =>
    rw [uncons?_of_kind hk (by simp)]
    simp only [show c.current.kind = _ from hk]
    cases Literal.int? text with
    | none => rfl
    | some value =>
      by_cases ht : type = .int
      · simp only [ht, if_true]
        rfl
      · simp only [ht, if_false]
        rfl
  | float text =>
    rw [uncons?_of_kind hk (by simp)]
    simp only [show c.current.kind = _ from hk]
    cases Literal.float? text with
    | none => rfl
    | some value =>
      by_cases ht : type = .double
      · simp only [ht, if_true]
        rfl
      · simp only [ht, if_false]
        rfl
  | eof =>
    rw [uncons?_eof hk]
    simp only [show c.current.kind = _ from hk]
    rfl
  | _ =>
    rw [uncons?_of_kind hk (by simp)]
    simp only [show c.current.kind = _ from hk]
    rfl

theorem variableRest_eq (scope : String) (start : Span) (type : Ty) (name : String) :
    variableRest scope start type name = (do
      let t ← token
      match t.kind with
      | .semicolon => do
        declare scope name type
        return .variableOf type name (start.through t.span)
      | .equals => do
        advance
        declare scope name type
        let init ← initializer type name
        insist .semicolon .afterInitializer
        let t ← token
        return .variableAs type name init (start.through t.span)
      | _ => missing .afterDeclaredName) := by
  funext ⟨symbols, c⟩
  rw [token_bind]
  unfold variableRest Declaration.parseVariable
  cases hk : c.kind with
  | semicolon =>
    rw [uncons?_of_kind hk (by simp)]
    simp only [show c.current.kind = _ from hk]
    rfl
  | equals =>
    rw [uncons?_of_kind hk (by simp)]
    simp only [show c.current.kind = _ from hk, advance_bind]
    symm
    rw [declare_bind]
    apply ofAttempt_bind rfl
    rintro ⟨init, d⟩
    apply ofAttempt_bind (insist_eq_ofAttempt _ _)
    intro u
    rfl
  | eof =>
    rw [uncons?_eof hk]
    simp only [show c.current.kind = _ from hk]
    rfl
  | _ =>
    rw [uncons?_of_kind hk (by simp)]
    simp only [show c.current.kind = _ from hk]
    rfl

theorem localVariable_eq (scope : String) : localVariable scope = (do
    let t ← token
    let (type, name) ← head
    if (← token).kind = .openParen then throw ⟨.nestedFunction name, t.span⟩
    else variableRest scope t.span type name) := by
  funext ⟨symbols, c⟩
  rw [token_bind]
  unfold localVariable Declaration.parseLocal
  symm
  apply ofAttempt_bind rfl
  rintro ⟨type, name, d, hd⟩
  simp only [token_bind]
  change (if d.kind = .openParen then _ else _ : Reader Declaration) _ = _
  by_cases hk : d.kind = .openParen
  · rw [if_pos hk, if_pos hk]
    rfl
  · rw [if_neg hk, if_neg hk, ← bind_pure (variableRest scope _ type name)]
    apply ofAttempt_bind rfl
    intro read
    rfl

def bodyAfter (function : String) (st : Stmt) : Reader (List Stmt × Option Expr) := do
  let (stmts, result) ← body function
  return (st :: stmts, result)

def bodyOfExpr (function : String) : Reader (List Stmt × Option Expr) := do
  let e ← expr function
  pass .semicolon .afterStatement
  bodyAfter function (.expression e)

theorem body_eq (function : String) : body function = (do
    match (← token).kind with
    | .closeBrace => return ([], none)
    | .returnWord => do
      advance
      let result ← expr function
      pass .semicolon .afterReturnValue
      insist .closeBrace .afterReturn
      return ([], some result)
    | .eof => missing .endOfBody
    | .typeWord _ => do
      let decl ← localVariable function
      pass .semicolon .afterDeclaration
      bodyAfter function (.declaration decl)
    | _ => bodyOfExpr function) := by
  funext ⟨symbols, c⟩
  rw [token_bind]
  conv => lhs; unfold body
  rw [Declaration.parseBody]
  symm
  cases hk : c.kind with
  | closeBrace =>
    simp only [show c.current.kind = _ from hk]
    rfl
  | returnWord =>
    simp only [show c.current.kind = _ from hk, advance_bind]
    apply ofAttempt_bind (expr_eq_ofAttempt function)
    rintro ⟨result, d⟩
    apply ofAttempt_bind (pass_eq_ofAttempt _ (by simp))
    intro e
    apply ofAttempt_bind (insist_eq_ofAttempt _ _)
    intro u
    rfl
  | eof =>
    simp only [show c.current.kind = _ from hk]
    rfl
  | typeWord word =>
    simp only [show c.current.kind = _ from hk]
    apply ofAttempt_bind rfl
    rintro ⟨decl, symbols', d⟩
    apply ofAttempt_bind (pass_eq_ofAttempt _ (by simp))
    intro e
    apply ofAttempt_bind rfl
    rintro ⟨stmts, result, symbols'', f⟩
    rfl
  | _ =>
    simp only [show c.current.kind = _ from hk, bodyOfExpr]
    apply ofAttempt_bind (expr_eq_ofAttempt function)
    rintro ⟨e, d⟩
    apply ofAttempt_bind (pass_eq_ofAttempt _ (by simp))
    intro e
    apply ofAttempt_bind rfl
    rintro ⟨stmts, result, symbols'', f⟩
    rfl

theorem global_eq : global = (do
    let t ← token
    let (type, name) ← head
    if (← token).kind = .openParen then do
      advance
      let proto ← prototype t.span type name
      match (← token).kind with
      | .semicolon => return .prototype proto
      | .openBrace => do
        advance
        let (stmts, result) ← body name
        return .function proto stmts result
      | _ => missing .afterPrototype
    else variableRest "" t.span type name) := by
  funext ⟨symbols, c⟩
  rw [token_bind]
  unfold global Declaration.parseGlobal
  symm
  apply ofAttempt_bind rfl
  rintro ⟨type, name, d, hd⟩
  simp only [token_bind]
  change (if d.kind = .openParen then _ else _ : Reader Declaration) _ = _
  by_cases hk : d.kind = .openParen
  · rw [if_pos hk, if_pos hk, advance_bind]
    apply ofAttempt_bind rfl
    rintro ⟨proto, symbols', e⟩
    simp only [token_bind]
    cases he : e.kind with
    | semicolon =>
      simp only [show e.current.kind = _ from he]
      rfl
    | openBrace =>
      simp only [show e.current.kind = _ from he, advance_bind]
      apply ofAttempt_bind rfl
      rintro ⟨stmts, result, symbols'', f⟩
      rfl
    | _ =>
      simp only [show e.current.kind = _ from he]
      rfl
  · rw [if_neg hk, if_neg hk, ← bind_pure (variableRest "" _ type name)]
    apply ofAttempt_bind rfl
    intro read
    rfl

end Reader

end FormCompiler
