import FormCompiler.Parser

/-!
Reading as a sequence of small moves. What is read of an expression or a declaration is what these
moves give: looking at the token in hand, passing it, refusing it, and entering names.
-/

namespace FormCompiler

structure Place where
  symbols : SymbolTable
  cursor : Cursor

abbrev Reader := EStateM ParseError Place

namespace Reader

variable {α β : Type}

def token : Reader Token := return (← get).cursor.current

def type? (scope name : String) : Reader (Option Ty) :=
  return (← get).symbols.lookup? scope name

def advance : Reader Unit := modify fun s => { s with cursor := s.cursor.advance }

def refuse (cause : ParseError.Cause) : Reader α := do throw ⟨cause, (← token).span⟩

def missing (what : Expected) : Reader α := do refuse (.expected what (← token).kind)

def insist (kind : Kind) (what : Expected) : Reader Unit := do
  if (← token).kind = kind then return () else missing what

def pass (kind : Kind) (what : Expected) : Reader Unit := do
  insist kind what
  advance

def declare (scope name : String) (type : Ty) : Reader Unit :=
  modify fun s => { s with symbols := s.symbols.declare scope name type }

section Moves

variable {symbols : SymbolTable} {c : Cursor}

theorem token_bind (f : Token → Reader β) :
    (token >>= f) ⟨symbols, c⟩ = f c.current ⟨symbols, c⟩ := rfl

theorem type?_bind (scope name : String) (f : Option Ty → Reader β) :
    (type? scope name >>= f) ⟨symbols, c⟩ = f (symbols.lookup? scope name) ⟨symbols, c⟩ := rfl

theorem advance_bind (f : Unit → Reader β) :
    (advance >>= f) ⟨symbols, c⟩ = f () ⟨symbols, c.advance⟩ := rfl

theorem declare_bind (scope name : String) (type : Ty) (f : Unit → Reader β) :
    (declare scope name type >>= f) ⟨symbols, c⟩ =
      f () ⟨symbols.declare scope name type, c⟩ := rfl

theorem ok_bind {m : Reader α} {k : α → Reader β} {s t : Place} {a : α} (h : m s = .ok a t) :
    (m >>= k) s = k a t := by
  simp only [bind, EStateM.bind, h]

theorem error_bind {m : Reader α} {k : α → Reader β} {s t : Place} {e : ParseError}
    (h : m s = .error e t) : (m >>= k) s = .error e t := by
  simp only [bind, EStateM.bind, h]

def ofExcept {P : Cursor → Prop} (symbols : SymbolTable) (r : Except Refusal (α × { d // P d })) :
    EStateM.Result ParseError Place α :=
  match r with
  | .ok (a, d) => .ok a ⟨symbols, d.val⟩
  | .error r => .error r.error ⟨symbols, r.cursor⟩

theorem ofExcept_bind {P Q : Cursor → Prop} {r : Except Refusal (α × { d // P d })}
    {f : α × { d // P d } → Except Refusal (β × { d // Q d })} {m : Reader α} {k : α → Reader β}
    (hm : m ⟨symbols, c⟩ = ofExcept symbols r)
    (hk : ∀ a d, k a ⟨symbols, d.val⟩ = ofExcept symbols (f (a, d))) :
    (m >>= k) ⟨symbols, c⟩ = ofExcept symbols (r >>= f) := by
  simp only [bind, EStateM.bind, hm]
  cases r with
  | error r => rfl
  | ok read => exact hk read.1 read.2

theorem uncons?_of_kind {kind : Kind} (h : c.kind = kind) (hk : kind ≠ .eof) :
    c.uncons? = some (kind, ⟨c.advance, Cursor.size_advance_lt (by rwa [h])⟩) := by
  subst h
  exact dif_neg hk

theorem kind_of_uncons? {kind : Kind} {d : c.Later} (h : c.uncons? = some (kind, d)) :
    c.kind = kind := by
  unfold Cursor.uncons? at h
  split at h
  · cases h
  · cases h
    rfl

theorem uncons?_eof (h : c.kind = .eof) : c.uncons? = none := dif_pos h

theorem insist_bind (kind : Kind) (what : Expected) (k : Unit → Reader β) :
    (insist kind what >>= k) =
      token >>= fun t => if t.kind = kind then k () else missing what := by
  unfold insist
  rw [bind_assoc]
  congr 1
  funext t
  split <;> rfl

/-- The two cases of insisting, for whatever is said of a reader by the token in hand. -/
theorem insist_cases {M : Reader β → Prop} {kind : Kind} {what : Expected} {k : Unit → Reader β}
    (htoken : ∀ f : Token → Reader β, M (f c.current) → M (token >>= f))
    (hmissing : M (missing what)) (hk : c.kind = kind → M (k ())) : M (insist kind what >>= k) := by
  rw [insist_bind]
  apply htoken
  split
  next h => exact hk h
  next => exact hmissing

theorem insist_of_kind {kind : Kind} {what : Expected} (h : c.kind = kind) :
    insist kind what ⟨symbols, c⟩ = .ok () ⟨symbols, c⟩ := by
  rw [insist, token_bind, if_pos (show c.current.kind = kind from h)]
  rfl

theorem pass_of_kind {kind : Kind} {what : Expected} (h : c.kind = kind) :
    pass kind what ⟨symbols, c⟩ = .ok () ⟨symbols, c.advance⟩ := by
  rw [pass, ok_bind (insist_of_kind h)]
  rfl

theorem pass_of_ne {kind : Kind} {what : Expected} (h : c.kind ≠ kind) :
    pass kind what ⟨symbols, c⟩ = .error (c.missing what).error ⟨symbols, c⟩ := by
  simp only [pass, insist, bind_assoc, token_bind]
  rw [if_neg (show ¬ c.current.kind = kind from h)]
  rfl

theorem cursor_pass_of_ne {kind : Kind} {what : Expected} (h : c.kind ≠ kind) :
    c.pass kind what = .error (c.missing what) := by
  unfold Cursor.pass Cursor.uncons?
  by_cases he : c.kind = .eof
  · rw [dif_pos he]
  · rw [dif_neg he]
    exact if_neg h

theorem pass_bind {Q : Cursor → Prop} {kind : Kind} {what : Expected}
    {f : c.Later → Except Refusal (β × { d // Q d })} {k : Unit → Reader β} (hkind : kind ≠ .eof)
    (hk : ∀ d, k () ⟨symbols, d.val⟩ = ofExcept symbols (f d)) :
    (pass kind what >>= k) ⟨symbols, c⟩ = ofExcept symbols (c.pass kind what >>= f) := by
  by_cases h : c.kind = kind
  · have hpass : c.pass kind what = .ok ⟨c.advance, Cursor.size_advance_lt (by rwa [h])⟩ := by
      simp [Cursor.pass, uncons?_of_kind h hkind]
    simp only [bind, EStateM.bind, pass_of_kind h, hpass, Except.bind]
    exact hk ⟨c.advance, _⟩
  · simp only [bind, EStateM.bind, pass_of_ne h, cursor_pass_of_ne h, Except.bind]
    rfl

end Moves

section Expressions

variable (scope : String)

def expr : Reader Expr := fun s => ofExcept s.symbols (Expr.parse ⟨s.symbols, scope⟩ s.cursor)

def operand : Reader Expr := fun s =>
  ofExcept s.symbols (Expr.parseOperand ⟨s.symbols, scope⟩ s.cursor)

def operators (least : Nat) (lhs : Expr) : Reader Expr := fun s =>
  ofExcept s.symbols (Expr.parseOperators ⟨s.symbols, scope⟩ least lhs s.cursor)

def arguments : Reader (List Expr × Span) := fun s =>
  ofExcept s.symbols (Expr.parseArguments ⟨s.symbols, scope⟩ s.cursor)

def moreArguments : Reader (List Expr × Span) := fun s =>
  ofExcept s.symbols (Expr.parseMoreArguments ⟨s.symbols, scope⟩ s.cursor)

theorem expr_eq : expr scope = (do
    let lhs ← operand scope
    operators scope 0 lhs) := by
  funext ⟨symbols, c⟩
  symm
  unfold expr
  rw [Expr.parse]
  apply ofExcept_bind rfl
  intro lhs d
  rw [← bind_pure (operators scope 0 lhs)]
  apply ofExcept_bind rfl
  intro e f
  rfl

def reference (name : String) (start : Span) : Reader Expr := do
  match ← type? scope name with
  | none => refuse (.unknownName (scopedName scope name))
  | some type => do
    advance
    if (← token).kind = .openParen then do
      advance
      let (args, close) ← arguments scope
      return .call name args type (start.through close)
    else return .var name type start

def conditional (start : Span) : Reader Expr := do
  advance
  pass .openParen .openCondition
  let condition ← expr scope
  pass .closeParen .closeCondition
  let whenTrue ← expr scope
  pass .elseWord .elseBranch
  let whenFalse ← expr scope
  return .cond condition whenTrue whenFalse (start.through whenFalse.span)

section Cases

variable {scope : String} {symbols : SymbolTable} {c : Cursor}

theorem operand_of_name {name : String} (hk : c.kind = .name name) :
    operand scope ⟨symbols, c⟩ = reference scope name c.span ⟨symbols, c⟩ := by
  unfold operand reference
  rw [Expr.parseOperand, uncons?_of_kind hk (by simp)]
  simp only [type?_bind, Names.type?]
  cases symbols.lookup? scope name with
  | none => rfl
  | some type =>
    simp only [advance_bind, token_bind]
    by_cases hp : c.advance.kind = .openParen
    · rw [uncons?_of_kind hp (by simp), if_pos (show c.advance.current.kind = _ from hp)]
      simp only [advance_bind]
      symm
      apply ofExcept_bind rfl
      rintro ⟨args, close⟩ d
      rfl
    · rw [if_neg (show ¬ c.advance.current.kind = _ from hp)]
      split
      next hopen => exact absurd (kind_of_uncons? hopen) hp
      next => rfl

theorem operand_of_paren (hk : c.kind = .openParen) :
    operand scope ⟨symbols, c⟩ = (do
      let inner ← expr scope
      pass .closeParen .closeParen
      return inner) ⟨symbols, c.advance⟩ := by
  unfold operand
  rw [Expr.parseOperand, uncons?_of_kind hk (by simp)]
  symm
  apply ofExcept_bind rfl
  intro inner d
  apply pass_bind (by simp)
  intro e
  rfl

theorem operand_of_if (hk : c.kind = .ifWord) :
    operand scope ⟨symbols, c⟩ = conditional scope c.span ⟨symbols, c⟩ := by
  unfold operand conditional
  rw [Expr.parseOperand, uncons?_of_kind hk (by simp), advance_bind]
  symm
  apply pass_bind (by simp)
  intro c₂
  apply ofExcept_bind rfl
  intro condition c₃
  apply pass_bind (by simp)
  intro c₄
  apply ofExcept_bind rfl
  intro whenTrue c₅
  apply pass_bind (by simp)
  intro c₆
  apply ofExcept_bind rfl
  intro whenFalse c₇
  rfl

end Cases

theorem operand_eq : operand scope = (do
    let t ← token
    match t.kind with
    | .int text =>
      match Literal.int? text with
      | some value => do
        advance
        return .int value t.span
      | none => refuse (.malformedLiteral text)
    | .float text =>
      match Literal.float? text with
      | some value => do
        advance
        return .float value t.span
      | none => refuse (.malformedLiteral text)
    | .name name => reference scope name t.span
    | .openParen => do
      advance
      let inner ← expr scope
      pass .closeParen .closeParen
      return inner
    | .ifWord => conditional scope t.span
    | kind => refuse (.unexpected kind)) := by
  funext ⟨symbols, c⟩
  rw [token_bind]
  cases hk : c.kind with
  | int text =>
    unfold operand
    rw [Expr.parseOperand, uncons?_of_kind hk (by simp)]
    simp only [show c.current.kind = _ from hk]
    cases Literal.int? text with
    | none => rfl
    | some value => rfl
  | float text =>
    unfold operand
    rw [Expr.parseOperand, uncons?_of_kind hk (by simp)]
    simp only [show c.current.kind = _ from hk]
    cases Literal.float? text with
    | none => rfl
    | some value => rfl
  | name name =>
    simp only [show c.current.kind = _ from hk]
    exact operand_of_name hk
  | openParen =>
    simp only [show c.current.kind = _ from hk]
    exact operand_of_paren hk
  | ifWord =>
    simp only [show c.current.kind = _ from hk]
    exact operand_of_if hk
  | eof =>
    unfold operand
    rw [Expr.parseOperand, uncons?_eof hk]
    simp only [show c.current.kind = _ from hk]
    rw [← hk]
    rfl
  | _ =>
    unfold operand
    rw [Expr.parseOperand, uncons?_of_kind hk (by simp)]
    simp only [show c.current.kind = _ from hk]
    rw [← hk]
    rfl

theorem operators_eq (least : Nat) (lhs : Expr) : operators scope least lhs = (do
    match (← token).kind.operator? with
    | none => return lhs
    | some op =>
      if op.precedence < least then return lhs
      else do
        advance
        let first ← operand scope
        let rhs ← operators scope (op.precedence + 1) first
        operators scope least (Expr.join op lhs rhs)) := by
  funext ⟨symbols, c⟩
  rw [token_bind]
  conv => lhs; unfold operators
  rw [Expr.parseOperators]
  by_cases hk : c.kind = .eof
  · have hop : Expr.operator? c = none := by simp [Expr.operator?, uncons?_eof hk]
    rw [hop, show c.current.kind = _ from hk]
    rfl
  · have hop : Expr.operator? c = c.kind.operator?.map fun op =>
        (op, ⟨c.advance, Cursor.size_advance_lt hk⟩) := by
      simp only [Expr.operator?, uncons?_of_kind rfl hk]
      change (c.kind.operator?.bind fun op => some (op, _)) = _
      cases c.kind.operator? <;> rfl
    rw [hop]
    change _ = (match c.kind.operator? with
      | none => _
      | some op => _ : Reader Expr) _
    cases c.kind.operator? with
    | none => rfl
    | some op =>
      simp only [Option.map_some]
      split
      · rfl
      · simp only [advance_bind]
        symm
        apply ofExcept_bind rfl
        intro first d
        apply ofExcept_bind rfl
        intro rhs e
        rw [← bind_pure (operators scope least (Expr.join op lhs rhs))]
        apply ofExcept_bind rfl
        intro e f
        rfl

theorem arguments_eq : arguments scope = (do
    let t ← token
    if t.kind = .closeParen then do
      advance
      return ([], t.span)
    else moreArguments scope) := by
  funext ⟨symbols, c⟩
  rw [token_bind]
  unfold arguments
  rw [Expr.parseArguments]
  by_cases hk : c.kind = .closeParen
  · rw [uncons?_of_kind hk (by simp), if_pos (show c.current.kind = _ from hk)]
    rfl
  · rw [if_neg (show ¬ c.current.kind = _ from hk)]
    split
    next hclose => exact absurd (kind_of_uncons? hclose) hk
    next => rfl

theorem moreArguments_eq : moreArguments scope = (do
    let arg ← expr scope
    let t ← token
    if t.kind = .closeParen then do
      advance
      return ([arg], t.span)
    else do
      pass .comma .afterArgument
      let (args, close) ← moreArguments scope
      return (arg :: args, close)) := by
  funext ⟨symbols, c⟩
  symm
  conv => rhs; unfold moreArguments
  rw [Expr.parseMoreArguments]
  apply ofExcept_bind rfl
  intro arg d
  rw [token_bind]
  by_cases hk : d.val.kind = .closeParen
  · simp only [uncons?_of_kind hk (by simp)]
    rw [if_pos (show d.val.current.kind = _ from hk)]
    rfl
  · rw [if_neg (show ¬ d.val.current.kind = _ from hk)]
    simp only
    split
    next hclose => exact absurd (kind_of_uncons? hclose) hk
    next =>
      apply pass_bind (by simp)
      intro e
      apply ofExcept_bind rfl
      rintro ⟨args, close⟩ f
      rfl

end Expressions

end Reader

end FormCompiler
