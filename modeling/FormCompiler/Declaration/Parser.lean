import FormCompiler.Expr.Parser
import FormCompiler.Form

namespace FormCompiler

/-- What was read, or why it was refused; the names declared on the way are kept in both cases. -/
abbrev Attempt (α : Type) := Except (Refusal × SymbolTable) α

def Attempt.of {α : Type} (symbols : SymbolTable) (read : Except Refusal α) : Attempt α :=
  read.mapError (·, symbols)

namespace Declaration

structure Head (c : Cursor) where
  type : Ty
  name : String
  rest : c.Later

def parseHead (c : Cursor) : Except Refusal (Head c) :=
  match c.uncons? with
  | some (.typeWord word, ⟨d, hd⟩) =>
    match d.uncons? with
    | some (.name name, ⟨e, he⟩) => .ok ⟨.ofWord word, name, e, Cursor.later_trans hd he⟩
    | _ => .error (d.missing .declaredName)
  | _ => .error (c.missing .type)

def parseParams (function : String) (before : List Param) (symbols : SymbolTable) (c : Cursor) :
    Attempt (List Param × SymbolTable × Cursor) :=
  match c.uncons? with
  | some (.typeWord word, ⟨d, _⟩) =>
    match d.uncons? with
    | some (.name name, ⟨e, _⟩) =>
      if before.any (·.name == name) then
        .error (d.refuse (.duplicateParameter function name), symbols)
      else
        let type := Ty.ofWord word
        let params := before ++ [⟨type, name⟩]
        let symbols := symbols.declare function name type
        match e.uncons? with
        | some (.comma, ⟨f, _⟩) => parseParams function params symbols f
        | _ => .ok (params, symbols, e)
    | _ => .error (d.missing .parameterName, symbols)
  | _ => .error (c.missing .parameterType, symbols)
termination_by c.size

def parsePrototype (start : Span) (returns : Ty) (name : String) (symbols : SymbolTable)
    (c : Cursor) : Attempt (Prototype × SymbolTable × Cursor) := do
  let (params, symbols, d) ←
    if c.kind = .closeParen then pure ([], symbols, c)
    else parseParams name [] symbols c
  Attempt.of symbols (d.insist .closeParen .endOfParameters)
  return (⟨returns, name, params, start.through d.span⟩, symbols.declare "" name returns, d.advance)

def parseInitializer (type : Ty) (name : String) (c : Cursor) :
    Except Refusal (Initializer × c.Later) :=
  match c.uncons? with
  | some (.int text, d) =>
    match Literal.int? text with
    | none => .error (c.refuse (.malformedLiteral text))
    | some value =>
      if type = .int then .ok (.int value, d)
      else .error (c.refuse (.initializerMismatch name type .int))
  | some (.float text, d) =>
    match Literal.float? text with
    | none => .error (c.refuse (.malformedLiteral text))
    | some value =>
      if type = .double then .ok (.float value, d)
      else .error (c.refuse (.initializerMismatch name type .double))
  | _ => .error (c.missing .initializer)

def parseVariable (scope : String) (start : Span) (type : Ty) (name : String)
    (symbols : SymbolTable) (c : Cursor) : Attempt (Declaration × SymbolTable × c.Onward) :=
  match c.uncons? with
  | some (.semicolon, _) =>
    .ok (.variableOf type name (start.through c.span), symbols.declare scope name type,
      ⟨c, Cursor.onward_refl c⟩)
  | some (.equals, ⟨d, hd⟩) => do
    let symbols := symbols.declare scope name type
    let ⟨init, e, he⟩ ← Attempt.of symbols (parseInitializer type name d)
    Attempt.of symbols (e.insist .semicolon .afterInitializer)
    return (.variableAs type name init (start.through e.span), symbols,
      ⟨e, Cursor.onward_of_later (Cursor.later_trans hd he)⟩)
  | _ => .error (c.missing .afterDeclaredName, symbols)

def parseLocal (scope : String) (symbols : SymbolTable) (c : Cursor) :
    Attempt (Declaration × SymbolTable × c.Later) := do
  let ⟨type, name, d, hd⟩ ← Attempt.of symbols (parseHead c)
  if d.kind = .openParen then .error (⟨⟨.nestedFunction name, c.span⟩, d⟩, symbols)
  else
    let ⟨decl, symbols, e, he⟩ ← parseVariable scope c.span type name symbols d
    return (decl, symbols, ⟨e, Cursor.later_onward hd he⟩)

def parseBody (function : String) (symbols : SymbolTable) (c : Cursor) :
    Attempt (List Stmt × Option Expr × SymbolTable × Cursor) :=
  match c.kind with
  | .closeBrace => .ok ([], none, symbols, c)
  | .returnWord => do
    let ⟨result, d, _⟩ ← Attempt.of symbols (Expr.parse ⟨symbols, function⟩ c.advance)
    let e ← Attempt.of symbols (d.pass .semicolon .afterReturnValue)
    Attempt.of symbols (e.val.insist .closeBrace .afterReturn)
    return ([], some result, symbols, e)
  | .eof => .error (c.missing .endOfBody, symbols)
  | .typeWord _ => do
    let ⟨decl, symbols, d, _⟩ ← parseLocal function symbols c
    let ⟨e, _⟩ ← Attempt.of symbols (d.pass .semicolon .afterDeclaration)
    let (body, rest) ← parseBody function symbols e
    return (.declaration decl :: body, rest)
  | _ => do
    let ⟨expr, d, _⟩ ← Attempt.of symbols (Expr.parse ⟨symbols, function⟩ c)
    let ⟨e, _⟩ ← Attempt.of symbols (d.pass .semicolon .afterStatement)
    let (body, rest) ← parseBody function symbols e
    return (.expression expr :: body, rest)
termination_by c.size

def parseGlobal (symbols : SymbolTable) (c : Cursor) :
    Attempt (Declaration × SymbolTable × Cursor) := do
  let ⟨type, name, d, _⟩ ← Attempt.of symbols (parseHead c)
  if d.kind = .openParen then
    let (proto, symbols, e) ← parsePrototype c.span type name symbols d.advance
    match e.kind with
    | .semicolon => return (.prototype proto, symbols, e)
    | .openBrace =>
      let (body, result, symbols, f) ← parseBody name symbols e.advance
      return (.function proto body result, symbols, f)
    | _ => .error (e.missing .afterPrototype, symbols)
  else
    let ⟨decl, symbols, e, _⟩ ← parseVariable "" c.span type name symbols d
    return (decl, symbols, e)

def parse (scope : String) (symbols : SymbolTable) (c : Cursor) :
    Attempt (Declaration × SymbolTable × Cursor) :=
  if scope = "" then parseGlobal symbols c
  else do
    let ⟨decl, symbols, d, _⟩ ← parseLocal scope symbols c
    return (decl, symbols, d)

end Declaration

end FormCompiler
