import FormCompiler.Declaration.Parser

namespace FormCompiler

/-- `counter` numbers the next wrapped expression, `errors` are those not yet taken. -/
structure Parser where
  cursor : Cursor
  symbols : SymbolTable := {}
  counter : Nat := 0
  errors : List ParseError := []

namespace Parser

/-- Before the first form a semicolon is in hand, as after a form. -/
def ofStream (stream : TokenStream) : Parser := { cursor := ⟨⟨.semicolon, .nowhere⟩, stream⟩ }

structure Reply (α : Type) where
  result : α
  parser : Parser
  notes : List Note

def advance (p : Parser) : Reply Unit :=
  let d := p.cursor.advance
  ⟨(), { p with cursor := d }, p.cursor.heard d⟩

def synchronize (p : Parser) : Reply Unit :=
  let d := p.cursor.skipForm
  ⟨(), { p with cursor := d }, p.cursor.heard d⟩

def refuse {α : Type} (p : Parser) (r : Refusal) : Reply (Option α) :=
  ⟨none, { p with cursor := r.cursor, errors := p.errors ++ [r.error] },
    p.cursor.heard r.cursor ++ [r.error.note]⟩

def expression (p : Parser) (scope : String) : Reply (Option Expr) :=
  match Expr.parse ⟨p.symbols, scope⟩ p.cursor with
  | .ok (e, d) => ⟨some e, { p with cursor := d }, p.cursor.heard d⟩
  | .error r => p.refuse r

def declaration (p : Parser) (scope : String) : Reply (Option Declaration) :=
  match Declaration.parse scope p.symbols p.cursor with
  | .ok (decl, symbols, d) => ⟨some decl, { p with cursor := d, symbols }, p.cursor.heard d⟩
  | .error (r, symbols) => { p with symbols }.refuse r

def topExpression (p : Parser) : Reply (Option Form) :=
  let attempt : Except Refusal (Expr × Cursor) := do
    let ⟨e, d, _⟩ ← Expr.parse ⟨p.symbols, ""⟩ p.cursor
    d.insist .semicolon .afterExpression
    return (e, d)
  match attempt with
  | .ok (e, d) =>
    let form := if e.isCall then .expression e else .anonymous (.wrap e p.counter)
    ⟨some form, { p with cursor := d }, p.cursor.heard d⟩
  | .error r => p.refuse r

def reject (p : Parser) : Parser := { p with symbols := p.symbols.rollback }

def settle (r : Reply (Option Form)) : Reply (Option Form) :=
  match r.result with
  | some _ => r
  | none =>
    let s := r.parser.reject.synchronize
    ⟨none, s.parser, r.notes ++ s.notes⟩

/-- Reads the next form. Nothing comes of a form that is refused or, like `include`, skipped. -/
def next (p : Parser) : Reply (Option Form) :=
  let ⟨_, q, first⟩ := { p with symbols := p.symbols.checkpoint }.advance
  let rest : Reply (Option Form) :=
    match q.cursor.kind with
    | .eof => ⟨some (.expression .endOfInput), q, []⟩
    | .includeWord =>
      let s := q.synchronize
      ⟨none, s.parser,
        .warn s!"{q.cursor.span.text}: include is not supported, ignoring" :: s.notes⟩
    | .typeWord _ =>
      let d := q.declaration ""
      settle ⟨d.result.map .declaration, d.parser, d.notes⟩
    | _ => settle q.topExpression
  ⟨rest.result, rest.parser, first ++ rest.notes⟩

def takeErrors (p : Parser) : List ParseError × Parser := (p.errors, { p with errors := [] })

def countAnonymous (p : Parser) : Parser := { p with counter := p.counter + 1 }

def remaining (p : Parser) : Nat := p.cursor.stream.pending.length

def forms (p : Parser) : Reply (List Form) :=
  let r := p.next
  match r.result with
  | some form =>
    if form.isEnd then ⟨[], r.parser, r.notes⟩
    else
      let q := match form with
        | .declaration _ => r.parser
        | _ => r.parser.countAnonymous
      if _h : q.remaining < p.remaining then
        let s := q.forms
        ⟨form :: s.result, s.parser, r.notes ++ s.notes⟩
      else ⟨[form], q, r.notes⟩
  | none =>
    if _h : r.parser.remaining < p.remaining then
      let s := r.parser.forms
      ⟨s.result, s.parser, r.notes ++ s.notes⟩
    else ⟨[], r.parser, r.notes⟩
termination_by p.remaining

end Parser

def parseText (text : String) : Parser.Reply (List Form) :=
  (Parser.ofStream (.ofSource (.ofText text))).forms

end FormCompiler
