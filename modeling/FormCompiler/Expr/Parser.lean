import FormCompiler.Cursor
import FormCompiler.Decimal.Text
import FormCompiler.Expr
import FormCompiler.SymbolTable

/-!
Reading expressions. Operators are grouped by how tightly they bind and to the left among equals;
names are resolved where they stand.
-/

namespace FormCompiler

structure Names where
  symbols : SymbolTable
  scope : String

def Names.type? (names : Names) (name : String) : Option Ty :=
  names.symbols.lookup? names.scope name

namespace Literal

def int? (text : String) : Option Int64 := do
  let n ← Decimal.integer? text.toList
  if -0x8000000000000000 ≤ n ∧ n < 0x8000000000000000 then some (Int64.ofInt n) else none

def float? (text : String) : Option Float := Decimal.read? text

end Literal

namespace Expr

abbrev Read (α : Type) (c : Cursor) := Except Refusal (α × c.Later)

def operator? (c : Cursor) : Option (BinaryOp × c.Later) := do
  let (kind, d) ← c.uncons?
  let op ← kind.operator?
  return (op, d)

mutual

def parse (names : Names) (c : Cursor) : Read Expr c := do
  let ⟨operand, d, hd⟩ ← parseOperand names c
  let ⟨expr, e, he⟩ ← parseOperators names 0 operand d
  return (expr, ⟨e, Cursor.later_onward hd he⟩)
termination_by 3 * c.size + 1

def parseOperand (names : Names) (c : Cursor) : Read Expr c :=
  match c.uncons? with
  | some (.int text, d) =>
    match Literal.int? text with
    | some value => .ok (.int value c.span, d)
    | none => .error (c.refuse (.malformedLiteral text))
  | some (.float text, d) =>
    match Literal.float? text with
    | some value => .ok (.float value c.span, d)
    | none => .error (c.refuse (.malformedLiteral text))
  | some (.name name, ⟨d, hd⟩) =>
    match names.type? name with
    | none => .error (c.refuse (.unknownName (scopedName names.scope name)))
    | some type =>
      match d.uncons? with
      | some (.openParen, ⟨e, he⟩) => do
        let ⟨⟨args, close⟩, f, hf⟩ ← parseArguments names e
        return (.call name args type (c.span.through close),
          ⟨f, Cursor.later_trans (Cursor.later_trans hd he) hf⟩)
      | _ => .ok (.var name type c.span, ⟨d, hd⟩)
  | some (.openParen, ⟨d, hd⟩) => do
    let ⟨inner, e, he⟩ ← parse names d
    let ⟨f, hf⟩ ← e.pass .closeParen .closeParen
    return (inner, ⟨f, Cursor.later_trans (Cursor.later_trans hd he) hf⟩)
  | some (.ifWord, ⟨c₁, h₁⟩) => do
    let ⟨c₂, h₂⟩ ← c₁.pass .openParen .openCondition
    let ⟨condition, c₃, h₃⟩ ← parse names c₂
    let ⟨c₄, h₄⟩ ← c₃.pass .closeParen .closeCondition
    let ⟨whenTrue, c₅, h₅⟩ ← parse names c₄
    let ⟨c₆, h₆⟩ ← c₅.pass .elseWord .elseBranch
    let ⟨whenFalse, c₇, h₇⟩ ← parse names c₆
    return (.cond condition whenTrue whenFalse (c.span.through whenFalse.span), ⟨c₇, by omega⟩)
  | _ => .error (c.refuse (.unexpected c.kind))
termination_by 3 * c.size

/-- Extends `lhs` by the operators in hand that bind at least as tightly as `least`. The right
operand of each takes the operators that bind tighter. -/
def parseOperators (names : Names) (least : Nat) (lhs : Expr) (c : Cursor) :
    Except Refusal (Expr × c.Onward) :=
  match operator? c with
  | none => .ok (lhs, ⟨c, Cursor.onward_refl c⟩)
  | some (op, ⟨d, hd⟩) =>
    if op.precedence < least then .ok (lhs, ⟨c, Cursor.onward_refl c⟩)
    else do
      let ⟨operand, e, he⟩ ← parseOperand names d
      let ⟨rhs, f, hf⟩ ← parseOperators names (op.precedence + 1) operand e
      let ⟨expr, g, hg⟩ ← parseOperators names least (join op lhs rhs) f
      return (expr, ⟨g, by omega⟩)
termination_by 3 * c.size

def parseArguments (names : Names) (c : Cursor) : Read (List Expr × Span) c :=
  match c.uncons? with
  | some (.closeParen, d) => .ok (([], c.span), d)
  | _ => parseMoreArguments names c
termination_by 3 * c.size + 3

def parseMoreArguments (names : Names) (c : Cursor) : Read (List Expr × Span) c := do
  let ⟨arg, d, hd⟩ ← parse names c
  match d.uncons? with
  | some (.closeParen, ⟨e, he⟩) => return (([arg], d.span), ⟨e, Cursor.later_trans hd he⟩)
  | _ =>
    let ⟨e, he⟩ ← d.pass .comma .afterArgument
    let ⟨⟨args, close⟩, f, hf⟩ ← parseMoreArguments names e
    return ((arg :: args, close), ⟨f, Cursor.later_trans (Cursor.later_trans hd he) hf⟩)
termination_by 3 * c.size + 2

end

end Expr

end FormCompiler
