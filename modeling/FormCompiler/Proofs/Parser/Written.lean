import FormCompiler.Proofs.Parser.Rendering
import FormCompiler.Proofs.Parser.Renaming

namespace FormCompiler

namespace Ty

def word : Ty → TypeWord
  | .int => .int
  | _ => .double

def IsWritten (type : Ty) : Prop := type = .int ∨ type = .double

theorem IsWritten.ofWord_word {type : Ty} (h : type.IsWritten) : ofWord type.word = type := by
  rcases h with rfl | rfl <;> rfl

end Ty

namespace Initializer

def kind : Initializer → Kind
  | .int value => .int (Literal.ofInt value)
  | .float value => .float (Literal.ofFloat value)

def IsWritten (type : Ty) : Initializer → Prop
  | .int value => type = .int ∧ 0 ≤ value
  | .float value => type = .double ∧ value.toBits ≤ 0x7ff0000000000000

end Initializer

namespace Param

def written (q : Param) : WrittenParam := (q.type.word, q.name)

end Param

namespace Prototype

def kinds (p : Prototype) : List Kind :=
  .typeWord p.returns.word :: .name p.name :: .openParen ::
    (WrittenParam.kinds (p.params.map Param.written) ++ [.closeParen])

def erase (p : Prototype) : Prototype := { p with span := .nowhere }

structure IsWritten (p : Prototype) : Prop where
  returns : p.returns.IsWritten
  params : ∀ q ∈ p.params, q.type.IsWritten
  nodup : (p.params.map Param.name).Nodup

end Prototype

namespace Declaration

def variableKinds : Declaration → List Kind
  | .variableOf type name _ => [.typeWord type.word, .name name, .semicolon]
  | .variableAs type name init _ =>
    [.typeWord type.word, .name name, .equals, init.kind, .semicolon]
  | .prototype _ | .function .. => []

def IsWrittenVariable : Declaration → Prop
  | .variableOf type _ _ => type.IsWritten
  | .variableAs type _ init _ => type.IsWritten ∧ init.IsWritten type
  | .prototype _ | .function .. => False

end Declaration

def Stmt.kinds : Stmt → List Kind
  | .declaration d => d.variableKinds
  | .expression e => e.kinds ++ [.semicolon]

def bodyKinds (body : List Stmt) (result : Option Expr) : List Kind :=
  body.flatMap Stmt.kinds ++ match result with
    | none => []
    | some e => .returnWord :: (e.kinds ++ [.semicolon])

def Declaration.kinds : Declaration → List Kind
  | .prototype p => p.kinds ++ [.semicolon]
  | .function p body result => p.kinds ++ .openBrace :: (bodyKinds body result ++ [.closeBrace])
  | d => d.variableKinds

def Form.kinds : Form → List Kind
  | .expression e => e.kinds ++ [.semicolon]
  | .declaration d => d.kinds
  | .anonymous a => a.expr.kinds ++ [.semicolon]

mutual

def Stmt.erase : Stmt → Stmt
  | .declaration d => .declaration d.erase
  | .expression e => .expression e.erase

def Declaration.erase : Declaration → Declaration
  | .prototype p => .prototype p.erase
  | .function p body result => .function p.erase (eraseBody body) (result.map Expr.erase)
  | .variableOf type name _ => .variableOf type name .nowhere
  | .variableAs type name init _ => .variableAs type name init .nowhere

def eraseBody : List Stmt → List Stmt
  | [] => []
  | st :: body => st.erase :: eraseBody body

end

def Form.erase : Form → Form
  | .expression e => .expression e.erase
  | .declaration d => .declaration d.erase
  | .anonymous a => .anonymous ⟨a.proto.erase, a.expr.erase⟩

def SymbolTable.declareAll (t : SymbolTable) (ns : List Naming) : SymbolTable :=
  ns.foldl (fun t n => t.declare n.scope n.name n.type) t

def WellScopedBody (function : String) : SymbolTable → List Stmt → Option Expr → Prop
  | t, [], result => ∀ e ∈ result, e.WellScoped (t.lookup? function)
  | t, .expression e :: body, result =>
    e.WellScoped (t.lookup? function) ∧ WellScopedBody function t body result
  | t, .declaration d :: body, result => d.IsWrittenVariable ∧
    WellScopedBody function (t.declareAll (Stmt.namings function (.declaration d))) body result

def Declaration.WellScoped (t : SymbolTable) : Declaration → Prop
  | .prototype p => p.IsWritten
  | .function p body result =>
    p.IsWritten ∧ WellScopedBody p.name (t.declareAll p.namings) body result
  | d => d.IsWrittenVariable

/-- A form that can be written where the names are those of the table: a declaration, a call, or
another expression under the name that its number gives it. -/
def Form.WellScoped (t : SymbolTable) (counter : Nat) : Form → Prop
  | .expression e => e.isCall = true ∧ e.WellScoped (t.lookup? "")
  | .declaration d => d.WellScoped t
  | .anonymous a => a.expr.isCall = false ∧ a.expr.WellScoped (t.lookup? "") ∧
    a.proto.returns = a.expr.ty ∧ a.proto.name = Anonymous.nameOf counter ∧ a.proto.params = []

def Form.namings : Form → List Naming
  | .declaration d => d.namings
  | .expression _ | .anonymous _ => []

namespace Cursor

variable {c d d' : Cursor} {kind : Kind} {kinds after : List Kind}

theorem kinds_advance_of_append (hc : c.kinds = kind :: (kinds ++ after)) (hne : after ≠ []) :
    c.advance.kinds = kinds ++ after := by
  cases h : kinds ++ after with
  | nil => exact absurd (List.append_eq_nil_iff.mp h).2 hne
  | cons kind' rest => exact kinds_advance_of_cons (hc.trans (by rw [h]))

theorem exists_yields_of_kinds (hc : c.kinds = kinds ++ kind :: after) (heof : .eof ∉ kinds) :
    ∃ w d, c.Yields w d ∧ w.map Token.kind = kinds ∧ d.kinds = kind :: after := by
  induction kinds generalizing c with
  | nil => exact ⟨[], c, .nil, rfl, hc⟩
  | cons first kinds ih =>
    have hfirst : c.kind = first := kind_of_cons hc
    have hne : c.kind ≠ .eof := fun he => heof (he ▸ hfirst ▸ List.mem_cons_self)
    obtain ⟨w, d, hw, rfl, hd⟩ := ih (kinds_advance_of_append hc (List.cons_ne_nil _ _))
      fun h => heof (List.mem_cons_of_mem _ h)
    exact ⟨c.current :: w, d, .cons hne hw, by rw [List.map_cons, ← hfirst]; rfl, hd⟩

theorem Leads.eq_or_after (h : c.Leads d) : c = d ∨ c.advance.Leads d := by
  induction h with
  | refl => exact .inl rfl
  | advance _ ih =>
    rcases ih with rfl | ih
    · exact .inr .refl
    · exact .inr ih.advance

theorem Leads.total (h : c.Leads d) (h' : c.Leads d') : d.Leads d' ∨ d'.Leads d := by
  induction h with
  | refl => exact .inl h'
  | @advance d _ ih =>
    rcases ih with ih | ih
    · rcases ih.eq_or_after with rfl | ih
      · exact .inr (.advance .refl)
      · exact .inl ih
    · exact .inr ih.advance

theorem Leads.eq_of_kinds (h : c.Leads d) (h' : c.Leads d') (hkinds : d'.kinds = d.kinds)
    (hd : d.kind ≠ .eof) : d' = d := by
  have hkind : d'.kind = d.kind := kind_of_kinds hkinds
  have hsize : d'.size = d.size := by
    rw [size, size, hkind, length_of_kinds hkinds]
  have hstep : ∀ {d d' : Cursor}, d.Leads d' → d.kind ≠ .eof → d'.size = d.size → d' = d := by
    intro d d' h hd hsize
    rcases h.eq_or_after with rfl | h
    · rfl
    · have := h.size_le
      have := size_advance_lt hd
      omega
  rcases h.total h' with hlead | hlead
  · exact hstep hlead hd hsize
  · exact (hstep hlead (hkind ▸ hd) hsize.symm).symm

end Cursor

end FormCompiler
