import FormCompiler.Proofs.Parser.Rendering
import FormCompiler.Proofs.Token.Spelling

namespace FormCompiler

inductive RingOp
  | add
  | sub
  | mul

namespace RingOp

def binary : RingOp → BinaryOp
  | add => .add
  | sub => .sub
  | mul => .mul

def apply : RingOp → Int → Int → Int
  | add => (· + ·)
  | sub => (· - ·)
  | mul => (· * ·)

end RingOp

inductive Arithmetic
  | number (n : Nat)
  | operation (op : RingOp) (lhs rhs : Arithmetic)

namespace Arithmetic

def value : Arithmetic → Int
  | number n => n
  | operation op lhs rhs => op.apply lhs.value rhs.value

def size : Arithmetic → Nat
  | number _ => 0
  | operation _ lhs rhs => lhs.size + rhs.size + 1

/-- The characters that an expression may be spelled with where one of the stratum is asked for.
Products bind tighter than sums and differences, and both group to the left. -/
inductive Spelled : Arithmetic → Stratum → List Char → Prop
  | number {digits : List Char} : digits ≠ [] → (∀ c ∈ digits, c.isDigit = true) →
      Nat.ofDigitChars 10 digits 0 < 2 ^ 63 →
      Spelled (.number (Nat.ofDigitChars 10 digits 0)) .primary digits
  | paren {e : Arithmetic} {cs : List Char} : Spelled e .sum cs →
      Spelled e .primary ('(' :: (cs ++ [')']))
  | operation {op : RingOp} {lhs rhs : Arithmetic} {cs ds : List Char} :
      Spelled lhs op.binary.stratum cs → Spelled rhs op.binary.stratum.next ds →
      Spelled (.operation op lhs rhs) op.binary.stratum (cs ++ op.binary.symbol :: ds)
  | lift {e : Arithmetic} {σ : Stratum} {cs : List Char} : Spelled e σ.next cs → Spelled e σ cs
  | blankBefore {e : Arithmetic} {σ : Stratum} {c : Char} {cs : List Char} :
      Text.isBlank c = true → Spelled e σ cs → Spelled e σ (c :: cs)
  | blankAfter {e : Arithmetic} {σ : Stratum} {c : Char} {cs : List Char} :
      Text.isBlank c = true → Spelled e σ cs → Spelled e σ (cs ++ [c])

/-- The text spells the expression and a semicolon, and nothing but blanks after it. -/
def Written (e : Arithmetic) (text : String) : Prop :=
  ∃ cs blanks, text.toList = cs ++ ';' :: blanks ∧ e.Spelled .sum cs ∧
    ∀ c ∈ blanks, Text.isBlank c = true

inductive ReadAs : Arithmetic → Expr → Prop
  | number {n : Nat} {span : Span} : ReadAs (.number n) (.int (Int64.ofNat n) span)
  | operation {op : RingOp} {lhs rhs : Arithmetic} {l r : Expr} {span : Span} :
      ReadAs lhs l → ReadAs rhs r →
      ReadAs (.operation op lhs rhs) (.binary op.binary l r span)

variable {e : Arithmetic} {σ : Stratum} {cs : List Char} {text : String} {tree : Expr}

theorem Spelled.size_lt_length (h : e.Spelled σ cs) : 2 * e.size < cs.length := by
  induction h with
  | number hne _ _ => exact List.length_pos_iff.mpr hne
  | paren _ ih =>
    simp only [List.length_cons, List.length_append]
    omega
  | operation _ _ ihl ihr =>
    simp only [size, List.length_append, List.length_cons]
    omega
  | lift _ ih => exact ih
  | blankBefore _ _ ih => exact Nat.lt_succ_of_lt ih
  | blankAfter _ _ ih =>
    rw [List.length_append]
    exact Nat.lt_add_right _ ih

theorem Written.size_lt_length (h : e.Written text) : 2 * (e.size + 1) ≤ text.length := by
  obtain ⟨cs, blanks, hsplit, hspelled, _⟩ := h
  have hless := hspelled.size_lt_length
  rw [← String.length_toList, hsplit, List.length_append, List.length_cons]
  omega

theorem Spelled.of_primary (h : e.Spelled .primary cs) : e.Spelled σ cs := by
  cases σ with
  | comparison => exact .lift (.lift (.lift h))
  | sum => exact .lift (.lift h)
  | term => exact .lift h
  | primary => exact h

theorem Spelled.toDigits {n : Nat} (h : n < 2 ^ 63) :
    Spelled (.number n) .primary (Nat.toDigits 10 n) := by
  have hspells : Nat.ofDigitChars 10 (Nat.toDigits 10 n) 0 = n := Nat.ofDigitChars_ten_toDigits
  have hspelled := Spelled.number Nat.toDigits_ne_nil
    (fun _ hmem => Nat.isDigit_of_mem_toDigits (by decide) (by decide) hmem)
    (hspells.symm ▸ h : Nat.ofDigitChars 10 (Nat.toDigits 10 n) 0 < 2 ^ 63)
  rwa [hspells] at hspelled

def Bounded : Arithmetic → Prop
  | number n => n < 2 ^ 63
  | operation _ lhs rhs => lhs.Bounded ∧ rhs.Bounded

theorem Spelled.bounded (h : e.Spelled σ cs) : e.Bounded := by
  induction h with
  | number _ _ below => exact below
  | operation _ _ ihl ihr => exact ⟨ihl, ihr⟩
  | paren _ ih => exact ih
  | lift _ ih => exact ih
  | blankBefore _ _ ih => exact ih
  | blankAfter _ _ ih => exact ih

theorem Bounded.exists_spelled (h : e.Bounded) : ∃ cs, e.Spelled .primary cs := by
  induction e with
  | number n => exact ⟨_, .toDigits h⟩
  | operation op lhs rhs ihl ihr =>
    obtain ⟨cs, hspelledl⟩ := ihl h.1
    obtain ⟨ds, hspelledr⟩ := ihr h.2
    have hspelled : Spelled (.operation op lhs rhs) op.binary.stratum _ :=
      .operation hspelledl.of_primary hspelledr.of_primary
    cases op with
    | add => exact ⟨_, .paren hspelled⟩
    | sub => exact ⟨_, .paren hspelled⟩
    | mul => exact ⟨_, .paren (.lift hspelled)⟩

theorem exists_written_iff : (∃ text, e.Written text) ↔ e.Bounded := by
  constructor
  · rintro ⟨_, _, _, _, hspelled, _⟩
    exact hspelled.bounded
  · intro h
    obtain ⟨cs, hspelled⟩ := h.exists_spelled
    refine ⟨String.ofList (cs ++ [';']), cs, [], String.toList_ofList, hspelled.of_primary, ?_⟩
    nofun

namespace ReadAs

theorem ty (h : e.ReadAs tree) : tree.ty = .int := by
  induction h with
  | number => rfl
  | operation _ _ ihl _ => exact ihl

theorem promoted (h : e.ReadAs tree) : tree.promoted = tree := by
  induction h with
  | number => rfl
  | operation hl hr ihl ihr =>
    rw [Expr.promoted, ihl, ihr, Expr.promote_eq]
    exact fun _ => by simp [hr.ty]

end ReadAs

end Arithmetic

theorem Scanned.token_ringOp (op : RingOp) (cs : List Char) :
    token op.binary.symbol cs = ⟨.op op.binary.symbol, [op.binary.symbol], cs⟩ := by
  cases op <;> rfl

namespace Arithmetic

variable {e : Arithmetic} {σ : Stratum} {cs after : List Char}

/-- What spells an expression is read as tokens that the grammar derives it from, whatever follows
that does not continue its last numeral. -/
theorem Spelled.reads (h : e.Spelled σ cs) (names : Names) (p : Position)
    (hends : EndsNumeral after) :
    ∃ w tree, Token.Reads p cs after w ∧ names.Derives σ false w tree ∧ e.ReadAs tree := by
  induction h generalizing p after with
  | @number digits hne hall hsmall =>
    obtain ⟨d, ds, rfl⟩ := List.exists_cons_of_ne_nil hne
    have hliteral : Literal.int? (String.ofList (d :: ds)) =
        Option.some (Int64.ofNat (Nat.ofDigitChars 10 (d :: ds) 0)) :=
      Literal.int?_of_isDigit hne hall hsmall
    let t : Token := ⟨.int (String.ofList (d :: ds)), ⟨p, p.afterAll (d :: ds)⟩⟩
    refine ⟨[t], _, ?_, .int (t := t) rfl hliteral, .number⟩
    exact .lexeme (Text.not_blank_of_isDigit (hall d List.mem_cons_self))
      (Scanned.token_digits hall hends)
  | @paren e cs _ ih =>
    obtain ⟨w, tree, hinner, hderives, hmeans⟩ :=
      ih (p.after '(') (endsNumeral_cons (c := ')') rfl (by decide) after)
    let q := (p.after '(').afterAll cs
    let o : Token := ⟨.openParen, ⟨p, p.after '('⟩⟩
    let c : Token := ⟨.closeParen, ⟨q, q.after ')'⟩⟩
    have hopens : Token.Reads p ['('] ((cs ++ [')']) ++ after) [o] := .lexeme rfl rfl
    have hcloses : Token.Reads q [')'] after [c] := .lexeme rfl rfl
    exact ⟨[o] ++ (w ++ [c]), tree, hopens.append (hinner.append hcloses),
      .paren (o := o) (c := c) rfl hderives.comparison rfl, hmeans⟩
  | @operation op lhs rhs cs ds _ _ ihl ihr =>
    let q := p.afterAll cs
    let t : Token := ⟨.op op.binary.symbol, ⟨q, q.after op.binary.symbol⟩⟩
    obtain ⟨hvisible, hstops⟩ : Text.isBlank op.binary.symbol = false ∧
        EndsNumeral (op.binary.symbol :: (ds ++ after)) := by
      cases op <;> exact ⟨rfl, endsNumeral_cons rfl (by decide) _⟩
    obtain ⟨w₁, l, hleft, hderivesl, hmeansl⟩ := ihl p hstops
    obtain ⟨w₂, r, hright, hderivesr, hmeansr⟩ := ihr (q.after op.binary.symbol) hends
    have hsign : Token.Reads q [op.binary.symbol] (ds ++ after) [t] :=
      .lexeme hvisible (Scanned.token_ringOp op _)
    exact ⟨w₁ ++ ([t] ++ w₂), _, hleft.append (hsign.append hright),
      .binary (t := t) hderivesl rfl hderivesr, .operation hmeansl hmeansr⟩
  | lift _ ih =>
    obtain ⟨w, tree, hreads, hderives, hmeans⟩ := ih p hends
    exact ⟨w, tree, hreads, .lift hderives, hmeans⟩
  | @blankBefore e σ c cs hblank _ ih =>
    obtain ⟨w, tree, hreads, hderives, hmeans⟩ := ih (p.after c) hends
    exact ⟨w, tree, (Token.Reads.blank hblank).append hreads, hderives, hmeans⟩
  | @blankAfter e σ c cs hblank _ ih =>
    obtain ⟨w, tree, hreads, hderives, hmeans⟩ := ih p (Text.endsNumeral_blank hblank after)
    have hboth := hreads.append (.blank hblank)
    rw [List.append_nil] at hboth
    exact ⟨w, tree, hboth, hderives, hmeans⟩

end Arithmetic

end FormCompiler
