import FormCompiler.Proofs.Meaning

/-!
What lowering does to the function in the making, as rules over builders. Every lowering that
succeeds has a derivation by these rules, and what is proved about lowered code is proved by
induction on it.
-/

namespace FormCompiler

namespace Builder

def typeOf (b : Builder) (o : Operand) : NativeType := (b.func.operandType? o).getD .void

def next (b : Builder) : Operand := .value b.func.types.length

def add (b : Builder) (op : Operation) : Builder := (b.emit op).2

def branch (b : Builder) (flag : Operand) : Builder :=
  let n := b.func.blocks.length
  let grown := (((b.appendBlock "then").2.appendBlock "else").2.appendBlock "ifcont").2
  (grown.terminate (.condBr flag n (n + 1))).moveTo n

def jump (b : Builder) (join id : Nat) : Builder := (b.terminate (.br join)).moveTo id

end Builder

structure LowerScope where
  known : String → Option Signature
  names : Table Operand
  unsignedCompare : Bool

inductive Coerced (b : Builder) (o : Operand) (target : NativeType) : Operand → Builder → Prop
  | identity : b.typeOf o = target → Coerced b o target o b
  | cast {op : CastOp} : Coercion.between (b.typeOf o) target = .cast op →
      Coerced b o target b.next (b.add (.compute (.cast op o target)))

inductive Operated (unsignedCompare : Bool) (b : Builder) (op : BinaryOp) (l r : Operand) :
    NativeType → Operand → Builder → Prop
  | float {arith : ArithOp} : op.arith? = some arith →
      Operated unsignedCompare b op l r .f64 b.next (b.add (.compute (.float arith l r)))
  | int {arith : ArithOp} : op.arith? = some arith →
      Operated unsignedCompare b op l r .i32 b.next (b.add (.compute (.int arith l r)))
  | floatTest {test : FloatTest} {b' : Builder} : op.arith? = none →
      test = (if unsignedCompare then .ult else .olt) →
      b' = b.add (.compute (.fcmp test l r)) →
      Operated unsignedCompare b op l r .f64 b'.next
        (b'.add (.compute (.cast .uitofp b.next .f64)))
  | intTest {test : IntTest} {b' : Builder} : op.arith? = none →
      test = (if unsignedCompare then .ult else .slt) →
      b' = b.add (.compute (.icmp test l r)) →
      Operated unsignedCompare b op l r .i32 b'.next
        (b'.add (.compute (.cast .zext b.next .i32)))

/-- What there is to lower: an expression, or the arguments of a call with the types they are
converted to. -/
inductive LowerTask
  | expr (e : Expr)
  | args (es : List Expr) (types : List NativeType)

/-- The operands that lowering gives, one for an expression, and the builder it leaves. -/
inductive Lowered (x : LowerScope) : LowerTask → Builder → List Operand → Builder → Prop
  | int {value : Int64} {span : Span} {b : Builder} :
      Lowered x (.expr (.int value span)) b [.const (.i32 value.toInt32)] b
  | float {value : Float} {span : Span} {b : Builder} :
      Lowered x (.expr (.float value span)) b [.const (.f64 value)] b
  | var {name : String} {type : Ty} {span : Span} {o : Operand} {b : Builder} :
      x.names.get? name = some o → Lowered x (.expr (.var name type span)) b [o] b
  | binary {op : BinaryOp} {lhs rhs : Expr} {span : Span} {l r r' o : Operand}
      {b b₁ b₂ b₃ b₄ : Builder} :
      Lowered x (.expr lhs) b [l] b₁ → Lowered x (.expr rhs) b₁ [r] b₂ →
      Coerced b₂ r (b₂.typeOf l) r' b₃ →
      Operated x.unsignedCompare b₃ op l r' (b₂.typeOf l) o b₄ →
      Lowered x (.expr (.binary op lhs rhs span)) b [o] b₄
  | call {callee : String} {args : List Expr} {type : Ty} {span : Span} {s : Signature}
      {values : List Operand} {b b' : Builder} :
      x.known callee = some s → s.params.length = args.length →
      Lowered x (.args args s.paramTypes) b values b' →
      Lowered x (.expr (.call callee args type span)) b [b'.next]
        (b'.add (.call callee values s.returns))
  | cond {condition whenTrue whenFalse : Expr} {span : Span} {n : Nat}
      {c c' thenValue elseValue elseValue' : Operand} {b b₁ b₂ b₃ b₄ b₅ b₆ : Builder} :
      Lowered x (.expr condition) b [c] b₁ → Coerced b₁ c .f64 c' b₂ →
      b₃ = b₂.add (.compute (.fcmp .one c' (.const (.f64 0.0)))) →
      n = b₃.func.blocks.length →
      Lowered x (.expr whenTrue) (b₃.branch b₂.next) [thenValue] b₄ →
      b₄.typeOf thenValue ≠ .void →
      Lowered x (.expr whenFalse) (b₄.jump (n + 2) (n + 1)) [elseValue] b₅ →
      Coerced b₅ elseValue (b₄.typeOf thenValue) elseValue' b₆ →
      Lowered x (.expr (.cond condition whenTrue whenFalse span)) b
        [(b₆.jump (n + 2) (n + 2)).next]
        ((b₆.jump (n + 2) (n + 2)).add (.phi (b₄.typeOf thenValue)
          [(thenValue, b₄.current), (elseValue', b₆.current)]))
  | nil {b : Builder} : Lowered x (.args [] []) b [] b
  | cons {e : Expr} {es : List Expr} {type : NativeType} {types : List NativeType}
      {o o' : Operand} {os : List Operand} {b b₁ b₂ b₃ : Builder} :
      Lowered x (.expr e) b [o] b₁ → Coerced b₁ o type o' b₂ →
      Lowered x (.args es types) b₂ os b₃ →
      Lowered x (.args (e :: es) (type :: types)) b (o' :: os) b₃

inductive LoweredBody (known : String → Option Signature) (unsignedCompare : Bool)
    (returns : NativeType) :
    Table Operand → List Stmt → Option Expr → Builder → Builder → Prop
  | result {names : Table Operand} {e : Expr} {o o' : Operand} {b b₁ b₂ : Builder} :
      Lowered ⟨known, names, unsignedCompare⟩ (.expr e) b [o] b₁ → Coerced b₁ o returns o' b₂ →
      LoweredBody known unsignedCompare returns names [] (some e) b
        (b₂.terminate (.ret (some o')))
  | nothing {names : Table Operand} {b : Builder} :
      LoweredBody known unsignedCompare returns names [] none b
        (b.terminate (.ret (returns.zero?.map .const)))
  | expression {names : Table Operand} {e : Expr} {body : List Stmt} {result : Option Expr}
      {o : Operand} {b b₁ b₂ : Builder} :
      Lowered ⟨known, names, unsignedCompare⟩ (.expr e) b [o] b₁ →
      LoweredBody known unsignedCompare returns names body result b₁ b₂ →
      LoweredBody known unsignedCompare returns names (.expression e :: body) result b b₂
  | variableAs {names : Table Operand} {type : Ty} {name : String} {init : Initializer}
      {span : Span} {body : List Stmt} {result : Option Expr} {o : Operand}
      {b b₁ b₂ : Builder} :
      Coerced b (.const init.const) (.ofTy type) o b₁ →
      LoweredBody known unsignedCompare returns (names.insert name o) body result b₁ b₂ →
      LoweredBody known unsignedCompare returns names
        (.declaration (.variableAs type name init span) :: body) result b b₂
  | variableOf {names : Table Operand} {type : Ty} {name : String} {span : Span}
      {body : List Stmt} {result : Option Expr} {zero : Const} {b b' : Builder} :
      (NativeType.ofTy type).zero? = some zero →
      LoweredBody known unsignedCompare returns (names.insert name (.const zero)) body result b b' →
      LoweredBody known unsignedCompare returns names
        (.declaration (.variableOf type name span) :: body) result b b'

namespace Registry

def Keyed (r : Registry) : Prop := ∀ name s, r.signature? name = some s → s.name = name

theorem resolve_fst (r : Registry) (u : CodeUnit) (name : String) :
    (r.resolve u name).1 = ((u.get? name).map Func.signature).or (r.signature? name) := by
  unfold resolve
  cases u.get? name with
  | some f => rfl
  | none => cases r.signature? name <;> rfl

structure Declares (r : Registry) (u u' : CodeUnit) : Prop where
  name : u'.name = u.name
  layout : u'.layout = u.layout
  get? : ∀ name, u'.get? name = u.get? name ∨ u.get? name = none ∧
    ∃ s, r.signature? name = some s ∧ u'.get? name = some { signature := s }

variable {r : Registry} {u u' : CodeUnit}

theorem Declares.refl : r.Declares u u := ⟨rfl, rfl, fun _ => .inl rfl⟩

theorem Declares.resolve_fst (h : r.Declares u u') (name : String) :
    (r.resolve u' name).1 = (r.resolve u name).1 := by
  rw [Registry.resolve_fst, Registry.resolve_fst]
  rcases h.get? name with h | ⟨hu, s, hs, hu'⟩
  · rw [h]
  · rw [hu, hu', hs]
    rfl

theorem Declares.resolve (h : r.Declares u u') (hr : r.Keyed) (name : String) :
    r.Declares u (r.resolve u' name).2.1 := by
  cases hu : u'.get? name with
  | some f =>
    simp only [Registry.resolve, hu]
    exact h
  | none =>
    cases hs : r.signature? name with
    | none =>
      simp only [Registry.resolve, hu, hs]
      exact h
    | some s =>
      have hname : s.name = name := hr name s hs
      have hc : u'.contains s.name = false := by
        rw [hname]
        simp only [CodeUnit.get?] at hu
        simp [CodeUnit.contains, Table.contains, hu]
      simp only [Registry.resolve, hu, hs, CodeUnit.declare, hc]
      refine ⟨h.name, h.layout, ?_⟩
      intro other
      by_cases ho : name = other
      · subst ho
        right
        refine ⟨?_, s, hs, ?_⟩
        · rcases h.get? name with he | ⟨he, _⟩
          · rw [← he, hu]
          · exact he
        · simp [CodeUnit.get?, CodeUnit.insert, Func.name, hname]
      · have hget : (u'.insert { signature := s }).get? other = u'.get? other := by
          simp [CodeUnit.get?, CodeUnit.insert, Func.name, hname, ho]
        simp only [Bool.false_eq_true, if_false, hget]
        exact h.get? other

end Registry

namespace Lowering

structure Within (s : Lowering) (env : LowerEnv) (x : LowerScope) (u : CodeUnit) : Prop where
  keyed : env.registry.Keyed
  known : ∀ name, (env.registry.resolve u name).1 = x.known name
  unit : env.registry.Declares u s.unit
  names : s.names = x.names
  unsignedCompare : env.unsignedCompare = x.unsignedCompare

structure Keeps (s s' : Lowering) : Prop where
  unit : s'.unit = s.unit
  names : s'.names = s.names

theorem Within.keep {s s' : Lowering} {env : LowerEnv} {x : LowerScope} {u : CodeUnit}
    (h : s.Within env x u) (hk : s.Keeps s') : s'.Within env x u :=
  ⟨h.keyed, h.known, by rw [hk.unit]; exact h.unit, by rw [hk.names]; exact h.names,
    h.unsignedCompare⟩

end Lowering

namespace Lower

variable {α β : Type} {s s' s'' : Lowering}

theorem bind_ok {action : Lower α} {f : α → Lower β} {b : β}
    (h : (action >>= f) s = .ok b s'') : ∃ a s', action s = .ok a s' ∧ f a s' = .ok b s'' := by
  simp only [bind, EStateM.bind] at h
  cases ha : action s with
  | ok a s' => rw [ha] at h; exact ⟨a, s', rfl, h⟩
  | error e s' => rw [ha] at h; cases h

theorem pure_ok {a a' : α} (h : (pure a : Lower α) s = .ok a' s') : a' = a ∧ s' = s := by
  cases h
  exact ⟨rfl, rfl⟩

theorem discard_ok {action : Lower α} {u : Unit} (h : discard action s = .ok u s') :
    ∃ a, action s = .ok a s' := by
  simp only [Functor.discard, Functor.mapConst, EStateM.map, Function.comp] at h
  cases ha : action s with
  | ok a s'' => rw [ha] at h; cases h; exact ⟨a, rfl⟩
  | error e s'' => rw [ha] at h; cases h

theorem assign_ok {env : LowerEnv} {x : LowerScope} {unit : CodeUnit} {name : String}
    {o : Operand} {u : Unit} (h : assign name o s = .ok u s') (hs : s.Within env x unit) :
    s'.builder = s.builder ∧ s'.Within env { x with names := x.names.insert name o } unit := by
  cases h
  exact ⟨rfl, hs.keyed, hs.known, hs.unit, by rw [← hs.names], hs.unsignedCompare⟩

theorem emit_ok {op : Operation} {o : Operand} (h : emit op s = .ok o s') :
    o = s.builder.next ∧ s'.builder = s.builder.add op ∧ s.Keeps s' := by
  cases h
  exact ⟨rfl, rfl, rfl, rfl⟩

theorem compute_ok {c : Computation} {o : Operand} (h : compute c s = .ok o s') :
    o = s.builder.next ∧ s'.builder = s.builder.add (.compute c) ∧ s.Keeps s' :=
  emit_ok h

theorem typeOf_ok {o : Operand} {type : NativeType} (h : typeOf o s = .ok type s') :
    type = s.builder.typeOf o ∧ s = s' := by
  cases h
  exact ⟨rfl, rfl⟩

theorem appendBlock_ok {label : String} {id : Nat} (h : appendBlock label s = .ok id s') :
    id = s.builder.func.blocks.length ∧ s'.builder = (s.builder.appendBlock label).2 ∧
      s.Keeps s' := by
  cases h
  exact ⟨rfl, rfl, rfl, rfl⟩

theorem terminate_ok {t : Terminator} {u : Unit} (h : terminate t s = .ok u s') :
    s'.builder = s.builder.terminate t ∧ s.Keeps s' := by
  cases h
  exact ⟨rfl, rfl, rfl⟩

theorem moveTo_ok {id : Nat} {u : Unit} (h : moveTo id s = .ok u s') :
    s'.builder = s.builder.moveTo id ∧ s.Keeps s' := by
  cases h
  exact ⟨rfl, rfl, rfl⟩

theorem currentBlock_ok {id : Nat} (h : currentBlock s = .ok id s') :
    id = s.builder.current ∧ s = s' := by
  cases h
  exact ⟨rfl, rfl⟩

theorem branch_ok {flag : Operand} {f : Nat → Nat → Nat → Lower α} {a : α}
    (h : (do
      let thenBlock ← appendBlock "then"
      let elseBlock ← appendBlock "else"
      let joinBlock ← appendBlock "ifcont"
      terminate (.condBr flag thenBlock elseBlock)
      moveTo thenBlock
      f thenBlock elseBlock joinBlock) s = .ok a s'') :
    ∃ n s', n = s.builder.func.blocks.length ∧ s'.builder = s.builder.branch flag ∧ s.Keeps s' ∧
      f n (n + 1) (n + 2) s' = .ok a s'' := by
  obtain ⟨_, s₁, h₁, h⟩ := bind_ok h
  obtain ⟨rfl, hb₁, hk₁⟩ := appendBlock_ok h₁
  obtain ⟨_, s₂, h₂, h⟩ := bind_ok h
  obtain ⟨rfl, hb₂, hk₂⟩ := appendBlock_ok h₂
  obtain ⟨_, s₃, h₃, h⟩ := bind_ok h
  obtain ⟨rfl, hb₃, hk₃⟩ := appendBlock_ok h₃
  obtain ⟨_, s₄, h₄, h⟩ := bind_ok h
  obtain ⟨hb₄, hk₄⟩ := terminate_ok h₄
  obtain ⟨_, s₅, h₅, h⟩ := bind_ok h
  obtain ⟨hb₅, hk₅⟩ := moveTo_ok h₅
  have hn₁ : s₁.builder.func.blocks.length = s.builder.func.blocks.length + 1 := by
    rw [hb₁]; simp [Builder.appendBlock]
  have hn₂ : s₂.builder.func.blocks.length = s.builder.func.blocks.length + 2 := by
    rw [hb₂]; simp [Builder.appendBlock, hn₁]
  rw [hn₁, hn₂] at h
  refine ⟨_, s₅, rfl, ?_, ⟨?_, ?_⟩, h⟩
  · rw [hb₅, hb₄, hb₃, hb₂, hn₁, hb₁]
    rfl
  · rw [hk₅.unit, hk₄.unit, hk₃.unit, hk₂.unit, hk₁.unit]
  · rw [hk₅.names, hk₄.names, hk₃.names, hk₂.names, hk₁.names]

theorem coerce_ok {o o' : Operand} {target : NativeType} {span : Span}
    (h : coerce o target span s = .ok o' s') :
    Coerced s.builder o target o' s'.builder ∧ s.Keeps s' := by
  obtain ⟨source, s₁, ht, h⟩ := bind_ok h
  obtain ⟨rfl, rfl⟩ := typeOf_ok ht
  cases hc : Coercion.between (s.builder.typeOf o) target with
  | identity =>
    simp only [hc] at h
    obtain ⟨rfl, rfl⟩ := pure_ok h
    refine ⟨.identity ?_, rfl, rfl⟩
    unfold Coercion.between at hc
    split at hc
    next he => exact he
    next => split at hc <;> cases hc
  | cast op =>
    simp only [hc] at h
    obtain ⟨_, s₂, hn, h⟩ := bind_ok h
    cases hn
    obtain ⟨rfl, hb, hk⟩ := compute_ok h
    rw [hb]
    exact ⟨.cast hc, hk.unit, hk.names⟩
  | impossible =>
    simp only [hc] at h
    cases h

theorem binary_eq (env : LowerEnv) (op : BinaryOp) (l r : Operand) (type : NativeType)
    (span : Span) : Lower.binary env op l r type span = match type, op.arith? with
      | .f64, some arith => compute (.float arith l r)
      | .i32, some arith => compute (.int arith l r)
      | .f64, none => do
        let flag ← compute (.fcmp (if env.unsignedCompare then .ult else .olt) l r)
        compute (.cast .uitofp flag .f64)
      | .i32, none => do
        let flag ← compute (.icmp (if env.unsignedCompare then .ult else .slt) l r)
        compute (.cast .zext flag .i32)
      | type, _ => throw (.unsupported (.operator op type) span) := by
  cases op <;> cases type <;> rfl

theorem binary_ok {env : LowerEnv} {op : BinaryOp} {l r o : Operand} {type : NativeType}
    {span : Span} (h : Lower.binary env op l r type span s = .ok o s') :
    Operated env.unsignedCompare s.builder op l r type o s'.builder ∧ s.Keeps s' := by
  rw [binary_eq] at h
  cases ha : op.arith? with
  | some arith =>
    rw [ha] at h
    cases type with
    | f64 =>
      obtain ⟨rfl, hb, hk⟩ := compute_ok h
      rw [hb]
      exact ⟨.float ha, hk⟩
    | i32 =>
      obtain ⟨rfl, hb, hk⟩ := compute_ok h
      rw [hb]
      exact ⟨.int ha, hk⟩
    | i1 => cases h
    | void => cases h
  | none =>
    rw [ha] at h
    cases type with
    | f64 =>
      obtain ⟨flag, s₁, hf, h⟩ := bind_ok h
      obtain ⟨rfl, hb₁, hk₁⟩ := compute_ok hf
      obtain ⟨rfl, hb, hk⟩ := compute_ok h
      rw [hb]
      exact ⟨.floatTest ha rfl hb₁, hk.unit.trans hk₁.unit, hk.names.trans hk₁.names⟩
    | i32 =>
      obtain ⟨flag, s₁, hf, h⟩ := bind_ok h
      obtain ⟨rfl, hb₁, hk₁⟩ := compute_ok hf
      obtain ⟨rfl, hb, hk⟩ := compute_ok h
      rw [hb]
      exact ⟨.intTest ha rfl hb₁, hk.unit.trans hk₁.unit, hk.names.trans hk₁.names⟩
    | i1 => cases h
    | void => cases h

theorem signature?_ok {env : LowerEnv} {x : LowerScope} {unit : CodeUnit} {name : String}
    {signature : Option Signature} (h : signature? env name s = .ok signature s')
    (hs : s.Within env x unit) :
    signature = x.known name ∧ s'.builder = s.builder ∧ s'.Within env x unit := by
  cases h
  refine ⟨?_, rfl, hs.keyed, hs.known, hs.unit.resolve hs.keyed name, hs.names,
    hs.unsignedCompare⟩
  rw [← hs.known, ← hs.unit.resolve_fst name]
  rfl

end Lower

@[simp] theorem Builder.typeOf_terminate (b : Builder) (t : Terminator) (o : Operand) :
    (b.terminate t).typeOf o = b.typeOf o := by
  cases o <;> rfl

open Lower

def Expr.IsLowered (env : LowerEnv) (x : LowerScope) (u : CodeUnit) (e : Expr) : Prop :=
  ∀ {s s' : Lowering} {o : Operand}, e.lower env s = .ok o s' → s.Within env x u →
    Lowered x (.expr e) s.builder [o] s'.builder ∧ s'.Within env x u

def Expr.AreLowered (env : LowerEnv) (x : LowerScope) (u : CodeUnit) (es : List Expr) : Prop :=
  ∀ {types : List NativeType} {s s' : Lowering} {os : List Operand}, es.length = types.length →
    Expr.lowerArgs env es types s = .ok os s' → s.Within env x u →
    Lowered x (.args es types) s.builder os s'.builder ∧ s'.Within env x u

namespace Expr.IsLowered

variable {env : LowerEnv} {x : LowerScope} {u : CodeUnit}

theorem var (name : String) (type : Ty) (span : Span) :
    (Expr.var name type span).IsLowered env x u := by
  intro s s' o h hs
  rw [Expr.lower] at h
  obtain ⟨_, s₁, hg, h⟩ := bind_ok h
  cases hg
  cases hn : s.names.get? name with
  | none => simp only [hn] at h; cases h
  | some o' =>
    simp only [hn] at h
    obtain ⟨rfl, rfl⟩ := pure_ok h
    exact ⟨.var (by rw [← hs.names]; exact hn), hs⟩

theorem binary {lhs rhs : Expr} (hlhs : lhs.IsLowered env x u) (hrhs : rhs.IsLowered env x u)
    (op : BinaryOp) (span : Span) : (Expr.binary op lhs rhs span).IsLowered env x u := by
  intro s s' o h hs
  rw [Expr.lower] at h
  obtain ⟨l, s₁, hl, h⟩ := bind_ok h
  obtain ⟨r, s₂, hr, h⟩ := bind_ok h
  obtain ⟨type, _, ht, h⟩ := bind_ok h
  obtain ⟨rfl, rfl⟩ := typeOf_ok ht
  obtain ⟨r', s₃, hc, h⟩ := bind_ok h
  obtain ⟨hl, hs₁⟩ := hlhs hl hs
  obtain ⟨hr, hs₂⟩ := hrhs hr hs₁
  obtain ⟨hc, hk₃⟩ := coerce_ok hc
  obtain ⟨ho, hk₄⟩ := binary_ok h
  rw [hs.unsignedCompare] at ho
  exact ⟨.binary hl hr hc ho, (hs₂.keep hk₃).keep hk₄⟩

theorem call {args : List Expr} (hargs : Expr.AreLowered env x u args) (callee : String)
    (type : Ty) (span : Span) : (Expr.call callee args type span).IsLowered env x u := by
  intro s s' o h hs
  rw [Expr.lower] at h
  obtain ⟨signature, s₁, hg, h⟩ := bind_ok h
  obtain ⟨rfl, hb₁, hs₁⟩ := signature?_ok hg hs
  cases hk : x.known callee with
  | none => simp only [hk] at h; cases h
  | some signature =>
    simp only [hk] at h
    by_cases hn : signature.params.length = args.length
    · simp only [hn, ne_eq, not_true_eq_false, if_false] at h
      obtain ⟨values, s₂, hv, h⟩ := bind_ok h
      have hlength : args.length = signature.paramTypes.length := by
        rw [Signature.paramTypes, List.length_map, hn]
      obtain ⟨hv, hs₂⟩ := hargs hlength hv hs₁
      obtain ⟨rfl, hb, hk'⟩ := emit_ok h
      rw [hb]
      rw [hb₁] at hv
      exact ⟨.call hk hn hv, hs₂.keep hk'⟩
    · simp only [ne_eq, hn, not_false_eq_true, if_true] at h
      cases h

theorem cond {condition whenTrue whenFalse : Expr} (hcondition : condition.IsLowered env x u)
    (htrue : whenTrue.IsLowered env x u) (hfalse : whenFalse.IsLowered env x u) (span : Span) :
    (Expr.cond condition whenTrue whenFalse span).IsLowered env x u := by
  intro s s' o h hs
  rw [Expr.lower] at h
  obtain ⟨c, s₁, hc, h⟩ := bind_ok h
  obtain ⟨c', s₂, hc', h⟩ := bind_ok h
  obtain ⟨flag, s₃, hflag, h⟩ := bind_ok h
  obtain ⟨hc, hs₁⟩ := hcondition hc hs
  obtain ⟨hc', hk₂⟩ := coerce_ok hc'
  obtain ⟨rfl, hb₃, hk₃⟩ := compute_ok hflag
  have hs₃ := (hs₁.keep hk₂).keep hk₃
  obtain ⟨n, s₄, hn, hb₄, hk₄, h⟩ := branch_ok h
  obtain ⟨thenValue, s₅, hthen, h⟩ := bind_ok h
  obtain ⟨hthen, hs₅⟩ := htrue hthen (hs₃.keep hk₄)
  obtain ⟨_, _, hd, h⟩ := bind_ok h
  obtain ⟨rfl, rfl⟩ := currentBlock_ok hd
  obtain ⟨_, s₆, hd, h⟩ := bind_ok h
  obtain ⟨hb₆, hk₆⟩ := terminate_ok hd
  obtain ⟨_, _, hd, h⟩ := bind_ok h
  obtain ⟨rfl, rfl⟩ := typeOf_ok hd
  rw [hb₆, Builder.typeOf_terminate] at h
  by_cases hvoid : s₅.builder.typeOf thenValue = .void
  · simp only [hvoid, if_true] at h
    cases h
  · simp only [hvoid, if_false] at h
    obtain ⟨_, s₇, hd, h⟩ := bind_ok h
    obtain ⟨hb₇, hk₇⟩ := moveTo_ok hd
    obtain ⟨elseValue, s₈, helse, h⟩ := bind_ok h
    obtain ⟨helse, hs₈⟩ := hfalse helse ((hs₅.keep hk₆).keep hk₇)
    obtain ⟨elseValue', s₉, helse', h⟩ := bind_ok h
    obtain ⟨helse', hk₉⟩ := coerce_ok helse'
    obtain ⟨_, _, hd, h⟩ := bind_ok h
    obtain ⟨rfl, rfl⟩ := currentBlock_ok hd
    obtain ⟨_, s₁₀, hd, h⟩ := bind_ok h
    obtain ⟨hb₁₀, hk₁₀⟩ := terminate_ok hd
    obtain ⟨_, s₁₁, hd, h⟩ := bind_ok h
    obtain ⟨hb₁₁, hk₁₁⟩ := moveTo_ok hd
    obtain ⟨rfl, hb, hk⟩ := emit_ok h
    rw [hb₄] at hthen
    have hjump : s₇.builder = s₅.builder.jump (n + 2) (n + 1) := by rw [hb₇, hb₆]; rfl
    rw [hjump] at helse
    have hjoin : s₁₁.builder = s₉.builder.jump (n + 2) (n + 2) := by rw [hb₁₁, hb₁₀]; rfl
    rw [hb, hjoin]
    refine ⟨.cond hc hc' hb₃ hn hthen hvoid helse helse', ?_⟩
    exact (((hs₈.keep hk₉).keep hk₁₀).keep hk₁₁).keep hk

end Expr.IsLowered

mutual

theorem Expr.lowered {env : LowerEnv} {x : LowerScope} {u : CodeUnit} (e : Expr) :
    e.IsLowered env x u := by
  cases e with
  | int value span =>
    intro s s' o h hs
    rw [Expr.lower] at h
    obtain ⟨rfl, rfl⟩ := pure_ok h
    exact ⟨.int, hs⟩
  | float value span =>
    intro s s' o h hs
    rw [Expr.lower] at h
    obtain ⟨rfl, rfl⟩ := pure_ok h
    exact ⟨.float, hs⟩
  | var name type span => exact Expr.IsLowered.var name type span
  | binary op lhs rhs span =>
    exact Expr.IsLowered.binary (Expr.lowered lhs) (Expr.lowered rhs) op span
  | call callee args type span => exact Expr.IsLowered.call (Expr.loweredArgs args) callee type span
  | cond condition whenTrue whenFalse span =>
    exact Expr.IsLowered.cond (Expr.lowered condition) (Expr.lowered whenTrue)
      (Expr.lowered whenFalse) span
  | endOfInput =>
    intro s s' o h
    rw [Expr.lower] at h
    cases h

theorem Expr.loweredArgs {env : LowerEnv} {x : LowerScope} {u : CodeUnit} (es : List Expr) :
    Expr.AreLowered env x u es := by
  intro types s s' os hlength h hs
  cases es with
  | nil =>
    cases types with
    | nil =>
      rw [Expr.lowerArgs] at h
      · obtain ⟨rfl, rfl⟩ := pure_ok h
        exact ⟨.nil, hs⟩
      · intro _ _ _ _ e
        cases e
    | cons type types => cases hlength
  | cons e es =>
    cases types with
    | nil => cases hlength
    | cons type types =>
      rw [Expr.lowerArgs] at h
      obtain ⟨o, s₁, ho, h⟩ := bind_ok h
      obtain ⟨o', s₂, hc, h⟩ := bind_ok h
      obtain ⟨os', s₃, hos, h⟩ := bind_ok h
      obtain ⟨rfl, rfl⟩ := pure_ok h
      obtain ⟨ho, hs₁⟩ := Expr.lowered e ho hs
      obtain ⟨hc, hk₂⟩ := coerce_ok hc
      obtain ⟨hos, hs₃⟩ :=
        Expr.loweredArgs es (Nat.succ.inj hlength) hos (hs₁.keep hk₂)
      exact ⟨.cons ho hc hos, hs₃⟩

end

theorem lowerBody_cons {env : LowerEnv} {signature : Signature} {stmt : Stmt} {body : List Stmt}
    {result : Option Expr} {s s'' : Lowering} {u : Unit}
    (h : lowerBody env signature (stmt :: body) result s = .ok u s'') :
    ∃ s', stmt.lower env s = .ok () s' ∧ lowerBody env signature body result s' = .ok u s'' := by
  unfold lowerBody at h
  obtain ⟨_, s₁, hbody, h⟩ := bind_ok h
  change (stmt.lower env >>= fun _ => body.forM (Stmt.lower env)) s = _ at hbody
  obtain ⟨_, s₂, hstmt, hbody⟩ := bind_ok hbody
  refine ⟨s₂, hstmt, ?_⟩
  unfold lowerBody
  simp only [bind, EStateM.bind, hbody]
  exact h

theorem lowerBody_lowered {env : LowerEnv} {signature : Signature} {body : List Stmt}
    {result : Option Expr} {x : LowerScope} {unit : CodeUnit} {s s' : Lowering} {u : Unit}
    (h : lowerBody env signature body result s = .ok u s') (hs : s.Within env x unit) :
    LoweredBody x.known x.unsignedCompare signature.returns x.names body result
      s.builder s'.builder ∧ env.registry.Declares unit s'.unit := by
  induction body generalizing s x with
  | nil =>
    obtain ⟨_, s₁, hbody, h⟩ := bind_ok h
    cases hbody
    cases result with
    | some e =>
      obtain ⟨o, s₁, ho, h⟩ := bind_ok h
      obtain ⟨o', s₂, hc, h⟩ := bind_ok h
      obtain ⟨ho, hs₁⟩ := Expr.lowered e ho hs
      obtain ⟨hc, hk₂⟩ := coerce_ok hc
      obtain ⟨hb, hk⟩ := terminate_ok h
      rw [hb]
      exact ⟨.result ho hc, ((hs₁.keep hk₂).keep hk).unit⟩
    | none =>
      obtain ⟨_, s₁, hn, h⟩ := bind_ok h
      cases hn
      obtain ⟨hb, hk⟩ := terminate_ok h
      rw [hb]
      have hs' := hs.unit
      rw [← hk.unit] at hs'
      exact ⟨.nothing, hs'⟩
  | cons stmt body ih =>
    obtain ⟨s₁, hstmt, hrest⟩ := lowerBody_cons h
    cases stmt with
    | expression e =>
      obtain ⟨o, ho⟩ := discard_ok hstmt
      obtain ⟨ho, hs₁⟩ := Expr.lowered e ho hs
      obtain ⟨hbody, hunit⟩ := ih hrest hs₁
      exact ⟨.expression ho hbody, hunit⟩
    | declaration decl =>
      cases decl with
      | prototype proto => cases hstmt
      | function proto body result => cases hstmt
      | variableOf type name span =>
        cases hz : (NativeType.ofTy type).zero? with
        | none => simp only [Stmt.lower, hz] at hstmt; cases hstmt
        | some zero =>
          simp only [Stmt.lower, hz] at hstmt
          obtain ⟨hb, hs₁⟩ := assign_ok hstmt hs
          obtain ⟨hbody, hunit⟩ := ih hrest hs₁
          rw [← hb]
          exact ⟨.variableOf hz hbody, hunit⟩
      | variableAs type name init span =>
        obtain ⟨o, s₂, hc, hstmt⟩ := bind_ok hstmt
        obtain ⟨hc, hk⟩ := coerce_ok hc
        obtain ⟨hb, hs₁⟩ := assign_ok hstmt (hs.keep hk)
        obtain ⟨hbody, hunit⟩ := ih hrest hs₁
        rw [← hb] at hc
        exact ⟨.variableAs hc hbody, hunit⟩

end FormCompiler
