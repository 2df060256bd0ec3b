import FormCompiler.Code.Arith
import FormCompiler.Proofs.Code.Sound

namespace FormCompiler

section Arith

variable {a b c : Const}

theorem Const.intArith_type {op : ArithOp} (h : intArith op a b = .ok c) : c.type = .i32 := by
  obtain ⟨x, _, h⟩ := bind_eq_ok.mp h
  obtain ⟨y, _, h⟩ := bind_eq_ok.mp h
  obtain ⟨z, _, h⟩ := bind_eq_ok.mp h
  cases h
  rfl

theorem Const.floatArith_type {op : ArithOp} (h : floatArith op a b = .ok c) : c.type = .f64 := by
  obtain ⟨x, _, h⟩ := bind_eq_ok.mp h
  obtain ⟨y, _, h⟩ := bind_eq_ok.mp h
  cases h
  rfl

theorem Const.intTest_type {test : IntTest} (h : intTest test a b = .ok c) : c.type = .i1 := by
  obtain ⟨x, _, h⟩ := bind_eq_ok.mp h
  obtain ⟨y, _, h⟩ := bind_eq_ok.mp h
  cases h
  rfl

theorem Const.floatTest_type {test : FloatTest} (h : floatTest test a b = .ok c) :
    c.type = .i1 := by
  obtain ⟨x, _, h⟩ := bind_eq_ok.mp h
  obtain ⟨y, _, h⟩ := bind_eq_ok.mp h
  cases h
  rfl

theorem Const.cast_type {op : CastOp} {target : NativeType} (h : cast op a target = .ok c) :
    c.type = target := by
  cases op <;> cases a <;> cases target <;> cases h <;> rfl

end Arith

namespace Computation

theorem run_type {ε : Type} {get : Operand → Except ε Const} {fault : ArithError → ε}
    {c : Computation} {a : Const} (h : c.run get fault = .ok a) : a.type = c.type := by
  cases c with
  | int op l r =>
    obtain ⟨x, _, h⟩ := bind_eq_ok.mp h
    obtain ⟨y, _, h⟩ := bind_eq_ok.mp h
    exact Const.intArith_type (mapError_eq_ok.mp h)
  | float op l r =>
    obtain ⟨x, _, h⟩ := bind_eq_ok.mp h
    obtain ⟨y, _, h⟩ := bind_eq_ok.mp h
    exact Const.floatArith_type (mapError_eq_ok.mp h)
  | icmp test l r =>
    obtain ⟨x, _, h⟩ := bind_eq_ok.mp h
    obtain ⟨y, _, h⟩ := bind_eq_ok.mp h
    exact Const.intTest_type (mapError_eq_ok.mp h)
  | fcmp test l r =>
    obtain ⟨x, _, h⟩ := bind_eq_ok.mp h
    obtain ⟨y, _, h⟩ := bind_eq_ok.mp h
    exact Const.floatTest_type (mapError_eq_ok.mp h)
  | cast op value target =>
    obtain ⟨x, _, h⟩ := bind_eq_ok.mp h
    exact Const.cast_type (mapError_eq_ok.mp h)

theorem run_error_cases {ε : Type} {get : Operand → Except ε Const} {fault : ArithError → ε}
    {c : Computation} {e : ε} (h : c.run get fault = .error e) :
    (∃ o ∈ c.operands, get o = .error e) ∨ ∀ o ∈ c.operands, ∃ a, get o = .ok a := by
  have hboth : ∀ {l r : Operand} {f : Const → Const → Except ε Const},
      (get l >>= fun a => get r >>= f a) = .error e →
      (∃ o ∈ [l, r], get o = .error e) ∨ ∀ o ∈ [l, r], ∃ a, get o = .ok a := by
    intro l r f h
    rcases bind_eq_error.mp h with hl | ⟨a, hl, h⟩
    · exact .inl ⟨l, List.mem_cons_self, hl⟩
    · rcases bind_eq_error.mp h with hr | ⟨b, hr, _⟩
      · exact .inl ⟨r, List.mem_cons_of_mem _ List.mem_cons_self, hr⟩
      · refine .inr fun o ho => ?_
        simp only [List.mem_cons, List.not_mem_nil, or_false] at ho
        rcases ho with rfl | rfl
        · exact ⟨a, hl⟩
        · exact ⟨b, hr⟩
  cases c with
  | int op l r => exact hboth h
  | float op l r => exact hboth h
  | icmp test l r => exact hboth h
  | fcmp test l r => exact hboth h
  | cast op value target =>
    rcases bind_eq_error.mp h with hv | ⟨a, hv, _⟩
    · exact .inl ⟨value, List.mem_cons_self, hv⟩
    · refine .inr fun o ho => ?_
      cases List.mem_singleton.mp ho
      exact ⟨a, hv⟩

end Computation

theorem ArithOp.onInts_cases (op : ArithOp) (x y : Int32) :
    (∃ z, op.onInts x y = .ok z) ∨ op.onInts x y = .error .divisionByZero := by
  cases op with
  | add => exact .inl ⟨_, rfl⟩
  | sub => exact .inl ⟨_, rfl⟩
  | mul => exact .inl ⟨_, rfl⟩
  | div =>
    simp only [onInts]
    split
    · exact .inr rfl
    · exact .inl ⟨_, rfl⟩

namespace Const

variable {a b : Const}

theorem exists_int (h : a.type.isInteger = true) : ∃ n, a.int = .ok n := by
  cases a with
  | i1 value => exact ⟨_, rfl⟩
  | i32 value => exact ⟨_, rfl⟩
  | f64 value => cases h

theorem exists_float (h : a.type = .f64) : ∃ x, a.float = .ok x := by
  cases a with
  | f64 value => exact ⟨_, rfl⟩
  | i1 value => cases h
  | i32 value => cases h

theorem intArith_cases (op : ArithOp) (ha : a.type.isInteger = true)
    (hb : b.type.isInteger = true) :
    (∃ c, intArith op a b = .ok c) ∨ intArith op a b = .error .divisionByZero := by
  obtain ⟨x, hx⟩ := exists_int ha
  obtain ⟨y, hy⟩ := exists_int hb
  rw [intArith, hx, hy]
  rcases op.onInts_cases x y with ⟨z, hz⟩ | hz
  · exact .inl ⟨.i32 z, by simp only [bind, Except.bind, hz]; rfl⟩
  · exact .inr (by simp only [bind, Except.bind, hz])

theorem exists_floatArith (op : ArithOp) (ha : a.type = .f64) (hb : b.type = .f64) :
    ∃ c, floatArith op a b = .ok c := by
  obtain ⟨x, hx⟩ := exists_float ha
  obtain ⟨y, hy⟩ := exists_float hb
  rw [floatArith, hx, hy]
  exact ⟨_, rfl⟩

theorem exists_intTest (test : IntTest) (ha : a.type.isInteger = true)
    (hb : b.type.isInteger = true) : ∃ c, intTest test a b = .ok c := by
  obtain ⟨x, hx⟩ := exists_int ha
  obtain ⟨y, hy⟩ := exists_int hb
  rw [intTest, hx, hy]
  exact ⟨_, rfl⟩

theorem exists_floatTest (test : FloatTest) (ha : a.type = .f64) (hb : b.type = .f64) :
    ∃ c, floatTest test a b = .ok c := by
  obtain ⟨x, hx⟩ := exists_float ha
  obtain ⟨y, hy⟩ := exists_float hb
  rw [floatTest, hx, hy]
  exact ⟨_, rfl⟩

theorem exists_cast {op : CastOp} {target : NativeType} (h : op.Takes a.type target) :
    ∃ c, cast op a target = .ok c := by
  cases op with
  | sitofp =>
    obtain ⟨hint, rfl⟩ := h
    obtain ⟨n, hn⟩ := exists_int hint
    exact ⟨_, by simp only [cast, hn]; rfl⟩
  | uitofp =>
    obtain ⟨hint, rfl⟩ := h
    obtain ⟨n, hn⟩ := exists_int hint
    exact ⟨_, by simp only [cast, hn]; rfl⟩
  | fptosi =>
    obtain ⟨hfloat, rfl⟩ := h
    cases a with
    | f64 value => exact ⟨_, rfl⟩
    | i1 value => cases hfloat
    | i32 value => cases hfloat
  | zext =>
    obtain ⟨hbool, rfl⟩ := h
    cases a with
    | i1 value => exact ⟨_, rfl⟩
    | i32 value => cases hbool
    | f64 value => cases hbool

end Const

theorem Computation.run_typed {ε : Type} {get : Operand → Except ε Const} (fault : ArithError → ε)
    {Γ : Typing} {c : Computation} (h : c.Typed Γ)
    (hget : ∀ o ∈ c.operands, ∀ type, Γ o = some type → ∃ a, get o = .ok a ∧ a.type = type) :
    (∃ a, c.run get fault = .ok a) ∨ c.run get fault = .error (fault .divisionByZero) := by
  cases c with
  | int op l r =>
    obtain ⟨a, ha, hta⟩ := hget l (by simp [operands]) _ h.1
    obtain ⟨b, hb, htb⟩ := hget r (by simp [operands]) _ h.2
    simp only [run, ha, hb, bind, Except.bind]
    rcases Const.intArith_cases op (a := a) (b := b) (by rw [hta]; rfl) (by rw [htb]; rfl) with
      ⟨c, hc⟩ | hc
    · exact .inl ⟨c, by rw [hc]; rfl⟩
    · exact .inr (by rw [hc]; rfl)
  | float op l r =>
    obtain ⟨a, ha, hta⟩ := hget l (by simp [operands]) _ h.1
    obtain ⟨b, hb, htb⟩ := hget r (by simp [operands]) _ h.2
    obtain ⟨c, hc⟩ := Const.exists_floatArith op hta htb
    exact .inl ⟨c, by simp only [run, ha, hb, bind, Except.bind, hc]; rfl⟩
  | icmp test l r =>
    obtain ⟨type, hint, hl, hr⟩ := h
    obtain ⟨a, ha, rfl⟩ := hget l (by simp [operands]) _ hl
    obtain ⟨b, hb, htb⟩ := hget r (by simp [operands]) _ hr
    obtain ⟨c, hc⟩ := Const.exists_intTest test (b := b) hint (by rw [htb]; exact hint)
    exact .inl ⟨c, by simp only [run, ha, hb, bind, Except.bind, hc]; rfl⟩
  | fcmp test l r =>
    obtain ⟨a, ha, hta⟩ := hget l (by simp [operands]) _ h.1
    obtain ⟨b, hb, htb⟩ := hget r (by simp [operands]) _ h.2
    obtain ⟨c, hc⟩ := Const.exists_floatTest test hta htb
    exact .inl ⟨c, by simp only [run, ha, hb, bind, Except.bind, hc]; rfl⟩
  | cast op value target =>
    obtain ⟨source, hvalue, htakes⟩ := h
    obtain ⟨a, ha, rfl⟩ := hget value (by simp [operands]) _ hvalue
    obtain ⟨c, hc⟩ := Const.exists_cast htakes
    exact .inl ⟨c, by simp only [run, ha, bind, Except.bind, hc]; rfl⟩

end FormCompiler
