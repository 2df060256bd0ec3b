import FormCompiler.Proofs.Code.Verified
import FormCompiler.Proofs.Lowering.Correct
import FormCompiler.Proofs.Lowering.Edges
import FormCompiler.Proofs.Lowering.Laid

namespace FormCompiler

section Typing

variable {Γ Γ' : Typing}

theorem Operation.Typed.mono {op : Operation} (h : op.Typed Γ)
    (hΓ : ∀ o type, Γ o = some type → Γ' o = some type) : op.Typed Γ' := by
  cases op with
  | compute c =>
    cases c with
    | int op l r => exact ⟨hΓ _ _ h.1, hΓ _ _ h.2⟩
    | float op l r => exact ⟨hΓ _ _ h.1, hΓ _ _ h.2⟩
    | fcmp test l r => exact ⟨hΓ _ _ h.1, hΓ _ _ h.2⟩
    | icmp test l r =>
      obtain ⟨type, hint, hl, hr⟩ := h
      exact ⟨type, hint, hΓ _ _ hl, hΓ _ _ hr⟩
    | cast op value target =>
      obtain ⟨source, hv, htakes⟩ := h
      exact ⟨source, hΓ _ _ hv, htakes⟩
  | call callee args returns =>
    intro a ha
    obtain ⟨type, htype⟩ := h a ha
    exact ⟨type, hΓ _ _ htype⟩
  | phi type incoming => exact fun e he => hΓ _ _ (h e he)

theorem Terminator.Typed.mono {returns : NativeType} {t : Terminator} (h : t.Typed Γ returns)
    (hΓ : ∀ o type, Γ o = some type → Γ' o = some type) : t.Typed Γ' returns := by
  cases t with
  | ret value =>
    cases value with
    | none => exact h
    | some o => exact hΓ _ _ h
  | br target => trivial
  | condBr condition whenTrue whenFalse => exact hΓ _ _ h

theorem Operation.Typed.operand {op : Operation} (h : op.Typed Γ) {o : Operand}
    (ho : o ∈ op.operands) : ∃ type, Γ o = some type := by
  cases op with
  | compute c => exact Computation.Typed.operand h ho
  | call callee args returns => exact h o ho
  | phi type incoming =>
    obtain ⟨e, he, rfl⟩ := List.mem_map.mp ho
    exact ⟨type, h e he⟩

theorem Terminator.Typed.operand {returns : NativeType} {t : Terminator} (h : t.Typed Γ returns)
    {o : Operand} (ho : o ∈ t.operands) : ∃ type, Γ o = some type := by
  cases t with
  | ret value =>
    cases value with
    | none => cases ho
    | some value =>
      rw [List.mem_singleton.mp ho]
      exact ⟨returns, h⟩
  | br target => cases ho
  | condBr condition whenTrue whenFalse =>
    rw [List.mem_singleton.mp ho]
    exact ⟨.i1, h⟩

theorem map_typing_mono {os : List Operand} {types : List NativeType}
    (h : os.map Γ = types.map some) (hΓ : ∀ o type, Γ o = some type → Γ' o = some type) :
    os.map Γ' = types.map some := by
  induction os generalizing types with
  | nil => exact h
  | cons o os ih =>
    cases types with
    | nil => cases h
    | cons type types =>
      obtain ⟨ho, hos⟩ := List.cons.inj h
      rw [List.map_cons, List.map_cons, hΓ _ _ ho, ih hos]

end Typing

theorem Coercion.takes {source target : NativeType} {op : CastOp}
    (h : Coercion.between source target = .cast op) : op.Takes source target := by
  cases source <;> cases target <;> cases h <;> simp [CastOp.Takes, NativeType.isInteger,
    NativeType.isFloat]

structure Operation.Checks (f : Func) (known : String → Option Signature) (id : Nat)
    (op : Operation) : Prop where
  typed : op.Typed f.operandType?
  call : ∀ callee args returns, op = .call callee args returns → ∃ s, known callee = some s ∧
    s.returns = returns ∧ args.map f.operandType? = s.paramTypes.map some
  edges : ∀ type incoming, op = .phi type incoming →
    (incoming.map Prod.snd).Perm (f.edgesInto id)

section Checks

variable {f g : Func} {known : String → Option Signature} {id : Nat} {op : Operation}

theorem Operation.Checks.mono (h : op.Checks f known id) (hf : f.Extends g)
    (hedges : (g.edgesInto id).Perm (f.edgesInto id)) : op.Checks g known id := by
  refine ⟨h.typed.mono fun o type ho => hf.operandType? ho, ?_, ?_⟩
  · intro callee args returns he
    obtain ⟨s, hs, hreturns, hargs⟩ := h.call callee args returns he
    exact ⟨s, hs, hreturns, map_typing_mono hargs fun o type ho => hf.operandType? ho⟩
  · intro type incoming he
    exact (h.edges type incoming he).trans hedges.symm

theorem Operation.checks_compute {c : Computation} (h : c.Typed f.operandType?) :
    (Operation.compute c).Checks f known id :=
  ⟨h, fun _ _ _ he => (by cases he), fun _ _ he => (by cases he)⟩

theorem Operation.checks_call {callee : String} {args : List Operand} {s : Signature}
    (hs : known callee = some s) (hargs : args.map f.operandType? = s.paramTypes.map some) :
    (Operation.call callee args s.returns).Checks f known id := by
  refine ⟨?_, ?_, fun _ _ he => (by cases he)⟩
  · intro a ha
    have hmem : f.operandType? a ∈ s.paramTypes.map some := by
      rw [← hargs]
      exact List.mem_map_of_mem ha
    obtain ⟨type, _, htype⟩ := List.mem_map.mp hmem
    exact ⟨type, htype.symm⟩
  · intro callee' args' returns' he
    cases he
    exact ⟨s, hs, rfl, hargs⟩

theorem Func.Extends.computes (hf : f.Extends g) {v : Nat} (h : f.Computes v) : g.Computes v := by
  obtain ⟨b, hb, hv⟩ := h
  obtain ⟨i, hi⟩ := List.mem_iff_getElem?.mp hb
  obtain ⟨c, hc, _, hpre, _⟩ := hf.block i b hi
  exact ⟨c, List.mem_of_getElem? hc, (hpre.map _).subset hv⟩

end Checks

namespace Builder

structure Checked (b : Builder) (known : String → Option Signature) : Prop where
  numbered : b.func.Numbered
  defined : ∀ v, v < b.func.types.length → b.func.Computes v
  operations : ∀ (i : Nat) (c : Block), b.func.blocks[i]? = some c →
    ∀ j ∈ c.instructions, j.op.Checks b.func known i
  terminators : ∀ (i : Nat) (c : Block), b.func.blocks[i]? = some c →
    ∀ t, c.terminator = some t → t.Typed b.func.operandType? b.func.signature.returns ∧
      ∀ s ∈ t.successors, s < b.func.blocks.length

variable {b b₁ b₂ : Builder} {block : Block} {known : String → Option Signature}

theorem checked_start (s : Signature) (known : String → Option Signature) :
    (start s).Checked known := by
  have hblocks : ∀ (i : Nat) (c : Block), (start s).func.blocks[i]? = some c →
      i = 0 ∧ c = { id := 0, label := "entry" } := by
    intro i c hc
    cases i with
    | zero => exact ⟨rfl, (Option.some.inj hc).symm⟩
    | succ i => simp [start] at hc
  refine ⟨?_, ?_, ?_, ?_⟩
  · intro i c hc
    obtain ⟨rfl, rfl⟩ := hblocks i c hc
    rfl
  · intro v hv
    exact absurd hv (Nat.not_lt_zero v)
  · intro i c hc j hj
    obtain ⟨rfl, rfl⟩ := hblocks i c hc
    cases hj
  · intro i c hc t ht
    obtain ⟨rfl, rfl⟩ := hblocks i c hc
    cases ht

theorem not_waits_start (s : Signature) (i : Nat) : ¬ (start s).Waits i := by
  rintro ⟨hi, c, hc, _⟩
  cases i with
  | zero => exact hi rfl
  | succ i => simp [start] at hc

namespace Checked

theorem add (h : b.Checked known) (hb : b.Open block) {op : Operation}
    (hop : op.Checks b.func known b.current) : (b.add op).Checked known := by
  have hf := (hb.grows_add op).func
  refine ⟨Numbered.of_modify h.numbered fun _ => rfl, ?_, ?_, ?_⟩
  · intro v hv
    rw [types_add, List.length_append, List.length_singleton] at hv
    rcases Nat.lt_succ_iff_lt_or_eq.mp hv with hv | rfl
    · exact hf.computes (h.defined v hv)
    · refine ⟨_, List.mem_of_getElem? (hb.add op).1, ?_⟩
      simp [Block.dsts]
  · intro i c hc j hj
    rcases mem_add hb hc hj with ⟨rfl, rfl⟩ | ⟨d, hd, hj⟩
    · exact hop.mono hf (edgesInto_add hb op _)
    · exact (h.operations i d hd j hj).mono hf (edgesInto_add hb op _)
  · intro i c hc t ht
    rw [length_blocks_add]
    rcases add_cases hb hc with ⟨_, hc⟩ | ⟨_, rfl⟩
    · obtain ⟨htyped, htargets⟩ := h.terminators i c hc t ht
      exact ⟨htyped.mono fun o type ho => hf.operandType? ho, htargets⟩
    · exact absurd ht (by simp [hb.2])

theorem add_of_eq (h : b.Checked known) (hb : b.Open block) {op : Operation} (he : b₁ = b.add op)
    (hop : op.Checks b.func known b.current) : b₁.Checked known := by
  subst he
  exact h.add hb hop

theorem terminate (h : b.Checked known) (hb : b.Open block) {t : Terminator}
    (ht : t.Typed b.func.operandType? b.func.signature.returns)
    (hs : ∀ s ∈ t.successors, s < b.func.blocks.length ∧
      ∀ c, b.func.blocks[s]? = some c → c.instructions = []) :
    (b.terminate t).Checked known := by
  have hf := hb.extends_terminate t
  refine ⟨Numbered.of_modify h.numbered fun _ => rfl, ?_, ?_, ?_⟩
  · intro v hv
    exact hf.computes (h.defined v hv)
  · intro i c hc j hj
    obtain ⟨d, hd, hinstructions⟩ : ∃ d, b.func.blocks[i]? = some d ∧
        d.instructions = c.instructions := by
      rcases terminate_cases hb hc with ⟨_, hc⟩ | ⟨rfl, rfl⟩
      · exact ⟨c, hc, rfl⟩
      · exact ⟨block, hb.1, rfl⟩
    rw [← hinstructions] at hj
    refine (h.operations i d hd j hj).mono hf (edgesInto_terminate_of_notMem hb ?_)
    intro hi
    rw [(hs i hi).2 d hd] at hj
    cases hj
  · intro i c hc t' ht'
    rw [length_blocks_terminate]
    rcases terminate_cases hb hc with ⟨_, hc⟩ | ⟨_, rfl⟩
    · obtain ⟨htyped, htargets⟩ := h.terminators i c hc t' ht'
      exact ⟨htyped.mono fun o type ho => hf.operandType? ho, htargets⟩
    · cases ht'
      exact ⟨ht.mono fun o type ho => hf.operandType? ho, fun s hsucc => (hs s hsucc).1⟩

theorem branch (h : b.Checked known) (hb : b.Open block) {flag : Operand}
    (hflag : b.func.operandType? flag = some .i1) : (b.branch flag).Checked known := by
  have hf := extends_branch hb flag
  refine ⟨numbered_branch h.numbered hb.current_lt flag, ?_, ?_, ?_⟩
  · intro v hv
    exact hf.computes (h.defined v hv)
  · intro i c hc j hj
    obtain ⟨d, hd, hj⟩ := (hb.sameCode_branch flag).mem hc hj
    have hlt := (List.getElem?_eq_some_iff.mp hd).1
    exact (h.operations i d hd j hj).mono hf (edgesInto_branch hb flag (by omega) (by omega))
  · intro i c hc t ht
    rw [length_blocks_branch]
    rcases branch_cases hb hc with ⟨_, ⟨_, hc⟩ | ⟨_, rfl⟩⟩ | ⟨_, _, label, rfl⟩
    · obtain ⟨htyped, htargets⟩ := h.terminators i c hc t ht
      exact ⟨htyped.mono fun o type ho => hf.operandType? ho,
        fun s hs => Nat.lt_add_right 3 (htargets s hs)⟩
    · cases ht
      refine ⟨hf.operandType? hflag, ?_⟩
      intro s hs
      simp only [Terminator.successors, List.mem_cons, List.not_mem_nil, or_false] at hs
      omega
    · cases ht

theorem jump (h : b.Checked known) (hb : b.Open block) {join id : Nat} {label : String}
    (hjoin : b.func.blocks[join]? = some { id := join, label }) :
    (b.jump join id).Checked known := by
  have ht := h.terminate hb (t := .br join) trivial ?_
  · exact ⟨ht.numbered, ht.defined, ht.operations, ht.terminators⟩
  · intro s hs
    rw [List.mem_singleton.mp hs]
    refine ⟨(List.getElem?_eq_some_iff.mp hjoin).1, ?_⟩
    intro c hc
    cases hjoin.symm.trans hc
    rfl

theorem edgesInto_eq_nil (h : b.Checked known) {id : Nat} (hid : b.func.blocks.length ≤ id) :
    b.func.edgesInto id = [] := by
  rw [List.eq_nil_iff_forall_not_mem]
  intro p hp
  obtain ⟨c, hc, hs, _⟩ := Func.mem_edgesInto.mp hp
  obtain ⟨i, hi⟩ := List.mem_iff_getElem?.mp hc
  unfold Block.successors at hs
  split at hs
  next t ht => exact absurd ((h.terminators i c hi t ht).2 id hs) (by omega)
  next => cases hs

theorem join (h : b.Checked known) (hb : b.Open block) {flag : Operand} {n : Nat}
    (hn : n = b.func.blocks.length) (h₁ : (b.branch flag).Settles b₁)
    (h₂ : (b₁.jump (n + 2) (n + 1)).Settles b₂) (hchecked : b₂.Checked known)
    {type : NativeType} {o o' : Operand} (ho : b₁.func.operandType? o = some type)
    (ho' : b₂.func.operandType? o' = some type) :
    ((b₂.jump (n + 2) (n + 2)).add
      (.phi type [(o, b₁.current), (o', b₂.current)])).Checked known := by
  obtain ⟨_, ho₁⟩ := h₁.grows.isOpen
  obtain ⟨_, ho₂⟩ := h₂.grows.isOpen
  obtain ⟨⟨label, hjoin⟩, _⟩ := pending_join hb.current_lt hn h₁.grows h₂.grows
  obtain ⟨_, hopen⟩ := open_join hb.current_lt hn h₁.grows h₂.grows
  have hlast := ho₂.extends_terminate (.br (n + 2))
  refine (hchecked.jump ho₂ hjoin).add hopen ⟨?_, fun _ _ _ he => (by cases he), ?_⟩
  · intro e he
    simp only [List.mem_cons, List.not_mem_nil, or_false] at he
    rcases he with rfl | rfl
    · exact hlast.operandType?
        (h₂.grows.func.operandType? ((ho₁.extends_terminate _).operandType? ho))
    · exact hlast.operandType? ho'
  · intro type' incoming he
    cases he
    exact edgesInto_join hb h.numbered hn (h.edgesInto_eq_nil (by omega)) h₁ h₂

end Checked

end Builder

section Lowered

variable {b b' : Builder} {block : Block} {known : String → Option Signature}

theorem Coerced.checked {o o' : Operand} {target source : NativeType}
    (h : Coerced b o target o' b') (hchecked : b.Checked known) (hb : b.Open block)
    (ho : b.func.operandType? o = some source) : b'.Checked known := by
  cases h with
  | identity => exact hchecked
  | cast hc =>
    rw [Builder.typeOf, ho] at hc
    exact hchecked.add hb (Operation.checks_compute ⟨source, ho, Coercion.takes hc⟩)

theorem Operated.checked {unsignedCompare : Bool} {op : BinaryOp} {l r o : Operand}
    {type : NativeType} (h : Operated unsignedCompare b op l r type o b')
    (hchecked : b.Checked known) (hb : b.Open block) (hl : b.func.operandType? l = some type)
    (hr : b.func.operandType? r = some type) : b'.Checked known := by
  cases h with
  | float => exact hchecked.add hb (Operation.checks_compute ⟨hl, hr⟩)
  | int => exact hchecked.add hb (Operation.checks_compute ⟨hl, hr⟩)
  | floatTest _ _ hb' =>
    have h₁ := hchecked.add_of_eq hb hb' (Operation.checks_compute ⟨hl, hr⟩)
    exact h₁.add (hb' ▸ hb.add _) (Operation.checks_compute
      ⟨.i1, by rw [hb']; exact Builder.operandType?_next b _, rfl, rfl⟩)
  | intTest _ _ hb' =>
    have h₁ := hchecked.add_of_eq hb hb' (Operation.checks_compute ⟨.i32, rfl, hl, hr⟩)
    exact h₁.add (hb' ▸ hb.add _) (Operation.checks_compute
      ⟨.i1, by rw [hb']; exact Builder.operandType?_next b _, rfl, rfl⟩)

def LowerTask.Gives (f : Func) (os : List Operand) : LowerTask → Prop
  | .expr _ => ∃ types : List NativeType, os.map f.operandType? = types.map some
  | .args _ types => os.map f.operandType? = types.map some

theorem LowerTask.gives_expr {f : Func} {o : Operand} {e : Expr} :
    (LowerTask.expr e).Gives f [o] ↔ ∃ type, f.operandType? o = some type := by
  constructor
  · rintro ⟨_ | ⟨type, types⟩, h⟩
    · cases h
    · exact ⟨type, (List.cons.inj h).1⟩
  · rintro ⟨type, h⟩
    exact ⟨[type], by rw [List.map_singleton, h]; rfl⟩

def LowerScope.Typed (x : LowerScope) (f : Func) : Prop :=
  ∀ name o, x.names.get? name = some o → ∃ type, f.operandType? o = some type

theorem LowerScope.Typed.mono {x : LowerScope} {f g : Func} (h : x.Typed f) (hf : f.Extends g) :
    x.Typed g := by
  intro name o ho
  obtain ⟨type, htype⟩ := h name o ho
  exact ⟨type, hf.operandType? htype⟩

open Builder in
theorem Lowered.checked {x : LowerScope} {task : LowerTask} {os : List Operand}
    (h : Lowered x task b os b') (hchecked : b.Checked x.known) {block : Block}
    (hb : b.Open block) (hx : x.Typed b.func) :
    b'.Checked x.known ∧ task.Gives b'.func os := by
  induction h generalizing block with
  | int => exact ⟨hchecked, [.i32], rfl⟩
  | float => exact ⟨hchecked, [.f64], rfl⟩
  | var ho => exact ⟨hchecked, LowerTask.gives_expr.mpr (hx _ _ ho)⟩
  | binary hl hr hc ho ihl ihr =>
    have h₁ := hl.grows hb
    obtain ⟨_, hopen₁⟩ := h₁.isOpen
    have h₂ := hr.grows hopen₁
    obtain ⟨_, hopen₂⟩ := h₂.isOpen
    have h₃ := hc.grows hopen₂
    obtain ⟨_, hopen₃⟩ := h₃.isOpen
    obtain ⟨hchecked₁, hl⟩ := ihl hchecked hb hx
    obtain ⟨hchecked₂, hr⟩ := ihr hchecked₁ hopen₁ (hx.mono h₁.func)
    obtain ⟨type, hl⟩ := LowerTask.gives_expr.mp hl
    obtain ⟨source, hr⟩ := LowerTask.gives_expr.mp hr
    have hl := h₂.func.operandType? hl
    rw [Builder.typeOf, hl, Option.getD_some] at hc ho
    have hchecked₃ := hc.checked hchecked₂ hopen₂ hr
    refine ⟨ho.checked hchecked₃ hopen₃ (h₃.func.operandType? hl) (hc.operandType? hr), ?_⟩
    exact LowerTask.gives_expr.mpr ⟨type, ho.operandType?⟩
  | call hk hlength hargs ih =>
    obtain ⟨_, hopen⟩ := (hargs.grows hb).isOpen
    obtain ⟨hchecked₁, htypes⟩ := ih hchecked hb hx
    exact ⟨hchecked₁.add hopen (Operation.checks_call hk htypes),
      LowerTask.gives_expr.mpr ⟨_, operandType?_next _ _⟩⟩
  | cond hcond hc hb₃ hn hthen _ helse he ihc iht ihe =>
    have h₁ := hcond.grows hb
    obtain ⟨_, hopen₁⟩ := h₁.isOpen
    have h₂ := hc.grows hopen₁
    obtain ⟨_, hopen₂⟩ := h₂.isOpen
    have h₃ := hopen₂.grows_of_eq hb₃
    obtain ⟨_, hopen⟩ := h₃.isOpen
    -- the condition, as far as the branch
    obtain ⟨hchecked₁, hcondition⟩ := ihc hchecked hb hx
    obtain ⟨source, hcondition⟩ := LowerTask.gives_expr.mp hcondition
    have hchecked₂ := hc.checked hchecked₁ hopen₁ hcondition
    have hchecked₃ := hchecked₂.add_of_eq hopen₂ hb₃
      (Operation.checks_compute ⟨hc.operandType? hcondition, rfl⟩)
    have hbranch := hchecked₃.branch hopen (by rw [hb₃]; exact operandType?_next _ _)
    -- one branch, then the other
    obtain ⟨_, hopenThen⟩ := open_branch hopen.current_lt _
    have hx₃ := hx.mono (h₁.trans (h₂.trans h₃)).func
    obtain ⟨hchecked₄, hthenType⟩ := iht hbranch hopenThen (hx₃.mono (extends_branch hopen _))
    obtain ⟨type, hthenType⟩ := LowerTask.gives_expr.mp hthenType
    have h₄ := hthen.settles hopenThen
    obtain ⟨_, hopen₄⟩ := h₄.grows.isOpen
    obtain ⟨⟨_, hjoin⟩, _⟩ := pending_branch hopen.current_lt hn h₄.grows (.inr rfl)
    obtain ⟨_, hopenElse⟩ := open_else hopen.current_lt hn h₄.grows
    have hx₄ := hx₃.mono ((extends_branch hopen _).trans h₄.grows.func)
    obtain ⟨hchecked₅, helseType⟩ := ihe (hchecked₄.jump hopen₄ hjoin) hopenElse
      (hx₄.mono (hopen₄.extends_terminate _))
    obtain ⟨source', helseType⟩ := LowerTask.gives_expr.mp helseType
    have h₅ := helse.settles hopenElse
    obtain ⟨_, hopen₅⟩ := h₅.grows.isOpen
    have h₆ := h₅.trans (he.settles hopen₅)
    rw [Builder.typeOf, hthenType, Option.getD_some] at he ⊢
    have hchecked₆ := he.checked hchecked₅ hopen₅ helseType
    exact ⟨hchecked₃.join hopen hn h₄ h₆ hchecked₆ hthenType (he.operandType? helseType),
      LowerTask.gives_expr.mpr ⟨_, operandType?_next _ _⟩⟩
  | nil => exact ⟨hchecked, rfl⟩
  | cons he hc hes ihe ihes =>
    have h₁ := he.grows hb
    obtain ⟨_, hopen₁⟩ := h₁.isOpen
    have h₂ := h₁.trans (hc.grows hopen₁)
    obtain ⟨_, hopen₂⟩ := h₂.isOpen
    have h₃ := hes.grows hopen₂
    obtain ⟨hchecked₁, htype⟩ := ihe hchecked hb hx
    obtain ⟨source, htype⟩ := LowerTask.gives_expr.mp htype
    have hchecked₂ := hc.checked hchecked₁ hopen₁ htype
    obtain ⟨hchecked₃, hrest⟩ := ihes hchecked₂ hopen₂ (hx.mono h₂.func)
    refine ⟨hchecked₃, ?_⟩
    change _ :: _ = _
    rw [h₃.func.operandType? (hc.operandType? htype)]
    exact congrArg _ hrest

end Lowered

def Func.Calls (f : Func) (callee : String) : Prop :=
  ∃ i ∈ f.instructions, ∃ args returns, i.op = .call callee args returns

def Func.Heeds (f : Func) (known : String → Option Signature) (u : CodeUnit) : Prop :=
  ∀ callee s, f.Calls callee → known callee = some s → ∃ s', f.calleeSignature? u callee = some s' ∧
    s'.returns = s.returns ∧ s'.paramTypes = s.paramTypes

namespace Builder

variable {b : Builder} {block : Block} {known : String → Option Signature}

theorem Checked.verify (h : b.Checked known) (hblocks : b.func.blocks ≠ [])
    (hended : ∀ c ∈ b.func.blocks, c.terminator.isSome = true) {u : CodeUnit}
    (hu : b.func.Heeds known u) : b.func.verify u = .ok () := by
  have hdefines : ∀ {o : Operand}, (∃ type, b.func.operandType? o = some type) →
      b.func.Defines o := by
    rintro o ⟨type, ho⟩ v rfl
    exact h.defined v (List.getElem?_eq_some_iff.mp ho).1
  refine Func.verify_eq_ok.mpr ⟨hblocks, ?_⟩
  intro c hc
  obtain ⟨i, hi⟩ := List.mem_iff_getElem?.mp hc
  have hid : c.id = i := h.numbered i c hi
  refine ⟨hended c hc, ?_, ?_, ?_⟩
  · intro s hs
    unfold Block.successors at hs
    split at hs
    next t ht =>
      have hlt := (h.terminators i c hi t ht).2 s hs
      exact ⟨_, List.getElem_mem hlt, h.numbered s _ (List.getElem?_eq_getElem hlt)⟩
    next => cases hs
  · intro j hj
    have hop := h.operations i c hi j hj
    refine ⟨hop.typed, fun o ho => hdefines (hop.typed.operand ho), ?_, ?_⟩
    · intro callee args returns he
      obtain ⟨s, hs, hreturns, hargs⟩ := hop.call callee args returns he
      obtain ⟨s', hs', hreturns', hparams⟩ :=
        hu callee s ⟨j, Func.mem_instructions.mpr ⟨c, hc, hj⟩, args, returns, he⟩ hs
      exact ⟨s', hs', hreturns'.trans hreturns, hparams ▸ hargs⟩
    · rw [hid]
      exact hop.edges
  · intro t ht
    have htyped := (h.terminators i c hi t ht).1
    exact ⟨htyped, fun o ho => hdefines (htyped.operand ho)⟩

theorem Checked.verify_ret (h : b.Checked known) (hb : b.Open block) (hwaits : ∀ i, ¬ b.Waits i)
    {value : Option Operand}
    (hvalue : (Terminator.ret value).Typed b.func.operandType? b.func.signature.returns)
    {u : CodeUnit} (hu : (b.terminate (.ret value)).func.Heeds known u) :
    (b.terminate (.ret value)).func.verify u = .ok () := by
  have hret := h.terminate hb hvalue fun s hs => (by cases hs)
  refine hret.verify ?_ ?_ hu
  · intro he
    have hlength := length_blocks_terminate b (.ret value)
    rw [he, List.length_nil] at hlength
    exact Nat.not_lt_zero _ (hlength ▸ hb.current_lt)
  · intro c hc
    obtain ⟨i, hi⟩ := List.mem_iff_getElem?.mp hc
    rcases terminate_cases hb hi with ⟨hne, hi⟩ | ⟨_, rfl⟩
    · cases ht : c.terminator with
      | none => exact absurd ⟨hne, c, hi, ht⟩ (hwaits i)
      | some t => rfl
    · rfl

end Builder

theorem LowerScope.Typed.insert {x : LowerScope} {f : Func} (h : x.Typed f) {o : Operand}
    (ho : ∃ type, f.operandType? o = some type) (name : String) :
    LowerScope.Typed { x with names := x.names.insert name o } f := by
  intro other o' ho'
  rw [Table.get?_insert] at ho'
  split at ho'
  · cases ho'
    exact ho
  · exact h other o' ho'

theorem LoweredBody.verify {known : String → Option Signature} {unsignedCompare : Bool}
    {names : Table Operand} {body : List Stmt} {result : Option Expr} {b b' : Builder}
    {returns : NativeType}
    (h : LoweredBody known unsignedCompare returns names body result b b')
    (hchecked : b.Checked known) {block : Block} (hb : b.Open block)
    (hwaits : ∀ i, ¬ b.Waits i) (hreturns : b.func.signature.returns = returns)
    (hnames : LowerScope.Typed ⟨known, names, unsignedCompare⟩ b.func) {u : CodeUnit}
    (hu : b'.func.Heeds known u) : b'.func.verify u = .ok () := by
  induction h generalizing block with
  | result he hc =>
    obtain ⟨hchecked₁, htype⟩ := he.checked hchecked hb hnames
    obtain ⟨source, htype⟩ := LowerTask.gives_expr.mp htype
    have h₁ := he.settles hb
    obtain ⟨_, hopen₁⟩ := h₁.grows.isOpen
    have h₂ := h₁.trans (hc.settles hopen₁)
    obtain ⟨_, hopen₂⟩ := h₂.grows.isOpen
    refine (hc.checked hchecked₁ hopen₁ htype).verify_ret hopen₂
      (fun i hi => hwaits i (h₂.waits i hi)) ?_ hu
    rw [h₂.grows.func.signature, hreturns]
    exact hc.operandType? htype
  | nothing =>
    refine hchecked.verify_ret hb hwaits ?_ hu
    rw [hreturns]
    cases returns with
    | void => exact rfl
    | i1 => exact rfl
    | i32 => exact rfl
    | f64 => exact rfl
  | expression he _ ih =>
    obtain ⟨hchecked₁, _⟩ := he.checked hchecked hb hnames
    have h₁ := he.settles hb
    obtain ⟨_, hopen₁⟩ := h₁.grows.isOpen
    exact ih hchecked₁ hopen₁ (fun i hi => hwaits i (h₁.waits i hi))
      (by rw [h₁.grows.func.signature, hreturns]) (hnames.mono h₁.grows.func) hu
  | @variableAs names type name init _ _ _ _ _ _ _ hc _ ih =>
    have htype : ∀ f : Func, f.operandType? (.const init.const) = some init.const.type :=
      fun _ => rfl
    have h₁ := hc.settles hb
    obtain ⟨_, hopen₁⟩ := h₁.grows.isOpen
    exact ih (hc.checked hchecked hb (htype _)) hopen₁ (fun i hi => hwaits i (h₁.waits i hi))
      (by rw [h₁.grows.func.signature, hreturns])
      ((hnames.mono h₁.grows.func).insert ⟨_, hc.operandType? (htype _)⟩ name) hu
  | variableOf hz _ ih =>
    exact ih hchecked hb hwaits hreturns (hnames.insert ⟨_, rfl⟩ _) hu

end FormCompiler
