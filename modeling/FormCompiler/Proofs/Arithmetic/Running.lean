import FormCompiler.Proofs.Arithmetic.Spelling
import FormCompiler.Proofs.Lowering.Calls
import FormCompiler.Proofs.Lowering.Careful
import FormCompiler.Proofs.Machine.Recursion
import FormCompiler.Proofs.Pass.Improve
import Mathlib.Data.Int.ModEq

namespace FormCompiler

namespace RingOp

def arith : RingOp → ArithOp
  | add => .add
  | sub => .sub
  | mul => .mul

theorem arith?_binary (op : RingOp) : op.binary.arith? = some op.arith := by cases op <;> rfl

theorem intArith_ofInt (op : RingOp) (m n : Int) :
    Const.intArith op.arith (.i32 (.ofInt m)) (.i32 (.ofInt n)) =
      .ok (.i32 (.ofInt (op.apply m n))) := by
  cases op with
  | add => rw [apply, Int32.ofInt_add]; rfl
  | sub => rw [apply, Int32.ofInt_sub]; rfl
  | mul => rw [apply, Int32.ofInt_mul]; rfl

end RingOp

namespace Machine

def ReachesIn (p : Program) (n : Nat) (m m' : Machine) : Prop :=
  ∀ k, m.run p (n + k) = m'.run p k

variable {p : Program} {m m' m'' : Machine} {n n' : Nat}

theorem ReachesIn.refl : ReachesIn p 0 m m := fun k => by rw [Nat.zero_add]

theorem ReachesIn.trans (h : ReachesIn p n m m') (h' : ReachesIn p n' m' m'') :
    ReachesIn p (n + n') m m'' := fun k => by rw [Nat.add_assoc, h, h']

theorem ReachesIn.of_goes {frame next : Frame Const} {rest : List (Frame Const)}
    {log : List HostCall} (h : frame.action = .goes next) :
    ReachesIn p 1 ⟨frame :: rest, log⟩ ⟨next :: rest, log⟩ := fun k => by
  rw [Nat.add_comm, run, step_cons, h]
  rfl

end Machine

namespace Lower

theorem ok_bind {α β : Type} {action : Lower α} {f : α → Lower β} {a : α} {s s' : Lowering}
    (h : action s = .ok a s') : (action >>= f) s = f a s' := by
  simp only [bind, EStateM.bind, h]

variable {s : Lowering} {o : Operand}

theorem typeOf_of_some {type : NativeType} (h : s.builder.func.operandType? o = some type) :
    typeOf o s = .ok type s := by
  change EStateM.Result.ok ((s.builder.func.operandType? o).getD .void) s = _
  rw [h]
  rfl

theorem coerce_i32 (h : s.builder.func.operandType? o = some .i32) (span : Span) :
    coerce o .i32 span s = .ok o s := by
  rw [coerce, ok_bind (typeOf_of_some h)]
  rfl

end Lower

namespace Arithmetic

inductive Coded : Arithmetic → Builder → Operand → Builder → Prop
  | number {n : Nat} {b : Builder} : Coded (.number n) b (.const (.i32 (Int64.ofNat n).toInt32)) b
  | operation {op : RingOp} {lhs rhs : Arithmetic} {l r : Operand} {b b₁ b₂ : Builder} :
      Coded lhs b l b₁ → Coded rhs b₁ r b₂ →
      Coded (.operation op lhs rhs) b b₂.next (b₂.add (.compute (.int op.arith l r)))

variable {e : Arithmetic} {tree : Expr} {o : Operand} {b b' : Builder} {block : Block}

namespace Coded

theorem grows (h : e.Coded b o b') (hb : b.Open block) : b.Grows b' := by
  induction h generalizing block with
  | number => exact .refl hb
  | operation _ _ ihl ihr =>
    have hl := ihl hb
    have hr := hl.trans (ihr hl.isOpen.choose_spec)
    exact hr.trans (hr.isOpen.choose_spec.grows_add _)

theorem operandType? (h : e.Coded b o b') : b'.func.operandType? o = some .i32 := by
  cases h with
  | number => rfl
  | operation => exact Builder.operandType?_next _ _

theorem not_isPhi (h : e.Coded b o b') (hb : ∀ i ∈ b.func.instructions, i.op.isPhi = false) :
    ∀ i ∈ b'.func.instructions, i.op.isPhi = false := by
  induction h with
  | number => exact hb
  | operation _ _ ihl ihr =>
    intro i hi
    rcases Builder.mem_instructions_add hi with hi | rfl
    · exact ihr (ihl hb) i hi
    · rfl

end Coded

theorem ReadAs.lower (h : e.ReadAs tree) (env : LowerEnv) {s : Lowering}
    (hs : s.builder.Open block) :
    ∃ o s', tree.lower env s = .ok o s' ∧ e.Coded s.builder o s'.builder := by
  induction h generalizing s block with
  | number => exact ⟨_, s, rfl, .number⟩
  | @operation op lhs rhs l r span _ _ ihl ihr =>
    obtain ⟨x, s₁, hl, hx⟩ := ihl hs
    obtain ⟨_, hs₁⟩ := (hx.grows hs).isOpen
    obtain ⟨y, s₂, hr, hy⟩ := ihr hs₁
    have hxtype := (hy.grows hs₁).func.operandType? hx.operandType?
    rw [Expr.lower, Lower.ok_bind hl, Lower.ok_bind hr, Lower.ok_bind (Lower.typeOf_of_some hxtype),
      Lower.ok_bind (Lower.coerce_i32 hy.operandType? span), Lower.binary_eq, op.arith?_binary]
    exact ⟨_, _, rfl, .operation hx hy⟩

/-- The code takes a step for each operation, and comes to the word of the exact value. -/
theorem Coded.runs (h : e.Coded b o b') {p : Program} {frame : Frame Const}
    {rest : List (Frame Const)} {log : List HostCall} (hat : frame.At b)
    (hf : b'.func.Extends frame.func) :
    ∃ frame', Machine.ReachesIn p e.size ⟨frame :: rest, log⟩ ⟨frame' :: rest, log⟩ ∧
      frame.Holds b b' o (.i32 (.ofInt e.value)) frame' := by
  induction h generalizing frame with
  | @number n b =>
    refine ⟨frame, .refl, ⟨hat, .refl⟩, ?_⟩
    rw [Frame.find?_const, Int64.toInt32_ofNat', value, Int32.ofInt_eq_ofNat]
    rfl
  | @operation op lhs rhs l r b b₁ b₂ hl hr ihl ihr =>
    obtain ⟨_, hopen, _⟩ := hat.pc
    have hg₁ := hl.grows hopen
    have hg₂ := hr.grows hg₁.isOpen.choose_spec
    have hg₃ := hg₂.isOpen.choose_spec.grows_add (.compute (.int op.arith l r))
    obtain ⟨frame₁, hreach₁, hcomes₁, hl₁⟩ := ihl hat (hg₂.func.trans (hg₃.func.trans hf))
    have hf₁ := hcomes₁.extends hf
    obtain ⟨frame₂, hreach₂, hcomes₂, hr₂⟩ := ihr hcomes₁.isAt (hg₃.func.trans hf₁)
    have hl₂ : frame₂.find? id l = some (.i32 (.ofInt lhs.value)) := by
      rw [hcomes₂.keeps.find? l .i32 hl.operandType?, hl₁]
    have hcompute := hcomes₂.isAt.action_add (hcomes₂.extends hf₁)
    rw [Frame.perform_value rfl (c := .i32 (.ofInt (op.apply lhs.value rhs.value)))] at hcompute
    · refine ⟨_, (hreach₁.trans hreach₂).trans (.of_goes hcompute), ?_, ?_⟩
      · have hboth := hcomes₁.trans hg₁.func hcomes₂
        exact hboth.trans (hg₁.func.trans hg₂.func) (hcomes₂.isAt.set_next _ _)
      · exact Frame.find?_set_next frame₂ b₂ _
    · simp only [Machine.value, (Computation.run_pair hl₂ hr₂ _).1, op.intArith_ofInt]
      rfl

def Computed (e : Arithmetic) (f : Func) : Prop :=
  ∃ o b, e.Coded (.start f.signature) o b ∧ f = (b.terminate (.ret (some o))).func

theorem ReadAs.lowerBody (h : e.ReadAs tree) (env : LowerEnv) {signature : Signature}
    (hreturns : signature.returns = .i32) (unit : CodeUnit) (names : Table Operand)
    (notes : Array Note) :
    ∃ work, FormCompiler.lowerBody env signature [] (some tree)
        ⟨unit, .start signature, names, notes⟩ = .ok () work ∧ e.Computed work.builder.func := by
  obtain ⟨o, s, hs, ho⟩ := h.lower env (s := ⟨unit, .start signature, names, notes⟩)
    (Builder.open_start signature)
  have hsignature : s.builder.func.signature = signature :=
    (ho.grows (Builder.open_start signature)).func.signature
  have hrun : FormCompiler.lowerBody env signature [] (some tree)
      ⟨unit, .start signature, names, notes⟩ = Lower.terminate (.ret (some o)) s := by
    have hnone : [].forM (Stmt.lower env) ⟨unit, .start signature, names, notes⟩ =
        .ok ⟨⟩ ⟨unit, .start signature, names, notes⟩ := rfl
    rw [FormCompiler.lowerBody, Lower.ok_bind hnone, Lower.ok_bind hs, hreturns,
      Lower.ok_bind (Lower.coerce_i32 ho.operandType? tree.span)]
  refine ⟨_, hrun, o, s.builder, ?_, rfl⟩
  change e.Coded (.start s.builder.func.signature) o s.builder
  rw [hsignature]
  exact ho

namespace Computed

variable {f : Func}

theorem plain (h : e.Computed f) : f.Plain := by
  obtain ⟨o, b, hb, hf⟩ := h
  intro i hi hphi
  rw [hf] at hi
  have hnone : ∀ i ∈ (Builder.start f.signature).func.instructions, i.op.isPhi = false := by
    intro i hi
    cases hi
  cases (hb.not_isPhi hnone i (Builder.mem_instructions_terminate hi)).symm.trans hphi

theorem call (h : e.Computed f) (hparams : f.signature.params = []) {p : Program} {name : String}
    (hcode : p.code.get? name = some f) (hdepth : 1 ≤ p.depth) {fuel : Nat}
    (hfuel : e.size < fuel) :
    p.call fuel name [] = some ⟨.ok (some (.i32 (.ofInt e.value))), []⟩ := by
  obtain ⟨o, b, hb, hf⟩ := h
  have hopen := Builder.open_start f.signature
  have hgrows := hb.grows hopen
  obtain ⟨block, hlast⟩ := hgrows.isOpen
  have hnum : f.Numbered := by
    rw [hf]
    exact Builder.Numbered.of_modify (hgrows.numbered (Builder.numbered_start _)) fun _ => rfl
  have hat : (Frame.start f [] none).At (.start f.signature) := ⟨hnum, rfl, _, hopen, rfl⟩
  have hcode' : b.func.Extends f := by
    rw [hf]
    exact hlast.extends_terminate _
  obtain ⟨last, hreach, hcomes, ho⟩ : ∃ last,
      Machine.ReachesIn p e.size ⟨[Frame.start f [] none], []⟩ ⟨[last], []⟩ ∧
        (Frame.start f [] none).Holds (.start f.signature) b o (.i32 (.ofInt e.value)) last :=
    hb.runs hat hcode'
  have hreturns : last.action = .returns (some (.i32 (.ofInt e.value))) := by
    obtain ⟨label, hleave⟩ := hcomes.isAt.action_terminate
      (t := .ret (some o)) (by rw [← hf, hcomes.keeps.func]; exact .refl)
    rw [hleave]
    simp only [Frame.leave, (Frame.get_eq_ok _ _).mpr ho]
  have hrun : Machine.run p (e.size + 1) ⟨[Frame.start f [] none], []⟩ =
      some ⟨.ok (some (.i32 (.ofInt e.value))), []⟩ := by
    rw [hreach 1, Machine.run, Machine.step_last hreturns]
  have hfits : Machine.checkArgs f [] = .ok () := by
    rw [Machine.checkArgs_eq_ok, Signature.paramTypes, hparams]
    rfl
  rw [Program.call_entered hcode hfits hdepth]
  exact Machine.run_mono hrun hfuel

end Computed

end Arithmetic

end FormCompiler
