import FormCompiler.Proofs.Lowering.Growth
import FormCompiler.Proofs.Machine.Action

/-!
Lowered code does what its source means. The run of the code is followed from the place where the
builder stood before an expression was lowered to the place where it stood afterwards.
-/

namespace FormCompiler

namespace Builder

theorem terminate_extends_branch (b : Builder) (flag : Operand) :
    (b.terminate (.condBr flag b.func.blocks.length (b.func.blocks.length + 1))).func.Extends
      (b.branch flag).func := by
  refine ⟨rfl, List.prefix_rfl, ?_⟩
  intro i c hc
  have hi := (List.getElem?_eq_some_iff.mp hc).1
  rw [length_blocks_terminate] at hi
  exact ⟨c, (getElem?_branch_of_lt b flag hi).trans hc, rfl, List.prefix_rfl, fun _ => rfl⟩

@[simp] theorem operandType?_next (b : Builder) (op : Operation) :
    (b.add op).func.operandType? b.next = some op.type := by
  simp [next, Func.operandType?]

end Builder

namespace Frame

structure At (frame : Frame Const) (b : Builder) : Prop where
  numbered : frame.func.Numbered
  block : frame.block = b.current
  pc : ∃ block, b.Open block ∧ frame.pc = block.instructions.length

structure Keeps (b : Builder) (frame frame' : Frame Const) : Prop where
  func : frame'.func = frame.func
  returnTo : frame'.returnTo = frame.returnTo
  find? : ∀ o type, b.func.operandType? o = some type → frame'.find? id o = frame.find? id o

structure Comes (b b' : Builder) (frame frame' : Frame Const) : Prop where
  isAt : frame'.At b'
  keeps : Keeps b frame frame'

variable {frame frame' frame'' : Frame Const} {b b' b'' : Builder} {op : Operation}
  {t : Terminator}

theorem Keeps.refl : Keeps b frame frame := ⟨rfl, rfl, fun _ _ _ => rfl⟩

theorem Keeps.trans (h : Keeps b frame frame') (he : b.func.Extends b'.func)
    (h' : Keeps b' frame' frame'') : Keeps b frame frame'' := by
  refine ⟨h'.func.trans h.func, h'.returnTo.trans h.returnTo, ?_⟩
  intro o type ho
  rw [h'.find? o type (he.operandType? ho), h.find? o type ho]

theorem Keeps.jump (target : Nat) : Keeps b frame (frame.jump target) :=
  ⟨rfl, rfl, fun o _ _ => find?_jump frame id target o⟩

theorem Comes.trans (h : Comes b b' frame frame') (he : b.func.Extends b'.func)
    (h' : Comes b' b'' frame' frame'') : Comes b b'' frame frame'' :=
  ⟨h'.isAt, h.keeps.trans he h'.keeps⟩

theorem Comes.extends (h : Comes b b' frame frame') {f : Func} (hf : f.Extends frame.func) :
    f.Extends frame'.func := by
  rw [h.keeps.func]
  exact hf

theorem At.action_add (h : frame.At b) (hf : (b.add op).func.Extends frame.func) :
    frame.action = frame.perform ⟨b.func.types.length, op⟩ := by
  obtain ⟨block, hopen, hpc⟩ := h.pc
  obtain ⟨c, hc, -, hpre, -⟩ := hf.block _ _ (hopen.add op).1
  have hi : c.instructions[frame.pc]? = some ⟨b.func.types.length, op⟩ := by
    obtain ⟨rest, hrest⟩ := hpre
    rw [← hrest, hpc]
    simp
  have hblock : frame.func.block? frame.block = some c := by
    rw [h.numbered.block?, h.block]
    exact hc
  simp only [action, hblock, hi]

theorem At.action_terminate (h : frame.At b) (hf : (b.terminate t).func.Extends frame.func) :
    ∃ label, frame.action = frame.leave label (some t) := by
  obtain ⟨block, hopen, hpc⟩ := h.pc
  have hterm : (b.terminate t).func.blocks[b.current]? =
      some { block with terminator := some t } := by
    rw [Builder.getElem?_terminate, hopen.1]
    simp [hopen.2]
  obtain ⟨c, hc, -, -, hsame⟩ := hf.block _ _ hterm
  have he := hsame (by simp)
  subst he
  have hblock : frame.func.block? frame.block = some { block with terminator := some t } := by
    rw [h.numbered.block?, h.block]
    exact hc
  refine ⟨block.label, ?_⟩
  have hi : block.instructions[frame.pc]? = none := by rw [hpc]; simp
  simp only [action, hblock, hi]

theorem At.set_next (h : frame.At b) (op : Operation) (c : Const) :
    Comes b (b.add op) frame (frame.next.set b.func.types.length c) := by
  obtain ⟨block, hopen, hpc⟩ := h.pc
  refine ⟨⟨h.numbered, h.block, _, hopen.add op, ?_⟩, rfl, rfl, ?_⟩
  · change frame.pc + 1 = _
    rw [hpc]
    simp
  · intro o type ho
    rw [find?_set_of_ne, find?_next]
    rintro rfl
    simp [Func.operandType?] at ho

theorem find?_set_next (frame : Frame Const) (b : Builder) (c : Const) :
    (frame.next.set b.func.types.length c).find? id b.next = some c := by
  simp [Builder.next]

theorem At.jump {target : Nat} {block : Block} (h : frame.At b) (ht : b'.current = target)
    (hopen : b'.Open block) (hempty : block.instructions = []) : (frame.jump target).At b' :=
  ⟨h.numbered, ht.symm, block, hopen, by rw [hempty]; rfl⟩

end Frame

def Foretells (p : Program) (rest : List (Frame Const)) (frame : Frame Const)
    (calls : List HostCall) {α : Type} (action : Eval α) (post : α → Frame Const → Prop) : Prop :=
  match action calls with
  | .ok a calls' => ∃ frame', post a frame' ∧
    Machine.Reaches p ⟨frame :: rest, calls⟩ ⟨frame' :: rest, calls'⟩
  | .error fault calls' => ∃ fault' : Fault, fault'.blur = fault ∧
    Machine.Ends p ⟨frame :: rest, calls⟩ ⟨.error fault', calls'⟩

namespace Foretells

variable {p : Program} {rest : List (Frame Const)} {frame frame' : Frame Const}
  {calls : List HostCall} {α β : Type} {action : Eval α} {f : α → Eval β}
  {post : α → Frame Const → Prop} {post' : β → Frame Const → Prop}

theorem pure {a : α} (h : post a frame) : Foretells p rest frame calls (pure a) post :=
  ⟨frame, h, .refl⟩

theorem bind (h : Foretells p rest frame calls action post)
    (hf : ∀ a frame' calls', post a frame' → Foretells p rest frame' calls' (f a) post') :
    Foretells p rest frame calls (action >>= f) post' := by
  simp only [Foretells, Bind.bind, EStateM.bind] at h ⊢
  cases ha : action calls with
  | ok a calls' =>
    simp only [ha] at h ⊢
    obtain ⟨frame', hpost, hreach⟩ := h
    have hnext := hf a frame' calls' hpost
    simp only [Foretells] at hnext
    cases hb : f a calls' with
    | ok b calls'' =>
      simp only [hb] at hnext ⊢
      obtain ⟨frame'', hpost', hreach'⟩ := hnext
      exact ⟨frame'', hpost', hreach.trans hreach'⟩
    | error fault calls'' =>
      simp only [hb] at hnext ⊢
      obtain ⟨fault', hblur, hends⟩ := hnext
      exact ⟨fault', hblur, hreach.ends hends⟩
  | error fault calls' =>
    simp only [ha] at h ⊢
    exact h

theorem andThen {post' : α → Frame Const → Prop} (h : Foretells p rest frame calls action post)
    (hp : ∀ a frame', post a frame' → ∃ frame'', post' a frame'' ∧ ∀ calls',
      Machine.Reaches p ⟨frame' :: rest, calls'⟩ ⟨frame'' :: rest, calls'⟩) :
    Foretells p rest frame calls action post' := by
  simp only [Foretells] at h ⊢
  cases ha : action calls with
  | ok a calls' =>
    simp only [ha] at h ⊢
    obtain ⟨frame', hpost, hreach⟩ := h
    obtain ⟨frame'', hpost', hreach'⟩ := hp a frame' hpost
    exact ⟨frame'', hpost', hreach.trans (hreach' calls')⟩
  | error fault calls' =>
    simp only [ha] at h ⊢
    exact h

theorem mono {post' : α → Frame Const → Prop} (h : Foretells p rest frame calls action post)
    (hp : ∀ a frame', post a frame' → post' a frame') :
    Foretells p rest frame calls action post' :=
  h.andThen fun a frame' hpost => ⟨frame', hp a frame' hpost, fun _ => .refl⟩

theorem after (h : frame.action = .goes frame')
    (h' : Foretells p rest frame' calls action post) :
    Foretells p rest frame calls action post := by
  have hreach : Machine.Reaches p ⟨frame :: rest, calls⟩ ⟨frame' :: rest, calls⟩ := .of_goes h
  simp only [Foretells] at h' ⊢
  cases ha : action calls with
  | ok a calls' =>
    simp only [ha] at h' ⊢
    obtain ⟨frame'', hpost, hreach'⟩ := h'
    exact ⟨frame'', hpost, hreach.trans hreach'⟩
  | error fault calls' =>
    simp only [ha] at h' ⊢
    obtain ⟨fault', hblur, hends⟩ := h'
    exact ⟨fault', hblur, hreach.ends hends⟩

end Foretells

theorem Eval.ofExcept_bind {ε α β : Type} (fault : ε → Fault) (r : Except ε α)
    (f : α → Except ε β) :
    ofExcept fault (r >>= f) = ofExcept fault r >>= fun a => ofExcept fault (f a) := by
  cases r <;> rfl

section Computation

variable {p : Program} {rest : List (Frame Const)} {frame : Frame Const} {calls : List HostCall}
  {b b' : Builder} {c : Computation} {l r o o' : Operand} {a a' : Const}

def Frame.Holds (b b' : Builder) (frame : Frame Const) (o : Operand) (a : Const)
    (frame' : Frame Const) : Prop :=
  frame.Comes b b' frame' ∧ frame'.find? id o = some a

theorem Frame.At.compute (h : frame.At b) (hf : (b.add (.compute c)).func.Extends frame.func)
    {r : Except ArithError Const}
    (hr : ∀ fault, c.run (frame.get id) fault = r.mapError fault) :
    Foretells p rest frame calls (Eval.ofExcept (ArithError.fault frame.func.name) r)
      (frame.Holds b (b.add (.compute c)) b.next) := by
  have haction := h.action_add hf
  simp only [perform, Machine.value, hr] at haction
  cases r with
  | ok a =>
    refine .after haction (.pure ⟨h.set_next _ a, ?_⟩)
    exact find?_set_next frame b a
  | error e =>
    refine ⟨_, ?_, Machine.Ends.of_fails haction⟩
    cases e <;> rfl

theorem Computation.run_pair (hl : frame.find? id l = some a) (hr : frame.find? id r = some a')
    (fault : ArithError → Fault) :
    (∀ op, (Computation.int op l r).run (frame.get id) fault =
      (Const.intArith op a a').mapError fault) ∧
    (∀ op, (Computation.float op l r).run (frame.get id) fault =
      (Const.floatArith op a a').mapError fault) ∧
    (∀ test, (Computation.icmp test l r).run (frame.get id) fault =
      (Const.intTest test a a').mapError fault) ∧
    (∀ test, (Computation.fcmp test l r).run (frame.get id) fault =
      (Const.floatTest test a a').mapError fault) := by
  have hl := (frame.get_eq_ok id).mpr hl
  have hr := (frame.get_eq_ok id).mpr hr
  simp only [run, hl, hr]
  exact ⟨fun _ => rfl, fun _ => rfl, fun _ => rfl, fun _ => rfl⟩

theorem Computation.run_cast (ho : frame.find? id o = some a) (op : CastOp) (target : NativeType)
    (fault : ArithError → Fault) :
    (Computation.cast op o target).run (frame.get id) fault =
      (a.cast op target).mapError fault := by
  have ho := (frame.get_eq_ok id).mpr ho
  simp only [run, ho]
  rfl

theorem Coerced.foretold {source target : NativeType} (h : Coerced b o target o' b')
    (hat : frame.At b) (hf : b'.func.Extends frame.func) (ho : frame.find? id o = some a)
    (ht : b.func.operandType? o = some source) :
    Foretells p rest frame calls
      (Eval.ofExcept (ArithError.fault frame.func.name) (a.convert source target))
      (frame.Holds b b' o') := by
  have hs : b.typeOf o = source := by simp [Builder.typeOf, ht]
  cases h with
  | identity he =>
    have hc : a.convert source target = .ok a := by
      rw [← hs, he]
      simp [Const.convert, Coercion.between]
    rw [hc]
    exact .pure ⟨⟨hat, .refl⟩, ho⟩
  | @cast op he =>
    have hc : a.convert source target = a.cast op target := by
      rw [Const.convert, ← hs, he]
    rw [hc]
    exact hat.compute hf (Computation.run_cast ho _ target)

theorem Operated.foretold {unsignedCompare : Bool} {op : BinaryOp} {type : NativeType}
    (h : Operated unsignedCompare b op l r type o b') (hat : frame.At b)
    (hf : b'.func.Extends frame.func) (hl : frame.find? id l = some a)
    (hr : frame.find? id r = some a') :
    Foretells p rest frame calls
      (Eval.ofExcept (ArithError.fault frame.func.name) (op.apply unsignedCompare type a a'))
      (frame.Holds b b' o) := by
  obtain ⟨_, hopen, _⟩ := hat.pc
  cases h with
  | float ha =>
    simp only [BinaryOp.apply, ha]
    exact hat.compute hf fun fault => (Computation.run_pair hl hr fault).2.1 _
  | int ha =>
    simp only [BinaryOp.apply, ha]
    exact hat.compute hf fun fault => (Computation.run_pair hl hr fault).1 _
  | floatTest ha ht hb =>
    subst ht hb
    simp only [BinaryOp.apply, ha]
    rw [Eval.ofExcept_bind]
    have hgrows := hopen.grows_add (.compute (.fcmp (if unsignedCompare then .ult else .olt) l r))
    have hnext := hgrows.isOpen.choose_spec.grows_add (.compute (.cast .uitofp b.next .f64))
    refine .bind (hat.compute (hnext.func.trans hf)
      fun fault => (Computation.run_pair hl hr fault).2.2.2 _) ?_
    intro flag frame' calls' hflag
    rw [← hflag.1.keeps.func] at hf ⊢
    refine .mono (hflag.1.isAt.compute hf (Computation.run_cast hflag.2 _ _)) ?_
    intro c frame'' hc
    exact ⟨hflag.1.trans hgrows.func hc.1, hc.2⟩
  | intTest ha ht hb =>
    subst ht hb
    simp only [BinaryOp.apply, ha]
    rw [Eval.ofExcept_bind]
    have hgrows := hopen.grows_add (.compute (.icmp (if unsignedCompare then .ult else .slt) l r))
    have hnext := hgrows.isOpen.choose_spec.grows_add (.compute (.cast .zext b.next .i32))
    refine .bind (hat.compute (hnext.func.trans hf)
      fun fault => (Computation.run_pair hl hr fault).2.2.1 _) ?_
    intro flag frame' calls' hflag
    rw [← hflag.1.keeps.func] at hf ⊢
    refine .mono (hflag.1.isAt.compute hf (Computation.run_cast hflag.2 _ _)) ?_
    intro c frame'' hc
    exact ⟨hflag.1.trans hgrows.func hc.1, hc.2⟩

end Computation

def LowerTask.types (x : EvalScope) : LowerTask → List NativeType
  | .expr e => [e.native x]
  | .args _ types => types

def LowerTask.eval (x : EvalScope) : LowerTask → Eval (List Const)
  | .expr e => do return [← e.eval x]
  | .args es types => Expr.evalArgs x es types

structure LowerScope.Fits (x : LowerScope) (y : EvalScope) (b : Builder) : Prop where
  known : y.known = x.known
  unsignedCompare : y.unsignedCompare = x.unsignedCompare
  names : ∀ name o, x.names.get? name = some o →
    ∃ c, y.vars.get? name = some c ∧ b.func.operandType? o = some c.type

theorem LowerScope.Fits.mono {x : LowerScope} {y : EvalScope} {b b' : Builder} (h : x.Fits y b)
    (hb : b.func.Extends b'.func) : x.Fits y b' := by
  refine ⟨h.known, h.unsignedCompare, ?_⟩
  intro name o ho
  obtain ⟨c, hc, htype⟩ := h.names name o ho
  exact ⟨c, hc, hb.operandType? htype⟩

section Typing

variable {b b' : Builder} {block : Block} {o o' : Operand} {target : NativeType}

theorem Coerced.operandType? {source : NativeType} (h : Coerced b o target o' b')
    (ho : b.func.operandType? o = some source) : b'.func.operandType? o' = some target := by
  cases h with
  | identity he =>
    rw [Builder.typeOf, ho] at he
    rw [ho, ← he]
    rfl
  | cast => simp [Operation.type, Computation.type]

theorem Operated.operandType? {unsignedCompare : Bool} {op : BinaryOp} {l r : Operand}
    (h : Operated unsignedCompare b op l r target o b') :
    b'.func.operandType? o = some target := by
  cases h <;> simp [Operation.type, Computation.type]

theorem Lowered.operandType? {x : LowerScope} {y : EvalScope} {task : LowerTask}
    {os : List Operand} (h : Lowered x task b os b') {block : Block} (hb : b.Open block)
    (hx : x.Fits y b) : os.map b'.func.operandType? = (task.types y).map some := by
  induction h generalizing block with
  | int => rfl
  | float => rfl
  | var ho =>
    obtain ⟨c, hc, htype⟩ := hx.names _ _ ho
    simp [LowerTask.types, Expr.native, hc, htype]
  | binary hl hr hc ho ihl ihr =>
    have h₁ := hl.grows hb
    have h₂ := hr.grows h₁.isOpen.choose_spec
    have hltype := ihl hb hx
    simp only [LowerTask.types, List.map_cons, List.map_nil, List.cons.injEq, and_true] at hltype
    have htype := ho.operandType?
    rw [Builder.typeOf, h₂.func.operandType? hltype] at htype
    simpa [LowerTask.types, Expr.native] using htype
  | call hk _ _ ih => simp [LowerTask.types, Expr.native, hx.known, hk, Operation.type]
  | cond hcond hc hb₃ hn hthen _ _ _ ihc iht ihe =>
    have h₁ := hcond.grows hb
    have h₂ := h₁.trans (hc.grows h₁.isOpen.choose_spec)
    have h₃ := h₂.trans (h₂.isOpen.choose_spec.grows_of_eq hb₃)
    obtain ⟨_, hopen⟩ := h₃.isOpen
    obtain ⟨_, hthenOpen⟩ := Builder.open_branch hopen.current_lt _
    have htype := iht hthenOpen (hx.mono (h₃.func.trans (Builder.extends_branch hopen _)))
    simp only [LowerTask.types, List.map_cons, List.map_nil, List.cons.injEq, and_true] at htype
    simp [LowerTask.types, Expr.native, Operation.type, Builder.typeOf, htype]
  | nil => rfl
  | cons he hc hes ihe ihes =>
    have h₁ := he.grows hb
    have h₂ := h₁.trans (hc.grows h₁.isOpen.choose_spec)
    have h₃ := hes.grows h₂.isOpen.choose_spec
    have htype := ihe hb hx
    simp only [LowerTask.types, List.map_cons, List.map_nil, List.cons.injEq, and_true] at htype
    have hrest := ihes h₂.isOpen.choose_spec (hx.mono h₂.func)
    simp only [LowerTask.types, List.map_cons] at hrest ⊢
    rw [hrest, h₃.func.operandType? (hc.operandType? htype)]

theorem Lowered.operandType?_expr {x : LowerScope} {y : EvalScope} {e : Expr}
    (h : Lowered x (.expr e) b [o] b') (hb : b.Open block) (hx : x.Fits y b) :
    b'.func.operandType? o = some (e.native y) := by
  simpa [LowerTask.types] using h.operandType? hb hx

end Typing

def Answers (p : Program) (rest : List (Frame Const)) (answer : String → List Const → Eval Const) :
    Prop :=
  ∀ frame calls next dst callee args, frame.action = .calls next dst callee args →
    Foretells p rest frame calls (answer callee args) fun c frame' => frame' = next.set dst c

def Frame.HoldsAll (b b' : Builder) (frame : Frame Const) (os : List Operand) (cs : List Const)
    (frame' : Frame Const) : Prop :=
  frame.Comes b b' frame' ∧ os.map (frame'.find? id) = cs.map some

structure LowerScope.Agrees (x : LowerScope) (y : EvalScope) (b : Builder)
    (frame : Frame Const) : Prop where
  fits : x.Fits y b
  function : y.function = frame.func.name
  values : ∀ name o c, x.names.get? name = some o → y.vars.get? name = some c →
    frame.find? id o = some c

section Following

variable {p : Program} {rest : List (Frame Const)} {frame frame' : Frame Const}
  {calls : List HostCall} {b b' b'' : Builder} {x : LowerScope} {y : EvalScope} {o : Operand}

theorem LowerScope.Agrees.mono (h : x.Agrees y b frame) (hb : b.func.Extends b'.func)
    (hk : frame.Keeps b frame') : x.Agrees y b' frame' := by
  refine ⟨h.fits.mono hb, h.function.trans (by rw [hk.func]), ?_⟩
  intro name o c ho hc
  obtain ⟨c', _, htype⟩ := h.fits.names name o ho
  rw [hk.find? o _ htype]
  exact h.values name o c ho hc

theorem foretells_expr {e : Expr} :
    Foretells p rest frame calls ((LowerTask.expr e).eval y) (frame.HoldsAll b b' [o]) ↔
      Foretells p rest frame calls (e.eval y) (frame.Holds b b' o) := by
  simp only [Foretells, LowerTask.eval, bind, EStateM.bind]
  cases e.eval y calls with
  | ok c calls' => simp [pure, EStateM.pure, Frame.HoldsAll, Frame.Holds]
  | error fault calls' => rfl

theorem Frame.mapM_get {os : List Operand} {cs : List Const}
    (h : os.map (frame.find? id) = cs.map some) : os.mapM (frame.get id) = .ok cs := by
  induction os generalizing cs with
  | nil =>
    cases cs with
    | nil => rfl
    | cons c cs => cases h
  | cons o os ih =>
    cases cs with
    | nil => cases h
    | cons c cs =>
      obtain ⟨ho, hos⟩ := List.cons.inj h
      rw [List.mapM_cons, (frame.get_eq_ok id).mpr ho, ih hos]
      rfl

theorem Frame.At.isTrue {c : Const} (h : frame.At b) (hf : (b.add (.compute (.fcmp .one o
      (.const (.f64 0.0))))).func.Extends frame.func) (ho : frame.find? id o = some c) :
    Foretells p rest frame calls (Eval.ofExcept (ArithError.fault frame.func.name) c.isTrue)
      fun taken => frame.Holds b (b.add (.compute (.fcmp .one o (.const (.f64 0.0))))) b.next
        (.i1 taken) := by
  have h : Foretells p rest frame calls _ _ := h.compute hf
    fun fault => (Computation.run_pair ho (find?_const frame id (.f64 0.0)) fault).2.2.2 .one
  cases c with
  | i1 value => exact h
  | i32 value => exact h
  | f64 value => exact h

/-- A branch of a conditional has its value `a` in `o`. It jumps to the join `b'`, where the phi
takes the value over. -/
theorem Frame.At.join {type : NativeType} {incoming : List (Operand × Nat)} {block : Block}
    {target k : Nat} {a : Const} (h : frame.At b)
    (hjump : (b.terminate (.br target)).func.Extends frame.func) (ht : b'.current = target)
    (hopen : b'.Open block) (hempty : block.instructions = [])
    (hphi : (b'.add (.phi type incoming)).func.Extends frame.func)
    (hfind : incoming.find? (fun e => some e.2 == some b.current) = some (o, k))
    (ho : frame.find? id o = some a) :
    ∃ frame', frame.Holds b' (b'.add (.phi type incoming)) b'.next a frame' ∧ ∀ calls,
      Machine.Reaches p ⟨frame :: rest, calls⟩ ⟨frame' :: rest, calls⟩ := by
  obtain ⟨label, hleave⟩ := h.action_terminate hjump
  have hat := h.jump ht hopen hempty
  have haction := hat.action_add hphi
  have hvalue : Machine.value (frame.jump target) b'.func.types.length (.phi type incoming) =
      .ok a := by
    have hprevious : (frame.jump target).previous = some b.current :=
      congrArg some h.block
    simp only [Machine.value, hprevious, hfind]
    rw [get_eq_ok, find?_jump, ho]
  simp only [perform, hvalue] at haction
  have hcomes := hat.set_next (.phi type incoming) a
  refine ⟨_, ⟨⟨hcomes.isAt, (Keeps.jump _).trans .refl hcomes.keeps⟩,
    find?_set_next _ b' a⟩, ?_⟩
  intro calls
  exact (Machine.Reaches.of_goes hleave).trans (.of_goes haction)

theorem Foretells.since {action : Eval Const}
    (h : Foretells p rest frame' calls action (frame'.Holds b' b'' o))
    (hc : frame.Comes b b' frame') (he : b.func.Extends b'.func) :
    Foretells p rest frame' calls action (frame.Holds b b'' o) := by
  refine h.mono ?_
  rintro c frame'' ⟨hcomes, ho⟩
  exact ⟨hc.trans he hcomes, ho⟩

theorem Foretells.join {action : Eval Const} {type : NativeType}
    {incoming : List (Operand × Nat)} {block : Block} {target k : Nat}
    (h : Foretells p rest frame calls action (frame.Holds b b' o)) (he : b.func.Extends b''.func)
    (hjump : (b'.terminate (.br target)).func.Extends b''.func) (ht : b''.current = target)
    (hopen : b''.Open block) (hempty : block.instructions = [])
    (hf : (b''.add (.phi type incoming)).func.Extends frame.func)
    (hfind : incoming.find? (fun e => some e.2 == some b'.current) = some (o, k)) :
    Foretells p rest frame calls action
      (frame.Holds b (b''.add (.phi type incoming)) b''.next) := by
  refine h.andThen ?_
  rintro c frame' ⟨hcomes, ho⟩
  have hf' := hcomes.extends hf
  have hjump' := hjump.trans ((hopen.grows_add _).func.trans hf')
  have hjoin : ∃ frame'', frame'.Holds b'' _ b''.next c frame'' ∧ ∀ calls,
      Machine.Reaches p ⟨frame' :: rest, calls⟩ ⟨frame'' :: rest, calls⟩ :=
    hcomes.isAt.join hjump' ht hopen hempty hf' hfind ho
  obtain ⟨frame'', ⟨hcomes', hphi⟩, hreach⟩ := hjoin
  exact ⟨frame'', ⟨⟨hcomes'.isAt, hcomes.keeps.trans he hcomes'.keeps⟩, hphi⟩, hreach⟩

theorem Frame.At.enter {flag : Operand} {taken : Bool} (h : frame.At b)
    (hf : (b.branch flag).func.Extends frame.func) (ho : frame.find? id flag = some (.i1 taken)) :
    frame.action = .goes (frame.jump
      (if taken then b.func.blocks.length else b.func.blocks.length + 1)) := by
  obtain ⟨label, hleave⟩ := h.action_terminate ((b.terminate_extends_branch flag).trans hf)
  rw [hleave]
  simp only [Frame.leave, (frame.get_eq_ok id).mpr ho]
  cases taken <;> rfl

/-- Wherever a frame stands at `b` and has the code up to `b'`, evaluating the task foretells
what the frame does. -/
def LowerTask.Foretold (p : Program) (rest : List (Frame Const)) (x : LowerScope) (y : EvalScope)
    (task : LowerTask) (b : Builder) (os : List Operand) (b' : Builder) : Prop :=
  ∀ ⦃frame calls⦄, frame.At b → b'.func.Extends frame.func → x.Agrees y b frame →
    Foretells p rest frame calls (task.eval y) (frame.HoldsAll b b' os)

section Parts

variable {e lhs rhs condition whenTrue whenFalse : Expr} {es : List Expr} {op : BinaryOp}
  {callee : String} {type target : NativeType} {types : List NativeType} {signature : Signature}
  {l r r' flag thenValue elseValue elseValue' : Operand} {os : List Operand} {n : Nat}
  {span : Span} {ty : Ty} {taken : Bool} {b₁ b₂ b₃ b₄ b₅ b₆ : Builder}

theorem LowerTask.Foretold.converted (ih : (LowerTask.expr e).Foretold p rest x y b [o] b₁)
    (he : Lowered x (.expr e) b [o] b₁) (hc : Coerced b₁ o target r b₂) (hat : frame.At b)
    (hf : b₂.func.Extends frame.func) (hx : x.Agrees y b frame) :
    Foretells p rest frame calls
      (e.eval y >>= fun c => y.arith (c.convert (e.native y) target)) (frame.Holds b b₂ r) := by
  obtain ⟨_, hopen, _⟩ := hat.pc
  have h₁ := he.grows hopen
  have h₂ := hc.grows h₁.isOpen.choose_spec
  have htype := he.operandType?_expr hopen hx.fits
  refine .bind (foretells_expr.mp (ih hat (h₂.func.trans hf) hx)) ?_
  rintro a frame₁ calls₁ ⟨hcomes, ho⟩
  rw [EvalScope.arith, hx.function, ← hcomes.keeps.func]
  exact (hc.foretold hcomes.isAt (hcomes.extends hf) ho htype).since hcomes h₁.func

theorem foretold_binary (ihl : (LowerTask.expr lhs).Foretold p rest x y b [l] b₁)
    (ihr : (LowerTask.expr rhs).Foretold p rest x y b₁ [r] b₂)
    (hl : Lowered x (.expr lhs) b [l] b₁) (hr : Lowered x (.expr rhs) b₁ [r] b₂)
    (hc : Coerced b₂ r (b₂.typeOf l) r' b₃)
    (ho : Operated x.unsignedCompare b₃ op l r' (b₂.typeOf l) o b₄) :
    (LowerTask.expr (.binary op lhs rhs span)).Foretold p rest x y b [o] b₄ := by
  intro frame calls hat hf hx
  obtain ⟨_, hopen, _⟩ := hat.pc
  have h₁ := hl.grows hopen
  have h₂ := hr.grows h₁.isOpen.choose_spec
  have h₃ := h₂.trans (hc.grows h₂.isOpen.choose_spec)
  have hf₃ := (ho.grows h₃.isOpen.choose_spec).func.trans hf
  have hltype := hl.operandType?_expr hopen hx.fits
  have htype : b₂.typeOf l = lhs.native y := by
    rw [Builder.typeOf, h₂.func.operandType? hltype]
    rfl
  rw [htype] at hc ho
  rw [foretells_expr, Expr.eval]
  refine .bind (foretells_expr.mp (ihl hat (h₃.func.trans hf₃) hx)) ?_
  rintro a frame₁ calls₁ ⟨hcomes₁, hl₁⟩
  rw [← bind_assoc]
  refine .bind (ihr.converted hr hc hcomes₁.isAt (hcomes₁.extends hf₃)
    (hx.mono h₁.func hcomes₁.keeps)) ?_
  rintro c frame₂ calls₂ ⟨hcomes₂, hr₂⟩
  have hcomes := hcomes₁.trans h₁.func hcomes₂
  have hl₂ : frame₂.find? id l = some a := by
    rw [hcomes₂.keeps.find? l _ hltype, hl₁]
  rw [EvalScope.arith, hx.function, ← hcomes.keeps.func, hx.fits.unsignedCompare]
  exact (ho.foretold hcomes.isAt (hcomes.extends hf) hl₂ hr₂).since hcomes
    (h₁.func.trans h₃.func)

theorem foretold_call (ih : (LowerTask.args es signature.paramTypes).Foretold p rest x y b os b')
    (ha : Answers p rest y.call) (hk : x.known callee = some signature)
    (hes : Lowered x (.args es signature.paramTypes) b os b') :
    (LowerTask.expr (.call callee es ty span)).Foretold p rest x y b [b'.next]
      (b'.add (.call callee os signature.returns)) := by
  intro frame calls hat hf hx
  obtain ⟨_, hopen, _⟩ := hat.pc
  have h₁ := hes.grows hopen
  have h₂ := h₁.isOpen.choose_spec.grows_add (.call callee os signature.returns)
  rw [foretells_expr, Expr.eval, hx.fits.known, hk]
  refine .bind (ih hat (h₂.func.trans hf) hx) ?_
  rintro cs frame₁ calls₁ ⟨hcomes, hvalues⟩
  have haction := hcomes.isAt.action_add (hcomes.extends hf)
  simp only [Frame.perform, Frame.mapM_get hvalues] at haction
  refine .mono (ha _ calls₁ _ _ _ _ haction) ?_
  rintro c frame₂ rfl
  refine ⟨hcomes.trans h₁.func (hcomes.isAt.set_next _ c), ?_⟩
  exact Frame.find?_set_next frame₁ b' c

/-- The branches of a conditional, from the block that ends with the test on. The value of the one
that is taken is what the phi has. -/
theorem foretold_branches (iht : (LowerTask.expr whenTrue).Foretold p rest x y (b.branch flag)
      [thenValue] b₁)
    (ihe : (LowerTask.expr whenFalse).Foretold p rest x y (b₁.jump (n + 2) (n + 1))
      [elseValue] b₂)
    (hn : n = b.func.blocks.length)
    (hthen : Lowered x (.expr whenTrue) (b.branch flag) [thenValue] b₁)
    (helse : Lowered x (.expr whenFalse) (b₁.jump (n + 2) (n + 1)) [elseValue] b₂)
    (hc : Coerced b₂ elseValue (b₁.typeOf thenValue) elseValue' b₃) (hat : frame.At b)
    (hf : ((b₃.jump (n + 2) (n + 2)).add (.phi (b₁.typeOf thenValue)
      [(thenValue, b₁.current), (elseValue', b₃.current)])).func.Extends frame.func)
    (hx : x.Agrees y b frame) (hflag : frame.find? id flag = some (.i1 taken)) :
    Foretells p rest frame calls
      (if taken then whenTrue.eval y else whenFalse.eval y >>= fun c =>
        y.arith (c.convert (whenFalse.native y) (whenTrue.native y)))
      (frame.Holds b ((b₃.jump (n + 2) (n + 2)).add (.phi (b₁.typeOf thenValue)
        [(thenValue, b₁.current), (elseValue', b₃.current)]))
        (b₃.jump (n + 2) (n + 2)).next) := by
  obtain ⟨_, hopen, _⟩ := hat.pc
  obtain ⟨_, hthenOpen⟩ := Builder.open_branch hopen.current_lt flag
  have h₁ := hthen.grows hthenOpen
  obtain ⟨_, helseOpen⟩ := Builder.open_else hopen.current_lt hn h₁
  have h₂ := helse.grows helseOpen
  have h₃ := h₂.trans (hc.grows h₂.isOpen.choose_spec)
  obtain ⟨_, hjoinOpen⟩ := Builder.open_join hopen.current_lt hn h₁ h₃
  obtain ⟨_, hopen₁⟩ := h₁.isOpen
  obtain ⟨_, hopen₃⟩ := h₃.isOpen
  have hends : b₁.current ≠ b₃.current := Builder.current_ne hn h₁ h₃
  have hbthen := Builder.extends_branch hopen flag
  have hbelse : b.func.Extends (b₁.jump (n + 2) (n + 1)).func :=
    hbthen.trans (h₁.func.trans (hopen₁.extends_terminate (.br (n + 2))))
  have hjoin₃ : b₃.func.Extends (b₃.jump (n + 2) (n + 2)).func :=
    hopen₃.extends_terminate (.br (n + 2))
  have hjoin₁ : (b₁.terminate (.br (n + 2))).func.Extends (b₃.jump (n + 2) (n + 2)).func :=
    h₃.func.trans hjoin₃
  have hf₃ := hjoin₃.trans ((hjoinOpen.grows_add _).func.trans hf)
  have hf₁ := (hopen₁.extends_terminate (.br (n + 2))).trans (h₃.func.trans hf₃)
  have hfthen := h₁.func.trans hf₁
  have htype : b₁.typeOf thenValue = whenTrue.native y := by
    rw [Builder.typeOf, hthen.operandType?_expr hthenOpen (hx.fits.mono hbthen)]
    rfl
  refine .after (hat.enter hfthen hflag) ?_
  cases taken with
  | true =>
    have hcomes : frame.Comes b (b.branch flag) (frame.jump b.func.blocks.length) :=
      ⟨hat.jump rfl hthenOpen rfl, .jump _⟩
    have hvalue : Foretells p rest _ calls (whenTrue.eval y) _ := foretells_expr.mp
      (iht hcomes.isAt (hcomes.extends hf₁) (hx.mono hbthen hcomes.keeps))
    have hend := hvalue.join (h₁.func.trans ((hopen₁.extends_terminate _).trans hjoin₁)) hjoin₁
      rfl hjoinOpen rfl (hcomes.extends hf) (List.find?_cons_of_pos (by simp))
    exact hend.since hcomes hbthen
  | false =>
    subst hn
    have hcomes : frame.Comes b (b₁.jump _ _) (frame.jump (b.func.blocks.length + 1)) :=
      ⟨hat.jump rfl helseOpen rfl, .jump _⟩
    have hvalue : Foretells p rest _ calls (whenFalse.eval y >>= _) _ :=
      ihe.converted helse hc hcomes.isAt (hcomes.extends hf₃) (hx.mono hbelse hcomes.keeps)
    have hend := hvalue.join (k := b₃.current) hjoin₁ .refl rfl hjoinOpen rfl (hcomes.extends hf)
      (by simp [hends])
    rw [← htype]
    exact hend.since hcomes hbelse

theorem foretold_cond (ihc : (LowerTask.expr condition).Foretold p rest x y b [l] b₁)
    (iht : (LowerTask.expr whenTrue).Foretold p rest x y (b₃.branch b₂.next) [thenValue] b₄)
    (ihe : (LowerTask.expr whenFalse).Foretold p rest x y (b₄.jump (n + 2) (n + 1))
      [elseValue] b₅)
    (hcond : Lowered x (.expr condition) b [l] b₁) (hc : Coerced b₁ l .f64 r b₂)
    (hb₃ : b₃ = b₂.add (.compute (.fcmp .one r (.const (.f64 0.0)))))
    (hn : n = b₃.func.blocks.length)
    (hthen : Lowered x (.expr whenTrue) (b₃.branch b₂.next) [thenValue] b₄)
    (helse : Lowered x (.expr whenFalse) (b₄.jump (n + 2) (n + 1)) [elseValue] b₅)
    (he : Coerced b₅ elseValue (b₄.typeOf thenValue) elseValue' b₆) :
    (LowerTask.expr (.cond condition whenTrue whenFalse span)).Foretold p rest x y b
      [(b₆.jump (n + 2) (n + 2)).next] ((b₆.jump (n + 2) (n + 2)).add (.phi (b₄.typeOf thenValue)
        [(thenValue, b₄.current), (elseValue', b₆.current)])) := by
  intro frame calls hat hf hx
  obtain ⟨_, hopen, _⟩ := hat.pc
  have h₁ := hcond.grows hopen
  have h₂ := h₁.trans (hc.grows h₁.isOpen.choose_spec)
  have h₃ := h₂.isOpen.choose_spec.grows_of_eq hb₃
  obtain ⟨_, hopen₃⟩ := h₃.isOpen
  obtain ⟨_, hthenOpen⟩ := Builder.open_branch hopen₃.current_lt b₂.next
  have h₄ := hthen.grows hthenOpen
  obtain ⟨_, helseOpen⟩ := Builder.open_else hopen₃.current_lt hn h₄
  have h₅ := helse.grows helseOpen
  have h₇ := Builder.grows_diamond hopen₃ hn h₄ (h₅.trans (he.grows h₅.isOpen.choose_spec))
  have hf₃ := h₇.func.trans ((h₇.isOpen.choose_spec.grows_add _).func.trans hf)
  rw [foretells_expr, Expr.eval, ← bind_assoc]
  refine .bind (ihc.converted hcond hc hat (h₃.func.trans hf₃) hx) ?_
  rintro a frame₂ calls₂ ⟨hcomes₂, hc₂⟩
  subst hb₃
  rw [EvalScope.arith, hx.function, ← hcomes₂.keeps.func]
  refine .bind (hcomes₂.isAt.isTrue (hcomes₂.extends hf₃) hc₂) ?_
  rintro taken frame₃ calls₃ ⟨hcomes₃, hflag⟩
  have hcomes := hcomes₂.trans h₂.func hcomes₃
  have hb₃ := h₂.func.trans h₃.func
  exact (foretold_branches iht ihe hn hthen helse he hcomes.isAt (hcomes.extends hf)
    (hx.mono hb₃ hcomes.keeps) hflag).since hcomes hb₃

theorem foretold_cons (ihe : (LowerTask.expr e).Foretold p rest x y b [o] b₁)
    (ihes : (LowerTask.args es types).Foretold p rest x y b₂ os b₃)
    (he : Lowered x (.expr e) b [o] b₁) (hc : Coerced b₁ o type r b₂)
    (hes : Lowered x (.args es types) b₂ os b₃) :
    (LowerTask.args (e :: es) (type :: types)).Foretold p rest x y b (r :: os) b₃ := by
  intro frame calls hat hf hx
  obtain ⟨_, hopen, _⟩ := hat.pc
  have h₁ := he.grows hopen
  have h₂ := h₁.trans (hc.grows h₁.isOpen.choose_spec)
  have hf₂ := (hes.grows h₂.isOpen.choose_spec).func.trans hf
  have htype := hc.operandType? (he.operandType?_expr hopen hx.fits)
  rw [LowerTask.eval, Expr.evalArgs, ← bind_assoc]
  refine .bind (ihe.converted he hc hat hf₂ hx) ?_
  rintro c frame₂ calls₂ ⟨hcomes₂, ho₂⟩
  refine .bind (ihes hcomes₂.isAt (hcomes₂.extends hf) (hx.mono h₂.func hcomes₂.keeps)) ?_
  rintro cs frame₃ calls₃ ⟨hcomes₃, hos⟩
  refine .pure ⟨hcomes₂.trans h₂.func hcomes₃, ?_⟩
  rw [List.map_cons, List.map_cons, hos, hcomes₃.keeps.find? r _ htype, ho₂]

end Parts

theorem Lowered.foretold {task : LowerTask} {os : List Operand} (h : Lowered x task b os b')
    (ha : Answers p rest y.call) (hat : frame.At b) (hf : b'.func.Extends frame.func)
    (hx : x.Agrees y b frame) :
    Foretells p rest frame calls (task.eval y) (frame.HoldsAll b b' os) := by
  suffices hs : task.Foretold p rest x y b os b' from hs hat hf hx
  clear hat hf hx
  induction h with
  | int =>
    intro frame calls hat hf hx
    rw [foretells_expr, Expr.eval]
    exact .pure ⟨⟨hat, .refl⟩, rfl⟩
  | float =>
    intro frame calls hat hf hx
    rw [foretells_expr, Expr.eval]
    exact .pure ⟨⟨hat, .refl⟩, rfl⟩
  | var ho =>
    intro frame calls hat hf hx
    obtain ⟨c, hc, _⟩ := hx.fits.names _ _ ho
    rw [foretells_expr, Expr.eval, hc]
    exact .pure ⟨⟨hat, .refl⟩, hx.values _ _ _ ho hc⟩
  | binary hl hr hc ho ihl ihr => exact foretold_binary ihl ihr hl hr hc ho
  | call hk _ hes ih => exact foretold_call ih ha hk hes
  | cond hcond hc hb₃ hn hthen _ helse he ihc iht ihe =>
    exact foretold_cond ihc iht ihe hcond hc hb₃ hn hthen helse he
  | nil => exact fun frame calls hat hf hx => .pure ⟨⟨hat, .refl⟩, rfl⟩
  | cons he hc hes ihe ihes => exact foretold_cons ihe ihes he hc hes

end Following

end FormCompiler
