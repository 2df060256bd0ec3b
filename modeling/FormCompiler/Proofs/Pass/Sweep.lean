import Mathlib.Data.List.TakeWhile
import FormCompiler.Proofs.Machine.Checked
import FormCompiler.Proofs.Machine.Simulation
import FormCompiler.Proofs.Pass.Exact

/-!
Replacing values on ways that may go round and round. A value can be used for another as long as it
has not been computed again since the other was.
-/

namespace FormCompiler

def Stale (passed : List Nat) (v x : Nat) : Prop := v ∈ passed ∧ x ∈ passed.takeWhile (· != v)

namespace Stale

variable {passed : List Nat} {v x d : Nat}

theorem irrefl : ¬ Stale passed v v := by
  rintro ⟨_, hv⟩
  simpa using List.mem_takeWhile_imp hv

theorem of_cons (hv : v ∈ passed) (hne : v ≠ d) (h : ¬ Stale (d :: passed) v x) :
    x ≠ d ∧ ¬ Stale passed v x := by
  have htake : (d :: passed).takeWhile (· != v) = d :: passed.takeWhile (· != v) :=
    List.takeWhile_cons_of_pos (by simpa using Ne.symm hne)
  constructor
  · rintro rfl
    exact h ⟨List.mem_cons_of_mem _ hv, by rw [htake]; exact List.mem_cons_self⟩
  · rintro ⟨_, hx⟩
    exact h ⟨List.mem_cons_of_mem _ hv, by rw [htake]; exact List.mem_cons_of_mem _ hx⟩

theorem mem_of_append {before rest : List Nat} (hv : v ∈ before)
    (h : Stale (before ++ rest) v x) : x ∈ before := by
  have hx := h.2
  clear h
  induction before with
  | nil => cases hv
  | cons d before ih =>
    rw [List.cons_append] at hx
    by_cases hd : d = v
    · rw [List.takeWhile_cons_of_neg (by simpa using hd)] at hx
      cases hx
    · rw [List.takeWhile_cons_of_pos (by simpa using hd)] at hx
      rcases List.mem_cons.mp hx with rfl | hx
      · exact List.mem_cons_self
      · refine List.mem_cons_of_mem _ (ih ?_ hx)
        exact (List.mem_cons.mp hv).resolve_left (Ne.symm hd)

end Stale

def Block.operandsAt (b : Block) (pc : Nat) : List Operand :=
  match b.instructions[pc]? with
  | some i => i.operands
  | none => (b.terminator.map Terminator.operands).getD []

namespace Func

def reads (f : Func) (id : Nat) (previous : Option Nat) (pc : Nat) : List Operand :=
  match f.block? id with
  | none => []
  | some b =>
    match b.instructions[pc]? with
    | some i => i.op.taken previous
    | none => (b.terminator.map Terminator.operands).getD []

theorem exists_operandsAt {f : Func} {id pc : Nat} {previous : Option Nat} {o : Operand}
    (h : o ∈ f.reads id previous pc) : ∃ b, f.block? id = some b ∧ o ∈ b.operandsAt pc := by
  unfold reads at h
  split at h
  next => cases h
  next b hb =>
    refine ⟨b, hb, ?_⟩
    unfold Block.operandsAt
    split at h
    next => exact Operation.mem_operands_of_taken h
    next => exact h

/-- On a way into a block all was computed that was passed of it, and nothing since. -/
theorem Way.block_passed {f : Func} {passed : List Nat} {id pc : Nat} {previous : Option Nat}
    {b : Block} (h : f.Way passed id previous pc) (hb : f.block? id = some b) :
    pc ≤ b.instructions.length ∧ ∃ rest, passed = (b.dsts.take pc).reverse ++ rest := by
  induction h with
  | entry => exact ⟨Nat.zero_le _, [], by simp⟩
  | @next passed id previous pc c i _ hc hi ih =>
    cases hc.symm.trans hb
    obtain ⟨_, rest, rfl⟩ := ih hb
    obtain ⟨hlt, _⟩ := List.getElem?_eq_some_iff.mp hi
    refine ⟨hlt, rest, ?_⟩
    have hdst : b.dsts[pc]? = some i.dst := by
      rw [Block.dsts, List.getElem?_map, hi, Option.map_some]
    rw [List.take_add_one, hdst, Option.toList_some, List.reverse_append, List.reverse_singleton,
      List.append_assoc, List.singleton_append]
  | @jump passed => exact ⟨Nat.zero_le _, passed, by simp⟩

/-- Wherever a value is used, what stands for it has not been computed again. -/
def Fresh (f : Func) (σ : Operand → Operand) : Prop :=
  ∀ passed id previous pc, f.Way passed id previous pc →
    ∀ v x, .value v ∈ f.reads id previous pc → σ (.value v) = .value x → ¬ Stale passed v x

structure Replaces (f : Func) (keep : Instruction → Bool) (σ : Operand → Operand) : Prop where
  const : ∀ c, σ (.const c) = .const c
  param : ∀ n, σ (.param n) = .param n
  kept : ∀ i ∈ f.instructions, keep i = true → σ (.value i.dst) = .value i.dst
  removed : ∀ i ∈ f.instructions, keep i = false → ∃ type incoming,
    i.op = .phi type incoming ∧ ∀ e ∈ incoming, σ e.1 = σ (.value i.dst)
  fresh : f.Fresh σ

/-- What a call returns with `f` in the program it returns with `g` in its place, after the same
calls of host functions. -/
def Serves (f g : Func) : Prop :=
  ∀ (p : Program) (fuel : Nat) (name : String) (args : List Const) (r : Option Const)
    (log : List HostCall), (p.load f).call fuel name args = some ⟨.ok r, log⟩ →
      (p.load g).call fuel name args = some ⟨.ok r, log⟩

theorem Serves.refl (f : Func) : f.Serves f := fun _ _ _ _ _ _ h => h

theorem Serves.trans {f g h : Func} (hf : f.Serves g) (hg : g.Serves h) : f.Serves h :=
  fun p fuel name args r log hr => hg p fuel name args r log (hf p fuel name args r log hr)

theorem Serves.of_mirrors {f g : Func} {R : Frame Const → Frame Const → Prop}
    (hR : Frame.Mirrors (fun _ _ => True) R) (hs : g.signature = f.signature)
    (hstart : ∀ args returnTo, R (Frame.start f args returnTo) (Frame.start g args returnTo)) :
    f.Serves g := by
  intro p fuel name args r log hr
  have hname : g.name = f.name := congrArg Signature.name hs
  have hmirrors : (p.load f).Mirrors (fun F G => G = F ∨ R F G) (p.load g) := by
    refine ⟨rfl, rfl, ?_⟩
    intro name
    simp only [Program.load, Table.get?_insert, hname]
    split
    next => exact .inr ⟨f, g, rfl, rfl, hs, fun args returnTo => .inr (hstart args returnTo)⟩
    next =>
      cases hf : p.code.get? name with
      | none => exact .inl ⟨rfl, rfl⟩
      | some h => exact .inr ⟨h, h, rfl, rfl, rfl, fun _ _ => .inl rfl⟩
  rcases hmirrors.call hR.or_eq hr with hq | ⟨m, _, hm⟩
  · exact hq
  · cases hm

end Func

theorem Frame.Simulation.mirrors {R : Frame Const → Frame Const → Prop} (h : Simulation R) :
    Mirrors (fun _ _ => True) R where
  returnTo := h.returnTo
  action := by
    intro F G hFG
    cases ha : F.action with
    | goes F' =>
      rcases h.goes hFG ha with hR | ⟨G', hG, hR⟩
      · exact .inl ⟨F', rfl, hR⟩
      · rw [hG]
        exact .inr (.inl (.goes hR))
    | calls F' dst callee args =>
      obtain ⟨G', hG, hR, hset⟩ := h.calls hFG ha
      rw [hG]
      exact .inr (.inl (.calls hR hset))
    | returns r =>
      rw [h.returns hFG ha]
      exact .inr (.inl .returns)
    | fails fault => exact .inr (.inr ⟨fault, rfl, trivial⟩)

namespace Frame

namespace Shadows

variable {keep : Instruction → Bool} {σ : Operand → Operand} {R : Frame Const → Frame Const → Prop}
  {F G : Frame Const} {b : Block} {i : Instruction}

theorem matches_perform (h : Shadows keep σ F G) (hi : F.Stands b (some i)) (hk : keep i = true)
    (ho : ∀ o ∈ i.op.taken F.previous, ∀ a, F.find? id o = some a → G.find? id (σ o) = some a)
    (hnext : R F.next G.next) (hset : ∀ c, R (F.next.set i.dst c) (G.next.set i.dst c)) :
    Action.Matches R F.action G.action ∨ ∃ fault, F.action = .fails fault := by
  rw [action_perform hi, action_perform (h.stands hi hk)]
  have hvalue (hcall : i.op.isCall = false) :
      Action.Matches R (F.perform i) (G.perform (i.mapOperands σ)) ∨
        ∃ fault, F.perform i = .fails fault := by
    cases hv : Machine.value F i.dst i.op with
    | error fault => exact .inr ⟨fault, perform_fault hcall hv⟩
    | ok c =>
      rcases value_mapOperands i.dst h.name h.previous ho with hw | ⟨detail, hw⟩
      · have hcall' : (i.mapOperands σ).op.isCall = false := by
          simpa [Instruction.mapOperands] using hcall
        rw [perform_value hcall hv, perform_value hcall' (hw.trans hv)]
        exact .inl (.goes (hset c))
      · cases hv.symm.trans hw
  cases hop : i.op with
  | compute c => exact hvalue (by rw [hop]; rfl)
  | phi type incoming => exact hvalue (by rw [hop]; rfl)
  | call callee operands returns =>
    cases ha : operands.mapM (F.get id) with
    | error fault => exact .inr ⟨fault, perform_argFault hop ha⟩
    | ok args =>
      have ha' : (operands.map σ).mapM (G.get id) = .ok args := by
        refine mapM_mapOperands ?_ ha
        intro o hmem a hget
        refine (G.get_eq_ok id).mpr (ho o ?_ a ((F.get_eq_ok id).mp hget))
        rw [hop]
        exact hmem
      rw [perform_call hop ha, perform_call (Instruction.mapOperands_call hop σ) ha']
      exact .inl (.calls hnext hset)

theorem matches_leave (h : Shadows keep σ F G) (hi : F.Stands b none)
    (ho : ∀ t, b.terminator = some t → ∀ o ∈ t.operands, ∀ a, F.find? id o = some a →
      G.find? id (σ o) = some a)
    (hjump : ∀ target ∈ b.successors, R (F.jump target) (G.jump target)) :
    Action.Matches R F.action G.action ∨ ∃ fault, F.action = .fails fault := by
  have hG := h.stands_end hi
  cases ha : F.action with
  | fails fault => exact .inr ⟨fault, rfl⟩
  | goes F' =>
    have hm := F.moves
    rw [ha] at hm
    cases hm with
    | computes hi' => cases (hi.unique hi').2
    | @jumps b' t target hi' ht hc =>
      obtain ⟨rfl, _⟩ := hi.unique hi'
      rw [action_jumps hG (Func.terminator_pruned ht) ?_]
      · exact .inl (.goes (hjump target (hc.mem_block ht)))
      · cases hc with
        | br => exact .br
        | whenTrue hc => exact .whenTrue (ho _ ht _ List.mem_cons_self _ hc)
        | whenFalse hc => exact .whenFalse (ho _ ht _ List.mem_cons_self _ hc)
  | calls F' dst callee args =>
    have hm := F.moves
    rw [ha] at hm
    cases hm with
    | calls hi' => cases (hi.unique hi').2
  | returns r =>
    have hm := F.moves
    rw [ha] at hm
    cases hm with
    | @ends b' o _ hi' ht hr =>
      obtain ⟨rfl, _⟩ := hi.unique hi'
      rw [action_ends hG (Func.terminator_pruned ht) ?_]
      · exact .inl .returns
      · cases hr with
        | void => exact .void
        | value hc => exact .value (ho _ ht _ List.mem_cons_self _ hc)

end Shadows

def Retains (passed : List Nat) (σ : Operand → Operand) (F G : Frame Const) : Prop :=
  ∀ v c, F.find? id (.value v) = some c → v ∈ passed ∧
    ((∀ x, σ (.value v) = .value x → ¬ Stale passed v x) → G.find? id (σ (.value v)) = some c)

namespace Retains

variable {passed : List Nat} {σ : Operand → Operand} {F G : Frame Const} {dst : Nat} {c : Const}

theorem next (h : Retains passed σ F G) (hσ : σ (.value dst) = .value dst) :
    Retains (dst :: passed) σ F.next G.next := by
  intro v a hv
  rw [find?_next] at hv
  obtain ⟨hmem, hsame⟩ := h v a hv
  refine ⟨List.mem_cons_of_mem _ hmem, ?_⟩
  intro hfresh
  rw [find?_next]
  refine hsame fun x hx => ?_
  by_cases hne : v = dst
  · subst hne
    cases hσ.symm.trans hx
    exact Stale.irrefl
  · exact (Stale.of_cons hmem hne (hfresh x hx)).2

theorem set (h : Retains passed σ F G) (hσ : σ (.value dst) = .value dst) :
    Retains (dst :: passed) σ (F.next.set dst c) (G.next.set dst c) := by
  intro v a hv
  rw [find?_set] at hv
  by_cases hne : v = dst
  · subst hne
    rw [if_pos rfl] at hv
    refine ⟨List.mem_cons_self, fun _ => ?_⟩
    rw [hσ, find?_set, if_pos rfl]
    exact hv
  · rw [if_neg hne] at hv
    obtain ⟨hmem, hsame⟩ := h.next hσ v a hv
    refine ⟨hmem, fun hfresh => ?_⟩
    rw [find?_set_of_ne]
    · exact hsame hfresh
    · intro hx
      obtain ⟨hmem, _⟩ := h v a ((find?_next F id _).symm.trans hv)
      exact (Stale.of_cons hmem hne (hfresh dst hx)).1 rfl

theorem skip (h : Retains passed σ F G) (hσ : G.find? id (σ (.value dst)) = some c) :
    Retains (dst :: passed) σ (F.next.set dst c) G := by
  intro v a hv
  rw [find?_set] at hv
  by_cases hne : v = dst
  · subst hne
    rw [if_pos rfl] at hv
    cases hv
    exact ⟨List.mem_cons_self, fun _ => hσ⟩
  · rw [if_neg hne, find?_next] at hv
    obtain ⟨hmem, hsame⟩ := h v a hv
    refine ⟨List.mem_cons_of_mem _ hmem, fun hfresh => hsame fun x hx => ?_⟩
    exact (Stale.of_cons hmem hne (hfresh x hx)).2

end Retains

structure Follows (keep : Instruction → Bool) (σ : Operand → Operand) (F G : Frame Const) : Prop
    extends Shadows keep σ F G where
  replaces : F.func.Replaces keep σ
  way : ∃ passed, F.func.Way passed F.block F.previous F.pc ∧ Retains passed σ F G

namespace Follows

variable {keep : Instruction → Bool} {σ : Operand → Operand} {F G : Frame Const} {b : Block}
  {i : Instruction}

theorem operand (h : Follows keep σ F G) {o : Operand}
    (ho : o ∈ F.func.reads F.block F.previous F.pc) {a : Const} (ha : F.find? id o = some a) :
    G.find? id (σ o) = some a := by
  obtain ⟨passed, hway, hretains⟩ := h.way
  cases o with
  | const c =>
    rw [h.replaces.const]
    exact ha
  | param n =>
    rw [h.replaces.param, find?_param, h.args]
    exact ha
  | value v =>
    exact (hretains v a ha).2 fun x hx => h.replaces.fresh passed _ _ _ hway v x ho hx

theorem mem_instructions (hi : F.Stands b (some i)) : i ∈ F.func.instructions :=
  Func.mem_instructions.mpr ⟨b, List.mem_of_find?_eq_some hi.block, List.mem_of_getElem? hi.pc⟩

theorem operand_taken (h : Follows keep σ F G) (hi : F.Stands b (some i)) {o : Operand}
    (ho : o ∈ i.op.taken F.previous) {a : Const} (ha : F.find? id o = some a) :
    G.find? id (σ o) = some a := by
  refine h.operand ?_ ha
  simp only [Func.reads, hi.block, hi.pc]
  exact ho

theorem operand_terminator (h : Follows keep σ F G) (hi : F.Stands b none) {t : Terminator}
    (ht : b.terminator = some t) {o : Operand} (ho : o ∈ t.operands) {a : Const}
    (ha : F.find? id o = some a) : G.find? id (σ o) = some a := by
  refine h.operand ?_ ha
  simp only [Func.reads, hi.block, hi.pc, ht]
  exact ho

theorem next (h : Follows keep σ F G) (hi : F.Stands b (some i)) (hk : keep i = true) :
    Follows keep σ F.next G.next where
  toShadows := h.toShadows.next hi hk
  replaces := h.replaces
  way := by
    obtain ⟨passed, hway, hretains⟩ := h.way
    exact ⟨i.dst :: passed, hway.next hi.block hi.pc,
      hretains.next (h.replaces.kept i (mem_instructions hi) hk)⟩

theorem set (h : Follows keep σ F G) (hi : F.Stands b (some i)) (hk : keep i = true) (c : Const) :
    Follows keep σ (F.next.set i.dst c) (G.next.set i.dst c) where
  toShadows := (h.toShadows.next hi hk).set i.dst c
  replaces := h.replaces
  way := by
    obtain ⟨passed, hway, hretains⟩ := h.way
    exact ⟨i.dst :: passed, hway.next hi.block hi.pc,
      hretains.set (h.replaces.kept i (mem_instructions hi) hk)⟩

theorem skip (h : Follows keep σ F G) (hi : F.Stands b (some i)) (hk : keep i = false) {c : Const}
    (hv : Machine.value F i.dst i.op = .ok c) : Follows keep σ (F.next.set i.dst c) G where
  toShadows := (h.toShadows.skip hi hk).set_left i.dst c
  replaces := h.replaces
  way := by
    obtain ⟨passed, hway, hretains⟩ := h.way
    obtain ⟨type, incoming, hop, hsame⟩ := h.replaces.removed i (mem_instructions hi) hk
    refine ⟨i.dst :: passed, hway.next hi.block hi.pc, hretains.skip ?_⟩
    rw [hop] at hv
    simp only [Machine.value] at hv
    split at hv
    next e hfind =>
      rw [← hsame _ (List.mem_of_find?_eq_some hfind)]
      refine h.operand_taken hi ?_ ((F.get_eq_ok id).mp hv)
      rw [hop]
      exact Operation.mem_taken_phi.mpr ⟨_, hfind, rfl⟩
    next => cases hv

theorem jump (h : Follows keep σ F G) (hi : F.Stands b none) {target : Nat}
    (ht : target ∈ b.successors) : Follows keep σ (F.jump target) (G.jump target) where
  toShadows := h.toShadows.jump target
  replaces := h.replaces
  way := by
    obtain ⟨passed, hway, hretains⟩ := h.way
    refine ⟨passed, hway.jump hi.block hi.pc ht, ?_⟩
    intro v c hv
    rw [find?_jump] at hv ⊢
    exact hretains v c hv

theorem start {f : Func} (h : f.Replaces keep σ) (args : List Const) (returnTo : Option Nat) :
    Follows keep σ (Frame.start f args returnTo)
      (Frame.start (f.pruned keep σ) args returnTo) where
  toShadows := .start f args returnTo
  replaces := h
  way := by
    refine ⟨[], .entry, ?_⟩
    intro v c hv
    rw [find?_start] at hv
    cases hv

theorem mirrors (keep : Instruction → Bool) (σ : Operand → Operand) :
    Mirrors (fun _ _ => True) (Follows keep σ) where
  returnTo := fun h => h.returnTo
  action := by
    intro F G h
    have hexcused (hf : ∃ fault, F.action = .fails fault) :
        ∃ fault, F.action = .fails fault ∧ True := by
      obtain ⟨fault, ha⟩ := hf
      exact ⟨fault, ha, trivial⟩
    cases hb : F.func.block? F.block with
    | none => exact .inr (.inr (hexcused ⟨_, action_missing hb⟩))
    | some b =>
      cases hpc : b.instructions[F.pc]? with
      | none =>
        have hi : F.Stands b none := ⟨hb, hpc⟩
        have hleave := h.matches_leave hi
          (fun t ht o ho a => h.operand_terminator hi ht ho) fun target => h.jump hi
        exact .inr (hleave.imp_right hexcused)
      | some i =>
        have hi : F.Stands b (some i) := ⟨hb, hpc⟩
        cases hk : keep i with
        | true =>
          have hperform := h.matches_perform hi hk (fun o ho a => h.operand_taken hi ho)
            (h.next hi hk) (h.set hi hk)
          exact .inr (hperform.imp_right hexcused)
        | false =>
          obtain ⟨type, incoming, hop, _⟩ := h.replaces.removed i (mem_instructions hi) hk
          have hcall : i.op.isCall = false := by
            rw [hop]
            rfl
          rw [action_perform hi]
          cases hv : Machine.value F i.dst i.op with
          | ok c =>
            rw [perform_value hcall hv]
            exact .inl ⟨_, rfl, h.skip hi hk hv⟩
          | error fault =>
            rw [perform_fault hcall hv]
            exact .inr (.inr ⟨fault, rfl, trivial⟩)

end Follows

end Frame

/-- A function whose phis have been replaced serves for the whole function. -/
theorem Func.Replaces.serves {f : Func} {keep : Instruction → Bool} {σ : Operand → Operand}
    (h : f.Replaces keep σ) : f.Serves (f.pruned keep σ) :=
  .of_mirrors (Frame.Follows.mirrors keep σ) rfl (Frame.Follows.start h)

end FormCompiler
