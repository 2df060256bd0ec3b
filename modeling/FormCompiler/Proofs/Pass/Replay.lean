import FormCompiler.Proofs.Machine.Travel
import FormCompiler.Proofs.Pass.Prune

namespace FormCompiler

section Values

variable {get get' : Operand → Except Fault Const} {σ : Operand → Operand}

theorem Computation.run_mapOperands (c : Computation) (fault : ArithError → Fault)
    (h : ∀ o ∈ c.operands, ∀ a, get o = .ok a → get' (σ o) = .ok a) :
    (c.mapOperands σ).run get' fault = c.run get fault ∨
      ∃ o e, get o = .error e ∧ c.run get fault = .error e := by
  have htwo : ∀ (l r : Operand) (f : Const → Const → Except Fault Const), c.operands = [l, r] →
      (do let a ← get' (σ l); let b ← get' (σ r); f a b) =
        (do let a ← get l; let b ← get r; f a b) ∨
      ∃ o e, get o = .error e ∧ (do let a ← get l; let b ← get r; f a b) = .error e := by
    intro l r f hc
    cases hl : get l with
    | error e => exact .inr ⟨l, e, hl, rfl⟩
    | ok a =>
      rw [h l (by simp [hc]) a hl]
      cases hr : get r with
      | error e => exact .inr ⟨r, e, hr, rfl⟩
      | ok b =>
        rw [h r (by simp [hc]) b hr]
        exact .inl rfl
  cases c with
  | int op l r => exact htwo l r _ rfl
  | float op l r => exact htwo l r _ rfl
  | icmp test l r => exact htwo l r _ rfl
  | fcmp test l r => exact htwo l r _ rfl
  | cast op value target =>
    simp only [Computation.mapOperands, Computation.run]
    cases hv : get value with
    | error e => exact .inr ⟨value, e, hv, rfl⟩
    | ok a =>
      rw [h value List.mem_cons_self a hv]
      exact .inl rfl

theorem mapM_mapOperands {os : List Operand} {args : List Const}
    (h : ∀ o ∈ os, ∀ a, get o = .ok a → get' (σ o) = .ok a) (ha : os.mapM get = .ok args) :
    (os.map σ).mapM get' = .ok args := by
  induction os generalizing args with
  | nil => exact ha
  | cons o os ih =>
    rw [List.mapM_cons] at ha
    obtain ⟨a, ho, ha⟩ := bind_eq_ok.mp ha
    obtain ⟨as, has, ha⟩ := bind_eq_ok.mp ha
    rw [List.map_cons, List.mapM_cons, h o List.mem_cons_self a ho,
      ih (fun o' ho' => h o' (List.mem_cons_of_mem _ ho')) has]
    exact ha

end Values

namespace Operation

variable {op : Operation} {previous : Option Nat} {o : Operand}

def taken (op : Operation) (previous : Option Nat) : List Operand :=
  match op with
  | .phi _ incoming => ((incoming.find? fun e => some e.2 == previous).map Prod.fst).toList
  | op => op.operands

theorem mem_taken_phi {type : NativeType} {incoming : List (Operand × Nat)} :
    o ∈ (phi type incoming).taken previous ↔
      ∃ e, incoming.find? (fun e => some e.2 == previous) = some e ∧ e.1 = o := by
  rw [taken, Option.mem_toList, Option.map_eq_some_iff]

theorem mem_operands_of_taken (h : o ∈ op.taken previous) : o ∈ op.operands := by
  cases op with
  | compute c => exact h
  | call callee args returns => exact h
  | phi type incoming =>
    obtain ⟨e, he, rfl⟩ := mem_taken_phi.mp h
    exact List.mem_map_of_mem (List.mem_of_find?_eq_some he)

end Operation

namespace Frame

variable {F G : Frame Const} {σ : Operand → Operand} {op : Operation}

theorem value_mapOperands (dst : Nat) (hname : G.func.name = F.func.name)
    (hprevious : G.previous = F.previous)
    (h : ∀ o ∈ op.taken F.previous, ∀ a, F.find? id o = some a → G.find? id (σ o) = some a) :
    Machine.value G dst (op.mapOperands σ) = Machine.value F dst op ∨
      ∃ detail, Machine.value F dst op = .error (.misfit F.func.name detail) := by
  have hget : ∀ o ∈ op.taken F.previous, ∀ a, F.get id o = .ok a → G.get id (σ o) = .ok a := by
    intro o ho a ha
    exact (G.get_eq_ok id).mpr (h o ho a ((F.get_eq_ok id).mp ha))
  cases op with
  | call callee args returns => exact .inr ⟨_, rfl⟩
  | compute c =>
    rw [Operation.mapOperands, value_compute, value_compute, hname]
    rcases c.run_mapOperands (ArithError.at F.func.name dst) hget with he | ⟨o, e, he, hrun⟩
    · exact .inl he
    · obtain ⟨detail, rfl⟩ := get_misfit he
      exact .inr ⟨detail, hrun⟩
  | phi type incoming =>
    simp only [Operation.mapOperands, Machine.value, List.find?_map, hprevious, Function.comp_def]
    cases he : incoming.find? fun e => some e.2 == F.previous with
    | none => exact .inr ⟨_, rfl⟩
    | some e =>
      have hmem : e.1 ∈ (Operation.phi type incoming).taken F.previous :=
        Operation.mem_taken_phi.mpr ⟨e, he, rfl⟩
      simp only [Option.map_some]
      cases ho : F.get id e.1 with
      | ok a => exact .inl (hget e.1 hmem a ho)
      | error fault =>
        obtain ⟨detail, rfl⟩ := get_misfit ho
        exact .inr ⟨detail, rfl⟩

theorem value_phi {dst : Nat} {type : NativeType}
    {incoming : List (Operand × Nat)} {o : Operand} {a : Const} (hall : ∀ e ∈ incoming, e.1 = o)
    (h : Machine.value F dst (.phi type incoming) = .ok a) : F.find? id o = some a := by
  simp only [Machine.value] at h
  split at h
  next e hfind =>
    rw [← hall _ (List.mem_of_find?_eq_some hfind)]
    exact (F.get_eq_ok id).mp h
  next => cases h

end Frame

section Lists

variable {α : Type} {keep : α → Bool} {l : List α} {n : Nat} {a : α}

theorem getElem?_filter_countP (h : l[n]? = some a) (hk : keep a = true) :
    (l.filter keep)[(l.take n).countP keep]? = some a := by
  induction l generalizing n with
  | nil => cases h
  | cons b l ih =>
    cases n with
    | zero =>
      cases h
      simp [hk]
    | succ n =>
      rw [List.take_succ_cons, List.countP_cons]
      cases hb : keep b with
      | true => simpa [hb] using ih h
      | false => simpa [hb] using ih h

theorem getElem?_filter_countP_none (h : l[n]? = none) :
    (l.filter keep)[(l.take n).countP keep]? = none := by
  rw [List.take_of_length_le (List.getElem?_eq_none_iff.mp h), List.countP_eq_length_filter]
  exact List.getElem?_eq_none (Nat.le_refl _)

theorem countP_take_succ (h : l[n]? = some a) :
    (l.take (n + 1)).countP keep = (l.take n).countP keep + if keep a then 1 else 0 := by
  rw [List.take_add_one, h, List.countP_append]
  simp [List.countP_cons]

end Lists

theorem Func.block?_pruned {f : Func} {keep : Instruction → Bool} {σ : Operand → Operand}
    (id : Nat) : (f.pruned keep σ).block? id = (f.block? id).map (·.pruned keep σ) := by
  simp only [pruned, mapBlocks, block?, List.find?_map]
  rfl

structure Frame.Shadows (keep : Instruction → Bool) (σ : Operand → Operand) (F G : Frame Const) :
    Prop where
  target : G.func = F.func.pruned keep σ
  args : G.args = F.args
  block : G.block = F.block
  previous : G.previous = F.previous
  returnTo : G.returnTo = F.returnTo
  pc : ∀ b, F.func.block? F.block = some b → G.pc = (b.instructions.take F.pc).countP keep

namespace Frame.Shadows

variable {keep : Instruction → Bool} {σ : Operand → Operand} {F G : Frame Const} {b : Block}
  {i : Instruction}

theorem name (h : Shadows keep σ F G) : G.func.name = F.func.name := by
  rw [h.target]
  rfl

theorem block? (h : Shadows keep σ F G) (hb : F.func.block? F.block = some b) :
    G.func.block? G.block = some (b.pruned keep σ) := by
  rw [h.target, Func.block?_pruned, h.block, hb]
  rfl

theorem stands (h : Shadows keep σ F G) (hi : F.Stands b (some i)) (hk : keep i = true) :
    G.Stands (b.pruned keep σ) (some (i.mapOperands σ)) := by
  refine ⟨h.block? hi.block, ?_⟩
  rw [h.pc b hi.block]
  change ((b.instructions.filter keep).map (·.mapOperands σ))[_]? = _
  rw [List.getElem?_map, getElem?_filter_countP hi.pc hk]
  rfl

theorem stands_end (h : Shadows keep σ F G) (hi : F.Stands b none) :
    G.Stands (b.pruned keep σ) none := by
  refine ⟨h.block? hi.block, ?_⟩
  rw [h.pc b hi.block]
  change ((b.instructions.filter keep).map (·.mapOperands σ))[_]? = _
  rw [List.getElem?_map, getElem?_filter_countP_none hi.pc]
  rfl

theorem next (h : Shadows keep σ F G) (hi : F.Stands b (some i)) (hk : keep i = true) :
    Shadows keep σ F.next G.next := by
  refine { h with pc := ?_ }
  intro c hc
  cases hi.block.symm.trans hc
  change G.pc + 1 = (b.instructions.take (F.pc + 1)).countP keep
  rw [countP_take_succ hi.pc, if_pos hk, h.pc b hi.block]

theorem skip (h : Shadows keep σ F G) (hi : F.Stands b (some i)) (hk : keep i = false) :
    Shadows keep σ F.next G := by
  refine { h with pc := ?_ }
  intro c hc
  cases hi.block.symm.trans hc
  change G.pc = (b.instructions.take (F.pc + 1)).countP keep
  rw [countP_take_succ hi.pc, hk, h.pc b hi.block]
  rfl

theorem set (h : Shadows keep σ F G) (dst : Nat) (c : Const) :
    Shadows keep σ (F.set dst c) (G.set dst c) :=
  { h with }

theorem set_left (h : Shadows keep σ F G) (dst : Nat) (c : Const) :
    Shadows keep σ (F.set dst c) G :=
  { h with }

theorem jump (h : Shadows keep σ F G) (target : Nat) :
    Shadows keep σ (F.jump target) (G.jump target) :=
  { h with
    block := rfl
    previous := congrArg some h.block
    pc := fun c _ => by simp [Frame.jump] }

theorem start (f : Func) (args : List Const) (returnTo : Option Nat) :
    Shadows keep σ (Frame.start f args returnTo)
      (Frame.start (f.pruned keep σ) args returnTo) where
  target := rfl
  args := rfl
  block := rfl
  previous := rfl
  returnTo := rfl
  pc := fun c _ => by simp [Frame.start]

end Frame.Shadows

namespace Func

structure Replays (f : Func) (w : Flow) (keep : Instruction → Bool) (σ : Operand → Operand)
    (F G : Frame Const) : Prop extends Frame.Shadows keep σ F G where
  func : F.func = f
  travels : F.Travels w
  kept : ∀ i ∈ f.instructions, keep i = true → ∀ a, F.find? id (.value i.dst) = some a →
    G.find? id (.value i.dst) = some a
  removed : ∀ i ∈ f.instructions, keep i = false → .value i.dst ∈ f.uses →
    ∀ a, F.find? id (.value i.dst) = some a → F.find? id (σ (.value i.dst)) = some a

namespace Replays

variable {f : Func} {w : Flow} {keep : Instruction → Bool} {σ : Operand → Operand}
  {F G : Frame Const} {b : Block} {i : Instruction}

theorem operand (h : Replays f w keep σ F G) (hp : f.Prunes keep σ) (hs : f.Sound w) {o : Operand}
    (ho : o ∈ f.uses) {a : Const} (ha : F.find? id o = some a) : G.find? id (σ o) = some a := by
  have hparam : ∀ n, G.find? id (.param n) = F.find? id (.param n) := by
    intro n
    rw [Frame.find?_param, Frame.find?_param, h.args]
  cases o with
  | const c =>
    rw [hp.const]
    exact ha
  | param n =>
    rw [hp.param, hparam]
    exact ha
  | value v =>
    obtain ⟨b, hb, hv⟩ := hs.defines_uses ho v rfl
    obtain ⟨i, hi, rfl⟩ := List.mem_map.mp hv
    have hmem := mem_instructions.mpr ⟨b, hb, hi⟩
    cases hk : keep i with
    | true =>
      rw [hp.kept i hmem hk]
      exact h.kept i hmem hk a ha
    | false =>
      have hF := h.removed i hmem hk ho a ha
      cases hσ : σ (.value i.dst) with
      | const c =>
        rw [hσ] at hF
        exact hF
      | param n =>
        rw [hσ] at hF
        rw [hparam]
        exact hF
      | value x =>
        rw [hσ] at hF
        obtain ⟨j, hj, hkj, rfl⟩ := hp.target_kept hs ho ⟨b, hb, hv⟩ hσ
        exact h.kept j hj hkj a hF

theorem mem (h : Replays f w keep σ F G) {i : Option Instruction} (hi : F.Stands b i) :
    b ∈ f.blocks := by
  have hb := hi.block
  rw [h.func] at hb
  exact List.mem_of_find?_eq_some hb

theorem next (h : Replays f w keep σ F G) (hi : F.Stands b (some i)) (hk : keep i = true) :
    Replays f w keep σ F.next G.next where
  toShadows := h.toShadows.next hi hk
  func := h.func
  travels := h.travels.next
  kept := by
    intro j hj hkj a ha
    rw [Frame.find?_next] at ha ⊢
    exact h.kept j hj hkj a ha
  removed := by
    intro j hj hkj hu a ha
    rw [Frame.find?_next] at ha ⊢
    exact h.removed j hj hkj hu a ha

theorem set (h : Replays f w keep σ F G) (hs : f.Sound w) (hi : F.Stands b (some i))
    (hk : keep i = true) (c : Const) :
    Replays f w keep σ (F.next.set i.dst c) (G.next.set i.dst c) := by
  have hn := h.next hi hk
  have hshaped : F.func.Shaped := h.func ▸ hs.shaped
  refine {
    toShadows := hn.toShadows.set i.dst c
    func := h.func
    travels := h.travels.set hshaped.toRegular hi c
    kept := ?_
    removed := ?_ }
  · intro j hj hkj a ha
    rw [Frame.find?_set] at ha ⊢
    split at ha
    next he => rw [if_pos he]; exact ha
    next he => rw [if_neg he]; exact hn.kept j hj hkj a ha
  · intro j hj hkj hu a ha
    have hne : j.dst ≠ i.dst := by
      intro he
      obtain ⟨d, hd, hj⟩ := mem_instructions.mp hj
      obtain ⟨_, rfl⟩ := hs.shaped.eq_of_dst hd (h.mem hi) hj (List.mem_of_getElem? hi.pc) he
      rw [hk] at hkj
      cases hkj
    rw [Frame.find?_set, if_neg hne] at ha
    have hold := hn.removed j hj hkj hu a ha
    rw [Frame.find?_set_of_ne _ _ ?_]
    · exact hold
    · intro he
      -- nothing stands for a value that is not computed yet
      rw [he, Frame.find?_next, h.travels.unset hshaped.toRegular hi] at hold
      cases hold

theorem skip (h : Replays f w keep σ F G) (hp : f.Prunes keep σ) (hs : f.Sound w)
    (hi : F.Stands b (some i)) (hk : keep i = false) {a : Const}
    (hv : Machine.value F i.dst i.op = .ok a)
    (hconst : ∀ c, σ (.value i.dst) = .const c → a = c) :
    Replays f w keep σ (F.next.set i.dst a) G := by
  have hshaped : F.func.Shaped := h.func ▸ hs.shaped
  have hmem := mem_instructions.mpr ⟨b, h.mem hi, List.mem_of_getElem? hi.pc⟩
  have hsame : ∀ {j}, j ∈ f.instructions → j.dst = i.dst → j = i := by
    intro j hj he
    obtain ⟨d, hd, hj⟩ := mem_instructions.mp hj
    exact (hs.shaped.eq_of_dst hd (h.mem hi) hj (List.mem_of_getElem? hi.pc) he).2
  refine {
    toShadows := (h.toShadows.skip hi hk).set_left i.dst a
    func := h.func
    travels := h.travels.set hshaped.toRegular hi a
    kept := ?_
    removed := ?_ }
  · intro j hj hkj a' ha'
    have hne : j.dst ≠ i.dst := by
      intro he
      rw [hsame hj he, hk] at hkj
      cases hkj
    rw [Frame.find?_set, if_neg hne, Frame.find?_next] at ha'
    exact h.kept j hj hkj a' ha'
  · intro j hj hkj hu a' ha'
    -- what replaces a value is never one that is left out
    have hne : σ (.value j.dst) ≠ .value i.dst := by
      intro he
      obtain ⟨d, hd, hj'⟩ := mem_instructions.mp hj
      obtain ⟨k, hkmem, hkk, hdst⟩ := hp.target_kept hs hu ⟨d, hd, List.mem_map_of_mem hj'⟩ he
      rw [hsame hkmem hdst, hk] at hkk
      cases hkk
    rw [Frame.find?_set_of_ne _ _ hne, Frame.find?_next]
    rw [Frame.find?_set] at ha'
    split at ha'
    next he =>
      cases ha'
      have hji := hsame hj he
      subst hji
      have hvanishes := hp.removed j hmem hk
      generalize hσ : σ (.value j.dst) = o at hvanishes hconst
      cases hvanishes with
      | unused hunused => exact absurd hu hunused
      | const =>
        rw [hconst _ rfl]
        rfl
      | phi hop hne hall _ =>
        rw [hop] at hv
        exact Frame.value_phi hall hv
    next he =>
      rw [Frame.find?_next] at ha'
      exact h.removed j hj hkj hu a' ha'

theorem jump (h : Replays f w keep σ F G) (hs : f.Sound w) {c : Option Instruction}
    (hi : F.Stands b c) {target : Nat} (ht : target ∈ b.successors) :
    Replays f w keep σ (F.jump target) (G.jump target) where
  toShadows := h.toShadows.jump target
  func := h.func
  travels := h.travels.jump (h.func ▸ hs.shaped.toRegular) (h.func ▸ hs.flows) hi.block ht
  kept := by
    intro j hj hkj a ha
    rw [Frame.find?_jump] at ha ⊢
    exact h.kept j hj hkj a ha
  removed := by
    intro j hj hkj hu a ha
    rw [Frame.find?_jump] at ha ⊢
    exact h.removed j hj hkj hu a ha

theorem start (args : List Const) (returnTo : Option Nat) :
    Replays f w keep σ (Frame.start f args returnTo)
      (Frame.start (f.pruned keep σ) args returnTo) where
  toShadows := .start f args returnTo
  func := rfl
  travels := Frame.travels_start f w args returnTo
  kept := by
    intro i _ _ a ha
    rw [Frame.find?_start] at ha
    cases ha
  removed := by
    intro i _ _ _ a ha
    rw [Frame.find?_start] at ha
    cases ha

theorem chooses (h : Replays f w keep σ F G) (hp : f.Prunes keep σ) (hs : f.Sound w)
    (hb : b ∈ f.blocks) {t : Terminator} (ht : b.terminator = some t) {target : Nat}
    (hc : F.Chooses t target) : G.Chooses (t.mapOperands σ) target := by
  cases hc with
  | br => exact .br
  | whenTrue ho =>
    exact .whenTrue (h.operand hp hs (mem_uses_terminator hb ht List.mem_cons_self) ho)
  | whenFalse ho =>
    exact .whenFalse (h.operand hp hs (mem_uses_terminator hb ht List.mem_cons_self) ho)

theorem yields (h : Replays f w keep σ F G) (hp : f.Prunes keep σ) (hs : f.Sound w)
    (hb : b ∈ f.blocks) {o : Option Operand} (ht : b.terminator = some (.ret o))
    {r : Option Const} (hr : F.Yields o r) : G.Yields (o.map σ) r := by
  cases hr with
  | void => exact .void
  | value ho => exact .value (h.operand hp hs (mem_uses_terminator hb ht List.mem_cons_self) ho)

theorem value (h : Replays f w keep σ F G) (hp : f.Prunes keep σ) (hs : f.Sound w)
    (hi : F.Stands b (some i)) :
    Machine.value G i.dst (i.op.mapOperands σ) = Machine.value F i.dst i.op ∨
      ∃ detail, Machine.value F i.dst i.op = .error (.misfit F.func.name detail) := by
  refine Frame.value_mapOperands i.dst h.name h.previous ?_
  intro o ho a ha
  have ho := Operation.mem_operands_of_taken ho
  exact h.operand hp hs (mem_uses_instruction (h.mem hi) (List.mem_of_getElem? hi.pc) ho) ha

theorem value_eq (h : Replays f w keep σ F G) (hp : f.Prunes keep σ) (hs : f.Sound w)
    (hi : F.Stands b (some i)) {r : Except Fault Const} (hv : Machine.value F i.dst i.op = r)
    (hr : ∀ name detail, r ≠ .error (.misfit name detail)) :
    Machine.value G i.dst (i.mapOperands σ).op = r := by
  rcases h.value hp hs hi with he | ⟨detail, he⟩
  · exact he.trans hv
  · exact absurd (hv.symm.trans he) (hr _ detail)

theorem args_eq (h : Replays f w keep σ F G) (hp : f.Prunes keep σ) (hs : f.Sound w)
    (hi : F.Stands b (some i)) {callee : String} {operands : List Operand} {returns : NativeType}
    (hop : i.op = .call callee operands returns) {args : List Const}
    (ha : operands.mapM (F.get id) = .ok args) : (operands.map σ).mapM (G.get id) = .ok args := by
  refine mapM_mapOperands ?_ ha
  intro o ho a hget
  refine (G.get_eq_ok id).mpr (h.operand hp hs ?_ ((F.get_eq_ok id).mp hget))
  refine mem_uses_instruction (h.mem hi) (List.mem_of_getElem? hi.pc) ?_
  rw [Instruction.operands, hop]
  exact ho

theorem computes {v : Nat} (hv : (f.pruned keep σ).Computes v) : f.Computes v := by
  obtain ⟨c, hc, hv⟩ := hv
  obtain ⟨b, hb, rfl⟩ := mem_blocks_pruned.mp hc
  exact ⟨b, hb, dsts_pruned_sublist.subset hv⟩

theorem keep_of_computes (h : Replays f w keep σ F G) (hs : f.Sound w) (hi : F.Stands b (some i))
    (hc : G.func.Computes i.dst) : keep i = true := by
  rw [h.target, h.func] at hc
  obtain ⟨j, hj, hkj, hdst⟩ := computes_pruned.mp hc
  obtain ⟨d, hd, hj⟩ := mem_instructions.mp hj
  obtain ⟨_, rfl⟩ := hs.shaped.eq_of_dst hd (h.mem hi) hj (List.mem_of_getElem? hi.pc) hdst
  exact hkj

end Replays

def Foretold (f : Func) (keep : Instruction → Bool) (σ : Operand → Operand) : Prop :=
  ∀ i ∈ f.instructions, keep i = false → ∀ c, σ (.value i.dst) = .const c →
    ∀ F a, Machine.value F i.dst i.op = .ok a → a = c

theorem Prunes.simulation {f : Func} {w : Flow} {keep : Instruction → Bool}
    {σ : Operand → Operand} (hp : f.Prunes keep σ) (hs : f.Sound w) (hc : f.Foretold keep σ) :
    Frame.Simulation (Replays f w keep σ) where
  returnTo := fun h => h.returnTo
  computes := by
    intro F G h v hv
    rw [h.target] at hv
    exact Replays.computes hv
  goes := by
    intro F G F' h hF
    have hm := F.moves
    rw [hF] at hm
    cases hm with
    | @computes b i a hi hcall hv =>
      cases hk : keep i with
      | false =>
        refine .inl (h.skip hp hs hi hk hv ?_)
        intro c hσ
        exact hc i (mem_instructions.mpr ⟨b, h.mem hi, List.mem_of_getElem? hi.pc⟩) hk c hσ F a hv
      | true =>
        have hcall' : (i.mapOperands σ).op.isCall = false := by
          simpa [Instruction.mapOperands] using hcall
        have hv' := h.value_eq hp hs hi hv (fun _ _ => by simp)
        exact .inr ⟨_, Frame.action_computes (h.stands hi hk) hcall' hv', h.set hs hi hk a⟩
    | @jumps b t target hi ht hchoose =>
      have hchoose' := h.chooses hp hs (h.mem hi) ht hchoose
      exact .inr ⟨_, Frame.action_jumps (h.stands_end hi) (terminator_pruned ht) hchoose',
        h.jump hs hi (hchoose.mem_block ht)⟩
  calls := by
    intro F G F' dst callee args h hF
    have hm := F.moves
    rw [hF] at hm
    cases hm with
    | @calls b i _ operands returns _ hi hop ha =>
      have hk := hp.keep_call (mem_instructions.mpr ⟨b, h.mem hi, List.mem_of_getElem? hi.pc⟩) hop
      have hG := Frame.action_calls (h.stands hi hk) (Instruction.mapOperands_call hop σ)
        (h.args_eq hp hs hi hop ha)
      exact ⟨G.next, hG, h.next hi hk, h.set hs hi hk⟩
  returns := by
    intro F G r h hF
    have hm := F.moves
    rw [hF] at hm
    cases hm with
    | @ends b o _ hi ht hr =>
      exact Frame.action_ends (h.stands_end hi) (terminator_pruned ht)
        (h.yields hp hs (h.mem hi) ht hr)
  fails := by
    intro F G name i h hF hcur hcomputes
    have hm := F.moves
    rw [hF] at hm
    cases hm with
    | @divides b j l r hi hop hv =>
      rw [hi.current?] at hcur
      cases hcur
      have hstands := h.stands hi (h.keep_of_computes hs hi hcomputes)
      have hop' : (i.mapOperands σ).op = .compute (.int .div (σ l) (σ r)) := by
        rw [Instruction.mapOperands, hop]
        rfl
      have hv' := h.value_eq hp hs hi hv (fun _ _ => by simp)
      exact ⟨Frame.action_divides hstands hop' hv', _, hstands.current?, rfl⟩

theorem Prunes.refines {f : Func} {w : Flow} {keep : Instruction → Bool} {σ : Operand → Operand}
    (hp : f.Prunes keep σ) (hs : f.Sound w) (hc : f.Foretold keep σ) :
    f.Refines (f.pruned keep σ) :=
  ⟨rfl, fun args returnTo => ⟨_, hp.simulation hs hc, Replays.start args returnTo⟩⟩

end Func

end FormCompiler
