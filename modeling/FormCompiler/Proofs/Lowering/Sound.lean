import FormCompiler.Proofs.Code.Verified
import FormCompiler.Proofs.Lowering.Laid

namespace FormCompiler

namespace Builder

def Has (b : Builder) (w : Flow) (n : Nat) (o : Operand) : Prop :=
  ∀ v, o = .value v → b.Knows w v ∧ b.PhiFrom n v

structure Carries (b b' : Builder) (w w' : Flow) : Prop where
  laid : b'.Laid w'
  avail : ∀ i, i < b.func.blocks.length → w'.avail i = w.avail i
  knows : ∀ v, b.Knows w v → b'.Knows w' v
  old : ∀ (i : Nat) (c : Block), b'.func.blocks[i]? = some c → ∀ j ∈ c.instructions,
    j.dst < b.func.types.length → ∃ d, b.func.blocks[i]? = some d ∧ j ∈ d.instructions
  length : b.func.blocks.length ≤ b'.func.blocks.length
  types : b.func.types.length ≤ b'.func.types.length

variable {b b' b'' : Builder} {w w' w'' : Flow} {op : Operation} {o o' : Operand} {n : Nat}

theorem has_const (c : Const) : b.Has w n (.const c) := by
  intro v hv
  cases hv

theorem has_param (index : Nat) : b.Has w n (.param index) := by
  intro v hv
  cases hv

theorem Has.mono {m : Nat} (h : b.Has w n o) (hm : m ≤ n) : b.Has w m o := by
  intro v hv
  obtain ⟨hk, hp⟩ := h v hv
  exact ⟨hk, fun i c hc j hj hd hphi => Nat.le_trans hm (hp i c hc j hj hd hphi)⟩

theorem Carries.refl (h : b.Laid w) : b.Carries b w w :=
  ⟨h, fun _ _ => rfl, fun _ hv => hv, fun _ c hc _ hj _ => ⟨c, hc, hj⟩, Nat.le_refl _,
    Nat.le_refl _⟩

theorem Carries.trans (h : b.Carries b' w w') (h' : b'.Carries b'' w' w'') :
    b.Carries b'' w w'' := by
  refine ⟨h'.laid, ?_, fun v hv => h'.knows v (h.knows v hv), ?_, Nat.le_trans h.length h'.length,
    Nat.le_trans h.types h'.types⟩
  · intro i hi
    rw [h'.avail i (Nat.lt_of_lt_of_le hi h.length), h.avail i hi]
  · intro i c hc j hj hlt
    obtain ⟨d, hd, hj⟩ := h'.old i c hc j hj (Nat.lt_of_lt_of_le hlt h.types)
    exact h.old i d hd j hj hlt

theorem Carries.phiFrom (h : b.Carries b' w w') {v : Nat} (hv : v < b.func.types.length)
    (hp : b.PhiFrom n v) : b'.PhiFrom n v := by
  rintro i c hc j hj rfl hphi
  obtain ⟨d, hd, hj⟩ := h.old i c hc j hj hv
  exact hp i d hd j hj rfl hphi

theorem Carries.has (h : b.Carries b' w w') (hl : b.Laid w) (ho : b.Has w n o) :
    b'.Has w' n o := by
  intro v hv
  obtain ⟨hk, hp⟩ := ho v hv
  exact ⟨h.knows v hk, h.phiFrom (hl.knows_lt hk) hp⟩

theorem Laid.carries_add (h : b.Laid w) (hl : (b.add op).Laid w) : b.Carries (b.add op) w w := by
  obtain ⟨block, hopen⟩ := h.isOpen
  refine ⟨hl, fun _ _ => rfl, ?_, ?_, Nat.le_of_eq (length_blocks_add b op).symm, by simp⟩
  · rintro v ⟨c, hc, hv⟩
    rw [hopen.1] at hc
    cases hc
    refine ⟨_, (hopen.add op).1, ?_⟩
    rcases hv with hv | hv
    · exact .inl hv
    · refine .inr ?_
      simp only [Block.dsts, List.map_append, List.mem_append]
      exact .inl hv
  · intro i c hc j hj hlt
    rcases mem_add hopen hc hj with ⟨rfl, _⟩ | hold
    · exact absurd hlt (Nat.lt_irrefl _)
    · exact hold

theorem Laid.has_next (h : b.Laid w) (hphi : op.isPhi = true → n ≤ b.current) :
    (b.add op).Has w n b.next := by
  obtain ⟨block, hopen⟩ := h.isOpen
  intro v hv
  cases hv
  refine ⟨⟨_, (hopen.add op).1, .inr ?_⟩, ?_⟩
  · simp [Block.dsts]
  · intro i c hc j hj hdst hj'
    rcases mem_add hopen hc hj with ⟨rfl, rfl⟩ | ⟨d, hd, hj⟩
    · exact hphi hj'
    · have hlt := h.dst_lt hd (List.mem_map_of_mem hj)
      omega

theorem Laid.carries_op (h : b.Laid w) (op : Operation) (hphi : op.isPhi = false)
    (ho : ∀ o ∈ op.operands, b.Has w 0 o) :
    b.Carries (b.add op) w w ∧ (b.add op).Has w n b.next := by
  have hl : (b.add op).Laid w := by
    refine h.add ?_ ?_ ?_ ?_
    · intro v hv
      exact (ho _ hv.2 v rfl).1
    · intro hp
      rw [hphi] at hp
      cases hp
    · rintro type incoming rfl
      cases hphi
    · intro hp
      rw [hphi] at hp
      cases hp
  refine ⟨h.carries_add hl, h.has_next ?_⟩
  intro hp
  rw [hphi] at hp
  cases hp

section Diamond

variable {b₁ b₂ : Builder} {w₁ w₂ : Flow} {flag : Operand}

theorem Has.branch {m : Nat} (hl : b.Laid w) (ho : b.Has w m o) :
    (b.branch flag).Has (b.branchFlow w) m o := by
  obtain ⟨block, hopen⟩ := hl.isOpen
  intro v hv
  obtain ⟨hk, hp⟩ := ho v hv
  constructor
  · obtain ⟨label, hnew⟩ := open_branch hopen.current_lt flag
    refine ⟨_, hnew.1, .inl ?_⟩
    rwa [branchFlow_new (Nat.le_refl _)]
  · exact (hopen.sameCode_branch flag).phiFrom hp

theorem Carries.branch_knows (hl : b.Laid w) (hn : n = b.func.blocks.length)
    (h₁ : (b.branch flag).Carries b₁ (b.branchFlow w) w₁) {k v : Nat} (hk : k < 3)
    (hv : w₁.avail (n + k) v) : b.Knows w v ∧ b₁.Knows w₁ v := by
  obtain ⟨block, hopen⟩ := hl.isOpen
  subst hn
  rw [h₁.avail _ (by rw [length_blocks_branch]; omega), branchFlow_new (Nat.le_add_right _ k)] at hv
  refine ⟨hv, h₁.knows v ?_⟩
  obtain ⟨label, hnew⟩ := open_branch hopen.current_lt flag
  exact ⟨_, hnew.1, .inl (by rwa [branchFlow_new (Nat.le_refl _)])⟩

theorem Carries.else_laid (hl : b.Laid w) (hn : n = b.func.blocks.length)
    (h₁ : (b.branch flag).Carries b₁ (b.branchFlow w) w₁) (hg₁ : (b.branch flag).Grows b₁) :
    (b₁.jump (n + 2) (n + 1)).Laid (b₁.jumpFlow w₁ (n + 1)) := by
  obtain ⟨block, hopen⟩ := hl.isOpen
  obtain ⟨⟨_, helse⟩, hneElse⟩ := pending_branch hopen.current_lt hn hg₁ (.inl rfl)
  obtain ⟨⟨_, hjoin⟩, hneJoin⟩ := pending_branch hopen.current_lt hn hg₁ (.inr rfl)
  refine h₁.laid.jump helse rfl hneElse hjoin rfl hneJoin ?_
  intro v hv
  exact (h₁.branch_knows hl hn (by omega) hv).2

theorem Carries.else_knows (hl : b.Laid w) (hn : n = b.func.blocks.length)
    (h₁ : (b.branch flag).Carries b₁ (b.branchFlow w) w₁) (hg₁ : (b.branch flag).Grows b₁)
    (h₂ : (b₁.jump (n + 2) (n + 1)).Carries b₂ (b₁.jumpFlow w₁ (n + 1)) w₂) {v : Nat}
    (hv : b.Knows w v) : w₂.avail (n + 2) v ∧ b₂.Knows w₂ v := by
  obtain ⟨block, hopen⟩ := hl.isOpen
  have hl₁ := hg₁.length
  rw [length_blocks_branch] at hl₁
  have havail : ∀ k, k < 3 → w₁.avail (n + k) v := by
    intro k hk
    subst hn
    rwa [h₁.avail _ (by rw [length_blocks_branch]; omega), branchFlow_new (Nat.le_add_right _ k)]
  constructor
  · rw [h₂.avail _ (by rw [length_blocks_jump]; omega)]
    exact havail 2 (by omega)
  · obtain ⟨label, helse⟩ := open_else hopen.current_lt hn hg₁
    exact h₂.knows v ⟨_, helse.1, .inl (havail 1 (by omega))⟩

theorem Carries.join_laid (hl : b.Laid w) (hn : n = b.func.blocks.length)
    (h₁ : (b.branch flag).Carries b₁ (b.branchFlow w) w₁) (hg₁ : (b.branch flag).Grows b₁)
    (h₂ : (b₁.jump (n + 2) (n + 1)).Carries b₂ (b₁.jumpFlow w₁ (n + 1)) w₂)
    (hg₂ : (b₁.jump (n + 2) (n + 1)).Grows b₂) :
    (b₂.jump (n + 2) (n + 2)).Laid (b₂.jumpFlow w₂ (n + 2)) := by
  obtain ⟨block, hopen⟩ := hl.isOpen
  obtain ⟨⟨_, hjoin⟩, hne⟩ := pending_join hopen.current_lt hn hg₁ hg₂
  refine h₂.laid.jump hjoin rfl hne hjoin rfl hne ?_
  intro v hv
  have hl₁ := hg₁.length
  rw [length_blocks_branch] at hl₁
  rw [h₂.avail _ (by rw [length_blocks_jump]; omega)] at hv
  have hb := (h₁.branch_knows hl hn (by omega) hv).1
  exact (h₁.else_knows hl hn hg₁ h₂ hb).2

theorem Carries.diamond (hl : b.Laid w) (hn : n = b.func.blocks.length)
    (h₁ : (b.branch flag).Carries b₁ (b.branchFlow w) w₁) (hg₁ : (b.branch flag).Grows b₁)
    (h₂ : (b₁.jump (n + 2) (n + 1)).Carries b₂ (b₁.jumpFlow w₁ (n + 1)) w₂)
    (hg₂ : (b₁.jump (n + 2) (n + 1)).Grows b₂) :
    b.Carries (b₂.jump (n + 2) (n + 2)) w (b₂.jumpFlow w₂ (n + 2)) := by
  obtain ⟨block, hopen⟩ := hl.isOpen
  obtain ⟨block₁, hopen₁⟩ := hg₁.isOpen
  obtain ⟨block₂, hopen₂⟩ := hg₂.isOpen
  have hl₁ := h₁.length
  have hl₂ := h₂.length
  have ht₁ := h₁.types
  have ht₂ := h₂.types
  rw [length_blocks_branch] at hl₁
  rw [length_blocks_jump] at hl₂
  rw [types_branch] at ht₁
  rw [types_jump] at ht₂
  refine ⟨h₁.join_laid hl hn hg₁ h₂ hg₂, ?_, ?_, ?_, ?_, ?_⟩
  · intro i hi
    change w₂.avail i = _
    rw [h₂.avail i (by rw [length_blocks_jump]; omega)]
    change w₁.avail i = _
    rw [h₁.avail i (by rw [length_blocks_branch]; omega), branchFlow_avail hi]
  · intro v hv
    obtain ⟨label, hjoin⟩ := open_join hopen.current_lt hn hg₁ hg₂
    exact ⟨_, hjoin.1, .inl (h₁.else_knows hl hn hg₁ h₂ hv).1⟩
  · intro i c hc j hj hlt
    obtain ⟨c₂, hc₂, hj⟩ := (hopen₂.sameCode_jump _ _).mem hc hj
    obtain ⟨d₁, hd₁, hj⟩ := h₂.old i c₂ hc₂ j hj (by rw [types_jump]; omega)
    obtain ⟨c₁, hc₁, hj⟩ := (hopen₁.sameCode_jump _ _).mem hd₁ hj
    obtain ⟨d, hd, hj⟩ := h₁.old i c₁ hc₁ j hj (by rw [types_branch]; omega)
    exact (hopen.sameCode_branch flag).mem hd hj
  · rw [length_blocks_jump]
    omega
  · rw [types_jump]
    omega

theorem PhiFrom.jump {v join id : Nat} (hb : b.Laid w) (h : b.PhiFrom n v) :
    (b.jump join id).PhiFrom n v := by
  obtain ⟨block, hopen⟩ := hb.isOpen
  exact (hopen.sameCode_jump join id).phiFrom h

theorem Knows.ended {v : Nat} (hl : b.Laid w) (hv : b.Knows w v) (join id : Nat) :
    ∃ c, (b.jump join id).func.blocks[b.current]? = some c ∧ c.terminator ≠ none ∧
      c.Leaves w v := by
  obtain ⟨block, hopen⟩ := hl.isOpen
  exact ⟨_, jump_current hopen join id, by simp, hopen.leaves hv⟩

theorem Has.of_else {m : Nat} (hl : b.Laid w) (hn : n = b.func.blocks.length)
    (h₁ : (b.branch flag).Carries b₁ (b.branchFlow w) w₁) (hg₁ : (b.branch flag).Grows b₁)
    (ho : b.Has w m o) : (b₁.jump (n + 2) (n + 1)).Has (b₁.jumpFlow w₁ (n + 1)) m o := by
  obtain ⟨block, hopen⟩ := hl.isOpen
  intro v hv
  obtain ⟨hk, _⟩ := ho v hv
  have hbranch : (b.branch flag).Has (b.branchFlow w) m o := Has.branch hl ho
  obtain ⟨hk', hp⟩ := hbranch v hv
  constructor
  · obtain ⟨label, helse⟩ := open_else hopen.current_lt hn hg₁
    refine ⟨_, helse.1, .inl ?_⟩
    change w₁.avail (n + 1) v
    subst hn
    rwa [h₁.avail _ (by rw [length_blocks_branch]; omega), branchFlow_new (Nat.le_add_right _ 1)]
  · exact PhiFrom.jump h₁.laid (h₁.phiFrom (by rw [types_branch]; exact hl.knows_lt hk) hp)

theorem Has.of_then {m : Nat} (hn : n = b.func.blocks.length)
    (h₁ : (b.branch flag).Carries b₁ (b.branchFlow w) w₁) (hg₁ : (b.branch flag).Grows b₁)
    (h₂ : (b₁.jump (n + 2) (n + 1)).Carries b₂ (b₁.jumpFlow w₁ (n + 1)) w₂)
    (hg₂ : (b₁.jump (n + 2) (n + 1)).Grows b₂) (ho : b₁.Has w₁ m o) {v : Nat}
    (hv : o = .value v) :
    (∃ c, (b₂.jump (n + 2) (n + 2)).func.blocks[b₁.current]? = some c ∧ c.terminator ≠ none ∧
      c.Leaves (b₂.jumpFlow w₂ (n + 2)) v) ∧ (b₂.jump (n + 2) (n + 2)).PhiFrom m v := by
  obtain ⟨hk, hp⟩ := ho v hv
  constructor
  · obtain ⟨c, hc, ht, hleaves⟩ := Knows.ended h₁.laid hk (n + 2) (n + 1)
    obtain ⟨c', hc', _, _, hsame⟩ := hg₂.func.block _ _ hc
    have he := hsame ht
    subst he
    have hne : b₁.current ≠ b₂.current := current_ne hn hg₁ hg₂
    refine ⟨c', jump_of_ne hne hc', ht, ?_⟩
    have hid : c'.id = b₁.current := h₂.laid.numbered _ _ hc'
    have hlt := (List.getElem?_eq_some_iff.mp hc).1
    have havail := h₂.avail b₁.current hlt
    rcases hleaves with hleaves | hleaves
    · left
      rw [hid] at hleaves ⊢
      change w₂.avail b₁.current v
      rw [havail]
      exact hleaves
    · exact .inr hleaves
  · have hlt := h₁.laid.knows_lt hk
    refine PhiFrom.jump h₂.laid (h₂.phiFrom ?_ (PhiFrom.jump h₁.laid hp))
    rw [types_jump]
    exact hlt

theorem Carries.carries_phi (hl : b.Laid w) (hn : n = b.func.blocks.length)
    (h₁ : (b.branch flag).Carries b₁ (b.branchFlow w) w₁) (hg₁ : (b.branch flag).Grows b₁)
    (h₂ : (b₁.jump (n + 2) (n + 1)).Carries b₂ (b₁.jumpFlow w₁ (n + 1)) w₂)
    (hg₂ : (b₁.jump (n + 2) (n + 1)).Grows b₂) (type : NativeType)
    (ho : b₁.Has w₁ (n + 3) o) (ho' : b₂.Has w₂ (n + 3) o') :
    b.Carries ((b₂.jump (n + 2) (n + 2)).add (.phi type [(o, b₁.current), (o', b₂.current)])) w
        (b₂.jumpFlow w₂ (n + 2)) ∧
      ((b₂.jump (n + 2) (n + 2)).add (.phi type [(o, b₁.current), (o', b₂.current)])).Has
        (b₂.jumpFlow w₂ (n + 2)) (n + 2) (b₂.jump (n + 2) (n + 2)).next := by
  have h₃ := h₁.diamond hl hn hg₁ h₂ hg₂
  have hphi : ((b₂.jump (n + 2) (n + 2)).add
      (.phi type [(o, b₁.current), (o', b₂.current)])).Laid (b₂.jumpFlow w₂ (n + 2)) := by
    refine h₃.laid.add (fun v hv => absurd hv.1 (by simp [Operation.isPhi])) ?_ ?_ ?_
    · intro _
      exact Nat.succ_ne_zero _
    · rintro _ _ hop v p hp
      cases hop
      simp only [List.mem_cons, Prod.mk.injEq, List.not_mem_nil, or_false] at hp
      rcases hp with ⟨hv, rfl⟩ | ⟨hv, rfl⟩
      · exact (Has.of_then hn h₁ hg₁ h₂ hg₂ ho hv.symm).1
      · exact Knows.ended h₂.laid (ho' v hv.symm).1 (n + 2) (n + 2)
    · intro _ v hv
      simp only [Operation.operands, List.map_cons, List.map_nil, List.mem_cons,
        List.not_mem_nil, or_false] at hv
      rcases hv with hv | hv
      · exact (Has.of_then hn h₁ hg₁ h₂ hg₂ ho hv.symm).2
      · exact PhiFrom.jump h₂.laid (ho' v hv.symm).2
  exact ⟨h₃.trans (h₃.laid.carries_add hphi), h₃.laid.has_next fun _ => Nat.le_refl _⟩

end Diamond

end Builder

open Builder

variable {b b' : Builder} {w : Flow} {o o' : Operand} {n : Nat}

theorem Coerced.carries {target : NativeType} (h : Coerced b o target o' b') (hl : b.Laid w)
    (ho : b.Has w n o) : b.Carries b' w w ∧ b'.Has w n o' := by
  cases h with
  | identity => exact ⟨.refl hl, ho⟩
  | cast =>
    refine hl.carries_op _ rfl ?_
    intro o'' ho''
    simp only [Operation.operands, Computation.operands, List.mem_singleton] at ho''
    subst ho''
    exact ho.mono (Nat.zero_le n)

theorem Operated.carries {unsignedCompare : Bool} {op : BinaryOp} {l r : Operand}
    {type : NativeType} (h : Operated unsignedCompare b op l r type o b') (hl : b.Laid w)
    (hleft : b.Has w 0 l) (hright : b.Has w 0 r) : b.Carries b' w w ∧ b'.Has w n o := by
  have hpair : ∀ o ∈ [l, r], b.Has w 0 o := by
    intro o ho
    simp only [List.mem_cons, List.not_mem_nil, or_false] at ho
    rcases ho with rfl | rfl
    · exact hleft
    · exact hright
  cases h with
  | float => exact hl.carries_op _ rfl hpair
  | int => exact hl.carries_op _ rfl hpair
  | floatTest _ _ hb =>
    subst hb
    obtain ⟨h₁, hnext⟩ := hl.carries_op (n := 0) (.compute (.fcmp _ l r)) rfl hpair
    obtain ⟨h₂, ho⟩ := h₁.laid.carries_op (n := n) (.compute (.cast .uitofp b.next .f64)) rfl
      (fun o ho => by
        simp only [Operation.operands, Computation.operands, List.mem_singleton] at ho
        subst ho
        exact hnext)
    exact ⟨h₁.trans h₂, ho⟩
  | intTest _ _ hb =>
    subst hb
    obtain ⟨h₁, hnext⟩ := hl.carries_op (n := 0) (.compute (.icmp _ l r)) rfl hpair
    obtain ⟨h₂, ho⟩ := h₁.laid.carries_op (n := n) (.compute (.cast .zext b.next .i32)) rfl
      (fun o ho => by
        simp only [Operation.operands, Computation.operands, List.mem_singleton] at ho
        subst ho
        exact hnext)
    exact ⟨h₁.trans h₂, ho⟩

def Carried (x : LowerScope) (b b' : Builder) (os : List Operand) : Prop :=
  ∀ w, b.Laid w → (∀ name o, x.names.get? name = some o → ∀ n, b.Has w n o) →
    ∃ w', b.Carries b' w w' ∧ ∀ o ∈ os, b'.Has w' b.func.blocks.length o

section Carried

variable {x : LowerScope} {condition whenTrue whenFalse : Expr}
  {c c' l r r' thenValue elseValue elseValue' : Operand} {b₁ b₂ b₃ b₄ b₅ b₆ : Builder}

theorem carried_of_has (h : ∀ w, (∀ name o, x.names.get? name = some o → ∀ n, b.Has w n o) →
    ∀ n, b.Has w n o) : Carried x b b [o] := by
  intro w hl hnames
  refine ⟨w, .refl hl, ?_⟩
  intro o' ho'
  rw [List.mem_singleton.mp ho']
  exact h w hnames _

theorem carried_binary {op : BinaryOp} (hl : Carried x b b₁ [l]) (hr : Carried x b₁ b₂ [r])
    (hc : Coerced b₂ r (b₂.typeOf l) r' b₃)
    (ho : Operated x.unsignedCompare b₃ op l r' (b₂.typeOf l) o b₄) : Carried x b b₄ [o] := by
  intro w hlaid hnames
  obtain ⟨w₁, h₁, hleft⟩ := hl w hlaid hnames
  have hleft := hleft _ List.mem_cons_self
  obtain ⟨w₂, h₂, hright⟩ := hr w₁ h₁.laid fun name o ho n => h₁.has hlaid (hnames name o ho n)
  obtain ⟨h₃, hright⟩ := hc.carries h₂.laid (hright _ List.mem_cons_self)
  have hleft := h₃.has h₂.laid (h₂.has h₁.laid hleft)
  obtain ⟨h₄, hresult⟩ := ho.carries (n := b.func.blocks.length) h₃.laid
    (hleft.mono (Nat.zero_le _)) (hright.mono (Nat.zero_le _))
  refine ⟨w₂, h₁.trans (h₂.trans (h₃.trans h₄)), ?_⟩
  intro o ho
  rw [List.mem_singleton.mp ho]
  exact hresult

theorem carried_call {os : List Operand} (h : Carried x b b' os) (callee : String)
    (returns : NativeType) : Carried x b (b'.add (.call callee os returns)) [b'.next] := by
  intro w hl hnames
  obtain ⟨w₁, h₁, hargs⟩ := h w hl hnames
  obtain ⟨h₂, hresult⟩ := h₁.laid.carries_op (.call callee os returns) rfl
    fun o ho => (hargs o ho).mono (Nat.zero_le _)
  refine ⟨w₁, h₁.trans h₂, ?_⟩
  intro o ho
  rw [List.mem_singleton.mp ho]
  exact hresult

theorem carried_flag (hcond : Carried x b b₁ [c]) (hc : Coerced b₁ c .f64 c' b₂) {w : Flow}
    (hl : b.Laid w) (hnames : ∀ name o, x.names.get? name = some o → ∀ n, b.Has w n o) :
    ∃ w', b.Carries (b₂.add (.compute (.fcmp .one c' (.const (.f64 0.0))))) w w' ∧
      (b₂.add (.compute (.fcmp .one c' (.const (.f64 0.0))))).Has w' 0 b₂.next := by
  obtain ⟨w₁, h₁, hvalue⟩ := hcond w hl hnames
  obtain ⟨h₂, hvalue⟩ := hc.carries h₁.laid (hvalue _ List.mem_cons_self)
  obtain ⟨h₃, hflag⟩ := h₂.laid.carries_op (n := 0)
    (.compute (.fcmp .one c' (.const (.f64 0.0)))) rfl (by
      intro o ho
      simp only [Operation.operands, Computation.operands, List.mem_cons, List.not_mem_nil,
        or_false] at ho
      rcases ho with rfl | rfl
      · exact hvalue.mono (Nat.zero_le _)
      · exact has_const _)
  exact ⟨w₁, (h₁.trans h₂).trans h₃, hflag⟩

theorem carried_cond (hcond : Carried x b b₁ [c]) (hc : Coerced b₁ c .f64 c' b₂)
    (hb₃ : b₃ = b₂.add (.compute (.fcmp .one c' (.const (.f64 0.0)))))
    (hn : n = b₃.func.blocks.length) (hg₄ : (b₃.branch b₂.next).Grows b₄)
    (hthen : Carried x (b₃.branch b₂.next) b₄ [thenValue])
    (hg₅ : (b₄.jump (n + 2) (n + 1)).Grows b₅)
    (helse : Carried x (b₄.jump (n + 2) (n + 1)) b₅ [elseValue]) {type : NativeType}
    (he : Coerced b₅ elseValue type elseValue' b₆) :
    Carried x b ((b₆.jump (n + 2) (n + 2)).add (.phi type
      [(thenValue, b₄.current), (elseValue', b₆.current)])) [(b₆.jump (n + 2) (n + 2)).next] := by
  intro w hl hnames
  have hg₆ := hg₅.trans (he.grows hg₅.isOpen.choose_spec)
  obtain ⟨w₃, h₃, hflag⟩ := carried_flag hcond hc hl hnames
  rw [← hb₃] at h₃ hflag
  have hnames₃ := fun name o ho m => h₃.has hl (hnames name o ho m)
  have hbranch := h₃.laid.branch fun v hv => (hflag v hv).1
  obtain ⟨w₄, h₄, hthenHas⟩ := hthen _ hbranch fun name o ho m =>
    Has.branch h₃.laid (hnames₃ name o ho m)
  obtain ⟨w₅, h₅, helseHas⟩ := helse _ (h₄.else_laid h₃.laid hn hg₄) fun name o ho m =>
    Has.of_else h₃.laid hn h₄ hg₄ (hnames₃ name o ho m)
  obtain ⟨h₆, helseHas⟩ := he.carries h₅.laid (helseHas _ List.mem_cons_self)
  have hthenHas := hthenHas _ List.mem_cons_self
  rw [length_blocks_branch, ← hn] at hthenHas
  have hlong : n + 3 ≤ (b₄.jump (n + 2) (n + 1)).func.blocks.length := by
    have hl₄ := hg₄.length
    rw [length_blocks_branch] at hl₄
    rw [length_blocks_jump]
    omega
  obtain ⟨h₇, hresult⟩ := h₄.carries_phi h₃.laid hn hg₄ (h₅.trans h₆) hg₆ type hthenHas
    (helseHas.mono hlong)
  refine ⟨_, h₃.trans h₇, ?_⟩
  intro o ho
  rw [List.mem_singleton.mp ho]
  refine hresult.mono ?_
  have hle := h₃.length
  omega

theorem carried_cons {os : List Operand} {type : NativeType} (ho : Carried x b b₁ [o])
    (hc : Coerced b₁ o type o' b₂) (hos : Carried x b₂ b₃ os) : Carried x b b₃ (o' :: os) := by
  intro w hl hnames
  obtain ⟨w₁, h₁, ho⟩ := ho w hl hnames
  obtain ⟨h₂, ho'⟩ := hc.carries h₁.laid (ho _ List.mem_cons_self)
  have h₁₂ := h₁.trans h₂
  obtain ⟨w₃, h₃, hos⟩ := hos _ h₂.laid fun name o ho n => h₁₂.has hl (hnames name o ho n)
  refine ⟨w₃, h₁₂.trans h₃, ?_⟩
  intro o ho
  rcases List.mem_cons.mp ho with rfl | ho
  · exact h₃.has h₂.laid ho'
  · exact (hos o ho).mono h₁₂.length

theorem Lowered.carried {task : LowerTask} {os : List Operand} (h : Lowered x task b os b')
    {block : Block} (hb : b.Open block) : Carried x b b' os := by
  induction h generalizing block with
  | int => exact carried_of_has fun _ _ _ => has_const _
  | float => exact carried_of_has fun _ _ _ => has_const _
  | var hname => exact carried_of_has fun _ hnames n => hnames _ _ hname n
  | binary hl _ hc ho ihl ihr =>
    exact carried_binary (ihl hb) (ihr (hl.grows hb).isOpen.choose_spec) hc ho
  | call _ _ _ ih => exact carried_call (ih hb) _ _
  | cond hcond hc hb₃ hn hthen _ helse he ihc iht ihe =>
    have hg₁ := hcond.grows hb
    have hg₂ := hc.grows hg₁.isOpen.choose_spec
    obtain ⟨_, hopen₃⟩ := (hg₂.isOpen.choose_spec.grows_of_eq hb₃).isOpen
    obtain ⟨_, hthenOpen⟩ := open_branch hopen₃.current_lt _
    have hg₄ := hthen.grows hthenOpen
    obtain ⟨_, helseOpen⟩ := open_else hopen₃.current_lt hn hg₄
    exact carried_cond (ihc hb) hc hb₃ hn hg₄ (iht hthenOpen) (helse.grows helseOpen)
      (ihe helseOpen) he
  | nil => exact fun w hl _ => ⟨w, .refl hl, fun o ho => (by cases ho)⟩
  | cons he hc _ ihe ihes =>
    have hg := (he.grows hb).trans (hc.grows (he.grows hb).isOpen.choose_spec)
    exact carried_cons (ihe hb) hc (ihes hg.isOpen.choose_spec)

theorem Lowered.carries {task : LowerTask} {os : List Operand} (h : Lowered x task b os b')
    {w : Flow} (hl : b.Laid w)
    (hnames : ∀ name o, x.names.get? name = some o → ∀ n, b.Has w n o) :
    ∃ w', b.Carries b' w w' ∧ ∀ o ∈ os, b'.Has w' b.func.blocks.length o := by
  obtain ⟨_, hopen⟩ := hl.isOpen
  exact h.carried hopen w hl hnames

end Carried

namespace Builder

variable {b : Builder} {w : Flow} {block : Block} {value : Option Operand}

theorem ret_cases (hn : b.func.Numbered) (h : b.Open block) {c : Block}
    (hc : c ∈ (b.terminate (.ret value)).func.blocks) :
    ∃ d, b.func.blocks[c.id]? = some d ∧ d.id = c.id ∧ d.instructions = c.instructions ∧
      d.successors = c.successors ∧
      (d = c ∨ c.id = b.current ∧ c.terminator = some (.ret value)) := by
  obtain ⟨i, hi⟩ := List.mem_iff_getElem?.mp hc
  rcases terminate_cases h hi with ⟨_, hi⟩ | ⟨rfl, rfl⟩
  · have hid := hn i c hi
    subst hid
    exact ⟨c, hi, rfl, rfl, rfl, .inl rfl⟩
  · have hid : block.id = b.current := hn _ _ h.1
    refine ⟨block, ?_, rfl, rfl, ?_, .inr ⟨hid, rfl⟩⟩
    · simpa only [hid] using h.1
    · simp [Block.successors, h.2, Terminator.successors]

theorem exists_ret (value : Option Operand) (hn : b.func.Numbered) (h : b.Open block) {i : Nat}
    {d : Block} (hd : b.func.blocks[i]? = some d) :
    ∃ c ∈ (b.terminate (.ret value)).func.blocks, c.id = i ∧ c.instructions = d.instructions := by
  have hid := hn i d hd
  by_cases hi : b.current = i
  · subst hi
    rw [h.1] at hd
    cases hd
    refine ⟨{ block with terminator := some (.ret value) }, ?_, hid, rfl⟩
    refine List.mem_iff_getElem?.mpr ⟨b.current, ?_⟩
    simp [getElem?_terminate, h.1, h.2]
  · refine ⟨d, List.mem_iff_getElem?.mpr ⟨i, ?_⟩, hid, rfl⟩
    simp [getElem?_terminate, hi, hd]

theorem leaves_of_same {c d : Block} (hid : d.id = c.id) (hi : d.instructions = c.instructions)
    {v : Nat} (hd : d.Leaves w v) : c.Leaves w v := by
  simpa only [Block.Leaves, Block.dsts, hid, hi] using hd

namespace Laid

variable {u : CodeUnit}

theorem visited_ret (h : b.Laid w) (hv : (b.terminate (.ret value)).func.verify u = .ok ())
    {c : Block} (hc : c ∈ (b.terminate (.ret value)).func.blocks) : b.Visited c.id := by
  obtain ⟨block, hopen⟩ := h.isOpen
  obtain ⟨d, hd, _, _, _, rfl | ⟨hid, _⟩⟩ := ret_cases h.numbered hopen hc
  · refine .inr ⟨d, hd, ?_⟩
    have he := ((Func.verify_eq_ok.mp hv).2 d hc).ended
    intro hnone
    rw [hnone] at he
    cases he
  · exact .inl hid

theorem shaped_ret (h : b.Laid w) (hv : (b.terminate (.ret value)).func.verify u = .ok ()) :
    (b.terminate (.ret value)).func.Shaped := by
  obtain ⟨block, hopen⟩ := h.isOpen
  have hn := h.numbered
  obtain ⟨_, hverified⟩ := Func.verify_eq_ok.mp hv
  have hnum : (b.terminate (.ret value)).func.Numbered := Numbered.of_modify hn fun _ => rfl
  refine {
    ids := hnum.ids
    entry := ?_
    ended := fun c hc => (hverified c hc).ended
    targets := fun c hc => (hverified c hc).targets
    branches := ?_
    dsts := ?_
    disjoint := ?_ }
  · rw [Func.entry?, List.head?_eq_getElem?]
    have hlt : 0 < b.func.blocks.length := Nat.lt_of_le_of_lt (Nat.zero_le _) hopen.current_lt
    obtain ⟨c, hc, hid, _⟩ := exists_ret value hn hopen (List.getElem?_eq_getElem hlt)
    obtain ⟨i, hi⟩ := List.mem_iff_getElem?.mp hc
    have hzero := hnum i c hi
    rw [hid] at hzero
    subst hzero
    rw [hi, Option.map_some, hid]
  · intro c hc
    obtain ⟨d, hd, _, hi, _⟩ := ret_cases hn hopen hc
    rw [Block.dsts, ← hi]
    exact h.dsts _ _ hd
  · intro c hc c' hc' v hv hv'
    obtain ⟨d, hd, _, hi, _⟩ := ret_cases hn hopen hc
    obtain ⟨d', hd', _, hi', _⟩ := ret_cases hn hopen hc'
    rw [Block.dsts, ← hi] at hv
    rw [Block.dsts, ← hi'] at hv'
    exact h.disjoint _ _ d d' hd hd' v hv hv'
  · intro c hc
    obtain ⟨d, hd, _, _, hs, _⟩ := ret_cases hn hopen hc
    rw [← hs]
    exact h.branches _ _ hd

theorem typed_ret (h : b.Laid w) (hv : (b.terminate (.ret value)).func.verify u = .ok ()) :
    (b.terminate (.ret value)).func.Typed := by
  obtain ⟨block, hopen⟩ := h.isOpen
  obtain ⟨_, hverified⟩ := Func.verify_eq_ok.mp hv
  refine ⟨?_, fun c hc i hi => ((hverified c hc).instructions i hi).1,
    fun c hc t ht => ((hverified c hc).terminator t ht).1⟩
  intro c hc i hi
  obtain ⟨d, hd, _, he, _⟩ := ret_cases h.numbered hopen hc
  exact h.types _ d hd i (he ▸ hi)

theorem flows_ret (h : b.Laid w) (hvalue : ∀ o, value = some o → b.Has w 0 o)
    (hv : (b.terminate (.ret value)).func.verify u = .ok ()) :
    (b.terminate (.ret value)).func.Flows w := by
  obtain ⟨block, hopen⟩ := h.isOpen
  have hn := h.numbered
  refine ⟨h.entry, ?_, ?_, ?_, ?_, ?_⟩
  · intro c hc v hv
    obtain ⟨d, hd, _⟩ := ret_cases hn hopen hc
    obtain ⟨j, e, he, hv⟩ := h.defined c.id (List.getElem?_eq_some_iff.mp hd).1 v hv
    obtain ⟨c', hc', _, hi⟩ := exists_ret value hn hopen he
    exact ⟨c', hc', by rw [Block.dsts, hi]; exact hv⟩
  · intro c hc
    obtain ⟨d, hd, _, hi, _⟩ := ret_cases hn hopen hc
    rw [← hi]
    exact h.scope _ d hd
  · intro c hc t ht v hv
    obtain ⟨d, hd, hid, hi, _, rfl | ⟨hcur, hret⟩⟩ := ret_cases hn hopen hc
    · exact h.exits _ d hd t ht v hv
    · rw [hret] at ht
      cases ht
      obtain ⟨o, ho, he⟩ : ∃ o, value = some o ∧ o = .value v := by
        cases value with
        | none => simp [Terminator.operands] at hv
        | some o => exact ⟨o, rfl, (List.mem_singleton.mp hv).symm⟩
      obtain ⟨d', hd', hl⟩ := (hvalue o ho v he).1
      rw [← hcur, hd] at hd'
      cases hd'
      exact leaves_of_same hid hi hl
  · intro c hc s hs v hv
    obtain ⟨d, hd, hid, hi, hsucc, _⟩ := ret_cases hn hopen hc
    exact leaves_of_same hid hi (h.edges _ d hd s (hsucc ▸ hs) v hv)
  · intro c hc s hs
    obtain ⟨d, hd, hid, hi, hsucc, _⟩ := ret_cases hn hopen hc
    obtain ⟨c', hc', rfl⟩ := ((Func.verify_eq_ok.mp hv).2 c hc).targets s hs
    exact h.rank _ d hd _ (hsucc ▸ hs) (h.visited_ret hv hc')

theorem phis_ret (h : b.Laid w) (hv : (b.terminate (.ret value)).func.verify u = .ok ()) :
    (b.terminate (.ret value)).func.Phis w := by
  obtain ⟨block, hopen⟩ := h.isOpen
  have hn := h.numbered
  obtain ⟨_, hverified⟩ := Func.verify_eq_ok.mp hv
  refine ⟨fun c hc i hi => ((hverified c hc).instructions i hi).2.2.2, ?_, ?_, ?_⟩
  · intro c hc hzero i hi
    obtain ⟨d, hd, _, he, _⟩ := ret_cases hn hopen hc
    cases hphi : i.op.isPhi with
    | false => rfl
    | true =>
      have hle := h.phiEntry i.dst _ d hd i (he ▸ hi) rfl hphi
      omega
  · rintro c hc i hi type incoming hop v p hp c' hc' rfl
    obtain ⟨d, hd, _, he, _⟩ := ret_cases hn hopen hc
    obtain ⟨d', hd', _, hl⟩ := h.phiAvail _ d hd i (he ▸ hi) type incoming hop v _ hp
    obtain ⟨e, he', hid, hi', _⟩ := ret_cases hn hopen hc'
    rw [he'] at hd'
    cases hd'
    exact leaves_of_same hid hi' hl
  · intro c hc i hi hphi v hv c' hc' j hj hphi' hdst
    obtain ⟨d, hd, _, he, _⟩ := ret_cases hn hopen hc
    obtain ⟨d', hd', _, he', _⟩ := ret_cases hn hopen hc'
    exact h.phiOrder _ d hd i (he ▸ hi) hphi v hv _ d' hd' j (he' ▸ hj) hdst hphi'

theorem sound (h : b.Laid w) (hvalue : ∀ o, value = some o → b.Has w 0 o)
    (hv : (b.terminate (.ret value)).func.verify u = .ok ()) :
    (b.terminate (.ret value)).func.Sound w :=
  ⟨h.shaped_ret hv, h.typed_ret hv, h.flows_ret hvalue hv, h.phis_ret hv⟩

end Laid

end Builder

theorem LoweredBody.sound {known : String → Option Signature} {unsignedCompare : Bool}
    {returns : NativeType} {names : Table Operand} {body : List Stmt} {result : Option Expr}
    {b b' : Builder} (h : LoweredBody known unsignedCompare returns names body result b b')
    {w : Flow} (hl : b.Laid w) (hnames : ∀ name o, names.get? name = some o → ∀ n, b.Has w n o)
    {u : CodeUnit} (hv : b'.func.verify u = .ok ()) : ∃ w', b'.func.Sound w' := by
  have hinsert : ∀ {names : Table Operand} {name : String} {o : Operand} {b : Builder} {w : Flow},
      (∀ n, b.Has w n o) → (∀ name o, names.get? name = some o → ∀ n, b.Has w n o) →
      ∀ name' o', (names.insert name o).get? name' = some o' → ∀ n, b.Has w n o' := by
    intro names name o b w ho hnames name' o' ho' n
    rw [Table.get?_insert] at ho'
    split at ho'
    · cases ho'
      exact ho n
    · exact hnames name' o' ho' n
  induction h generalizing w with
  | result he hc =>
    obtain ⟨w₁, h₁, ho⟩ := he.carries hl hnames
    obtain ⟨h₂, ho'⟩ := hc.carries h₁.laid (ho _ List.mem_cons_self)
    refine ⟨w₁, h₂.laid.sound ?_ hv⟩
    intro o heq
    cases heq
    exact ho'.mono (Nat.zero_le _)
  | nothing =>
    refine ⟨w, hl.sound ?_ hv⟩
    intro o heq
    obtain ⟨c, _, rfl⟩ := Option.map_eq_some_iff.mp heq
    exact has_const c
  | expression he _ ih =>
    obtain ⟨w₁, h₁, _⟩ := he.carries hl hnames
    exact ih h₁.laid (fun name o ho n => h₁.has hl (hnames name o ho n)) hv
  | variableAs hc _ ih =>
    obtain ⟨h₁, _⟩ := hc.carries hl (has_const (n := 0) _)
    refine ih h₁.laid (hinsert ?_ fun name o ho n => h₁.has hl (hnames name o ho n)) hv
    intro n
    exact (hc.carries hl (has_const _)).2
  | variableOf _ _ ih => exact ih hl (hinsert (fun _ => has_const _) hnames) hv

end FormCompiler
