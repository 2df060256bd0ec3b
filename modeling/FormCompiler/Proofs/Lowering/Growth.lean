import FormCompiler.Proofs.Lowering.Derivation

namespace FormCompiler

namespace Func

def Numbered (f : Func) : Prop := ∀ (i : Nat) (b : Block), f.blocks[i]? = some b → b.id = i

theorem Numbered.ids {f : Func} (h : f.Numbered) : f.blocks.Pairwise fun b c => b.id < c.id := by
  rw [List.pairwise_iff_getElem]
  intro i j hi hj hij
  rw [h i _ (List.getElem?_eq_getElem hi), h j _ (List.getElem?_eq_getElem hj)]
  exact hij

theorem Numbered.block? {f : Func} (h : f.Numbered) (id : Nat) : f.block? id = f.blocks[id]? := by
  have hsearch : ∀ (bs : List Block) (n : Nat), (∀ i b, bs[i]? = some b → b.id = n + i) →
      bs.find? (·.id == n + id) = bs[id]? := by
    intro bs
    induction bs generalizing id with
    | nil => intro n _; rfl
    | cons b bs ih =>
      intro n hn
      have hb : b.id = n := hn 0 b rfl
      have hbs : ∀ i c, bs[i]? = some c → c.id = (n + 1) + i := by
        intro i c hc
        rw [hn (i + 1) c hc]
        omega
      cases id with
      | zero => simp [hb]
      | succ id =>
        rw [List.find?_cons_of_neg (by simp only [hb, beq_iff_eq]; omega)]
        rw [List.getElem?_cons_succ, ← ih id (n + 1) hbs]
        congr 1
        funext c
        congr 1
        omega
  have hfind := hsearch f.blocks 0 (fun i b hb => by rw [Nat.zero_add]; exact h i b hb)
  rw [Nat.zero_add] at hfind
  exact hfind

structure Extends (f g : Func) : Prop where
  signature : g.signature = f.signature
  types : f.types <+: g.types
  block : ∀ (i : Nat) (b : Block), f.blocks[i]? = some b →
    ∃ c : Block, g.blocks[i]? = some c ∧ c.id = b.id ∧
    b.instructions <+: c.instructions ∧ (b.terminator ≠ none → c = b)

variable {f g h : Func}

theorem Extends.refl : f.Extends f :=
  ⟨rfl, List.prefix_rfl, fun _ b hb => ⟨b, hb, rfl, List.prefix_rfl, fun _ => rfl⟩⟩

theorem Extends.trans (hf : f.Extends g) (hg : g.Extends h) : f.Extends h := by
  refine ⟨hg.signature.trans hf.signature, hf.types.trans hg.types, ?_⟩
  intro i b hb
  obtain ⟨c, hc, hid, hpre, hsame⟩ := hf.block i b hb
  obtain ⟨d, hd, hid', hpre', hsame'⟩ := hg.block i c hc
  refine ⟨d, hd, hid'.trans hid, hpre.trans hpre', ?_⟩
  intro ht
  have he := hsame ht
  subst he
  exact hsame' ht

theorem Extends.operandType? (hf : f.Extends g) {o : Operand} {type : NativeType}
    (ho : f.operandType? o = some type) : g.operandType? o = some type := by
  cases o with
  | const c => exact ho
  | param index => simpa only [Func.operandType?, hf.signature] using ho
  | value id =>
    obtain ⟨rest, hrest⟩ := hf.types
    simp only [Func.operandType?, ← hrest] at ho ⊢
    obtain ⟨hid, _⟩ := List.getElem?_eq_some_iff.mp ho
    rw [List.getElem?_append_left hid]
    exact ho

end Func

namespace Builder

def Open (b : Builder) (block : Block) : Prop :=
  b.func.blocks[b.current]? = some block ∧ block.terminator = none

variable {b b' b'' : Builder} {block : Block}

theorem getElem?_add (b : Builder) (op : Operation) (i : Nat) :
    (b.add op).func.blocks[i]? = (fun c : Block => if b.current = i then
      { c with instructions := c.instructions ++ [⟨b.func.types.length, op⟩] } else c) <$>
        b.func.blocks[i]? :=
  List.getElem?_modify _ _ _ _

theorem getElem?_terminate (b : Builder) (t : Terminator) (i : Nat) :
    (b.terminate t).func.blocks[i]? = (fun c : Block => if b.current = i then
      { c with terminator := c.terminator.or (some t) } else c) <$> b.func.blocks[i]? :=
  List.getElem?_modify _ _ _ _

@[simp] theorem types_add (b : Builder) (op : Operation) :
    (b.add op).func.types = b.func.types ++ [op.type] := rfl

@[simp] theorem types_terminate (b : Builder) (t : Terminator) :
    (b.terminate t).func.types = b.func.types := rfl

@[simp] theorem types_branch (b : Builder) (flag : Operand) :
    (b.branch flag).func.types = b.func.types := rfl

@[simp] theorem types_jump (b : Builder) (join id : Nat) :
    (b.jump join id).func.types = b.func.types := rfl

@[simp] theorem length_blocks_add (b : Builder) (op : Operation) :
    (b.add op).func.blocks.length = b.func.blocks.length :=
  List.length_modify _ _ _

@[simp] theorem length_blocks_terminate (b : Builder) (t : Terminator) :
    (b.terminate t).func.blocks.length = b.func.blocks.length :=
  List.length_modify _ _ _

@[simp] theorem length_blocks_jump (b : Builder) (join id : Nat) :
    (b.jump join id).func.blocks.length = b.func.blocks.length :=
  List.length_modify _ _ _

@[simp] theorem length_blocks_branch (b : Builder) (flag : Operand) :
    (b.branch flag).func.blocks.length = b.func.blocks.length + 3 := by
  simp [branch, moveTo, appendBlock]

theorem getElem?_branch_of_lt (b : Builder) (flag : Operand) {i : Nat}
    (hi : i < b.func.blocks.length) :
    (b.branch flag).func.blocks[i]? = (b.terminate (.condBr flag b.func.blocks.length
      (b.func.blocks.length + 1))).func.blocks[i]? := by
  rw [getElem?_terminate]
  simp only [branch, moveTo]
  rw [getElem?_terminate]
  simp only [appendBlock]
  rw [List.getElem?_append_left (by simp; omega), List.getElem?_append_left (by simp; omega),
    List.getElem?_append_left hi]
  rfl

theorem getElem?_branch_new (b : Builder) (flag : Operand) (hb : b.current < b.func.blocks.length)
    (k : Nat) (hk : k < 3) :
    ∃ label, (b.branch flag).func.blocks[b.func.blocks.length + k]? =
      some { id := b.func.blocks.length + k, label } := by
  have hne : b.current ≠ b.func.blocks.length + k := by omega
  simp only [branch, moveTo]
  rw [getElem?_terminate]
  simp only [appendBlock, hne, if_false, id_map']
  obtain rfl | rfl | rfl : k = 0 ∨ k = 1 ∨ k = 2 := by omega
  · exact ⟨_, by simp; rfl⟩
  · exact ⟨_, by simp; rfl⟩
  · exact ⟨_, by simp; rfl⟩

theorem Open.current_lt (h : b.Open block) : b.current < b.func.blocks.length :=
  (List.getElem?_eq_some_iff.mp h.1).1

theorem Open.add (h : b.Open block) (op : Operation) :
    (b.add op).Open { block with
      instructions := block.instructions ++ [⟨b.func.types.length, op⟩] } := by
  refine ⟨?_, h.2⟩
  rw [getElem?_add]
  change (fun c : Block => if b.current = b.current then _ else c) <$>
    b.func.blocks[b.current]? = _
  rw [h.1]
  simp

structure Grows (b b' : Builder) : Prop where
  func : b.func.Extends b'.func
  numbered : b.func.Numbered → b'.func.Numbered
  others : ∀ i, i ≠ b.current → i < b.func.blocks.length →
    b'.func.blocks[i]? = b.func.blocks[i]?
  current : b'.current = b.current ∨ b.func.blocks.length ≤ b'.current
  length : b.func.blocks.length ≤ b'.func.blocks.length
  isOpen : ∃ block, b'.Open block

theorem Grows.refl (h : b.Open block) : b.Grows b :=
  ⟨.refl, fun hn => hn, fun _ _ _ => rfl, .inl rfl, Nat.le_refl _, block, h⟩

theorem Grows.trans (h : b.Grows b') (h' : b'.Grows b'') : b.Grows b'' := by
  refine ⟨h.func.trans h'.func, fun hn => h'.numbered (h.numbered hn), ?_, ?_,
    Nat.le_trans h.length h'.length, h'.isOpen⟩
  · intro i hi hlt
    rw [h'.others i ?_ (Nat.lt_of_lt_of_le hlt h.length), h.others i hi hlt]
    intro he
    rcases h.current with hc | hc
    · exact hi (he.trans hc)
    · omega
  · rcases h'.current with hc' | hc'
    · rw [hc']
      exact h.current
    · exact .inr (Nat.le_trans h.length hc')

theorem Extends.of_modify {f : Func} {k : Nat} {change : Block → Block} {types : List NativeType}
    (h : f.blocks[k]? = some block) (hopen : block.terminator = none)
    (hid : (change block).id = block.id)
    (hpre : block.instructions <+: (change block).instructions) (htypes : f.types <+: types) :
    f.Extends { f with blocks := f.blocks.modify k change, types } := by
  refine ⟨rfl, htypes, ?_⟩
  intro i c hc
  rw [List.getElem?_modify, hc]
  by_cases he : k = i
  · subst he
    obtain rfl : block = c := Option.some.inj (h.symm.trans hc)
    refine ⟨change block, by simp, hid, hpre, ?_⟩
    intro hne
    exact absurd hopen hne
  · exact ⟨c, by simp [he], rfl, List.prefix_rfl, fun _ => rfl⟩

theorem Numbered.of_modify {f : Func} {k : Nat} {change : Block → Block}
    {types : List NativeType} (hf : f.Numbered) (hid : ∀ c : Block, (change c).id = c.id) :
    ({ f with blocks := f.blocks.modify k change, types } : Func).Numbered := by
  intro i c hc
  rw [List.getElem?_modify] at hc
  obtain ⟨d, hd, rfl⟩ := Option.map_eq_some_iff.mp hc
  have := hf i d hd
  split
  · rw [hid, this]
  · exact this

theorem Open.grows_add (h : b.Open block) (op : Operation) : b.Grows (b.add op) := by
  refine ⟨?_, ?_, ?_, .inl rfl, ?_, _, h.add op⟩
  · exact Extends.of_modify h.1 h.2 rfl (List.prefix_append _ _) (List.prefix_append _ _)
  · intro hn
    exact Numbered.of_modify hn (fun _ => rfl)
  · intro i hi _
    rw [getElem?_add]
    simp [Ne.symm hi]
  · exact Nat.le_of_eq (length_blocks_add b op).symm

theorem Open.grows_of_eq (h : b.Open block) {op : Operation} (he : b' = b.add op) :
    b.Grows b' := by
  subst he
  exact h.grows_add op

theorem Open.extends_terminate (h : b.Open block) (t : Terminator) :
    b.func.Extends (b.terminate t).func :=
  Extends.of_modify h.1 h.2 rfl List.prefix_rfl List.prefix_rfl

theorem extends_branch (h : b.Open block) (flag : Operand) :
    b.func.Extends (b.branch flag).func := by
  refine ⟨rfl, List.prefix_rfl, ?_⟩
  intro i c hc
  have hi := (List.getElem?_eq_some_iff.mp hc).1
  rw [getElem?_branch_of_lt b flag hi]
  exact (h.extends_terminate _).block i c hc

theorem numbered_branch (hn : b.func.Numbered) (hb : b.current < b.func.blocks.length)
    (flag : Operand) : (b.branch flag).func.Numbered := by
  intro i c hc
  by_cases hi : i < b.func.blocks.length
  · rw [getElem?_branch_of_lt b flag hi, getElem?_terminate] at hc
    obtain ⟨d, hd, rfl⟩ := Option.map_eq_some_iff.mp hc
    have hid := hn i d hd
    split <;> exact hid
  · have hlt := (List.getElem?_eq_some_iff.mp hc).1
    rw [length_blocks_branch] at hlt
    obtain ⟨k, rfl⟩ : ∃ k, i = b.func.blocks.length + k := ⟨i - b.func.blocks.length, by omega⟩
    obtain ⟨label, hnew⟩ := getElem?_branch_new b flag hb k (by omega)
    rw [hnew] at hc
    cases hc
    rfl

theorem open_branch (hb : b.current < b.func.blocks.length) (flag : Operand) :
    ∃ label, (b.branch flag).Open { id := b.func.blocks.length, label } := by
  obtain ⟨label, h⟩ := getElem?_branch_new b flag hb 0 (by omega)
  exact ⟨label, h, rfl⟩

theorem open_jump {join id : Nat} (h : b.func.blocks[id]? = some block)
    (hopen : block.terminator = none) (hne : b.current ≠ id) : (b.jump join id).Open block := by
  refine ⟨?_, hopen⟩
  change (b.terminate (.br join)).func.blocks[id]? = _
  rw [getElem?_terminate, h]
  simp [hne]

section Diamond

variable {b₁ b₂ : Builder} {flag : Operand} {n : Nat}

theorem pending_branch (hb : b.current < b.func.blocks.length) (hn : n = b.func.blocks.length)
    (h : (b.branch flag).Grows b₁) {k : Nat} (hk : k = 1 ∨ k = 2) :
    (∃ label, b₁.func.blocks[n + k]? = some { id := n + k, label }) ∧ b₁.current ≠ n + k := by
  subst hn
  obtain ⟨label, hnew⟩ := getElem?_branch_new b flag hb k (by omega)
  have hcurrent : (b.branch flag).current = b.func.blocks.length := rfl
  have hc := h.current
  rw [hcurrent, length_blocks_branch] at hc
  refine ⟨⟨label, ?_⟩, by omega⟩
  rw [h.others _ (by rw [hcurrent]; omega) (by rw [length_blocks_branch]; omega), hnew]

theorem open_else (hb : b.current < b.func.blocks.length) (hn : n = b.func.blocks.length)
    (h : (b.branch flag).Grows b₁) :
    ∃ label, (b₁.jump (n + 2) (n + 1)).Open { id := n + 1, label } := by
  obtain ⟨⟨label, hnew⟩, hne⟩ := pending_branch hb hn h (.inl rfl)
  exact ⟨label, open_jump hnew rfl hne⟩

theorem pending_join (hb : b.current < b.func.blocks.length) (hn : n = b.func.blocks.length)
    (h₁ : (b.branch flag).Grows b₁) (h₂ : (b₁.jump (n + 2) (n + 1)).Grows b₂) :
    (∃ label, b₂.func.blocks[n + 2]? = some { id := n + 2, label }) ∧ b₂.current ≠ n + 2 := by
  obtain ⟨⟨label, hnew⟩, hne⟩ := pending_branch hb hn h₁ (.inr rfl)
  have hl₁ := h₁.length
  rw [length_blocks_branch] at hl₁
  have hc₂ : b₂.current = n + 1 ∨ _ := h₂.current
  rw [length_blocks_jump] at hc₂
  refine ⟨⟨label, ?_⟩, by omega⟩
  rw [h₂.others _ (by change _ ≠ n + 1; omega) (by rw [length_blocks_jump]; omega)]
  change (b₁.terminate _).func.blocks[_]? = _
  rw [getElem?_terminate, hnew]
  simp [hne]

theorem open_join (hb : b.current < b.func.blocks.length) (hn : n = b.func.blocks.length)
    (h₁ : (b.branch flag).Grows b₁) (h₂ : (b₁.jump (n + 2) (n + 1)).Grows b₂) :
    ∃ label, (b₂.jump (n + 2) (n + 2)).Open { id := n + 2, label } := by
  obtain ⟨⟨label, hnew⟩, hne⟩ := pending_join hb hn h₁ h₂
  exact ⟨label, open_jump hnew rfl hne⟩

theorem current_ne (hn : n = b.func.blocks.length) (h₁ : (b.branch flag).Grows b₁)
    (h₂ : (b₁.jump (n + 2) (n + 1)).Grows b₂) : b₁.current ≠ b₂.current := by
  subst hn
  have hlt := h₁.isOpen.choose_spec.current_lt
  have hc₁ : b₁.current = b.func.blocks.length ∨ _ := h₁.current
  have hc₂ : b₂.current = b.func.blocks.length + 1 ∨ _ := h₂.current
  rw [length_blocks_branch] at hc₁
  rw [length_blocks_jump] at hc₂
  omega

theorem grows_diamond (hb : b.Open block) (hn : n = b.func.blocks.length)
    (h₁ : (b.branch flag).Grows b₁) (h₂ : (b₁.jump (n + 2) (n + 1)).Grows b₂) :
    b.Grows (b₂.jump (n + 2) (n + 2)) := by
  obtain ⟨_, ho₁⟩ := h₁.isOpen
  obtain ⟨_, ho₂⟩ := h₂.isOpen
  have hlt := hb.current_lt
  have hl₁ := h₁.length
  have hl₂ := h₂.length
  have hc₁ : b₁.current = n ∨ n + 3 ≤ b₁.current := by
    have hc := h₁.current
    rw [length_blocks_branch] at hc
    subst hn
    exact hc
  have hc₂ : b₂.current = n + 1 ∨ n + 3 ≤ b₂.current := by
    have hc := h₂.current
    rw [length_blocks_jump] at hc
    rw [length_blocks_branch] at hl₁
    rcases hc with hc | hc
    · exact .inl hc
    · exact .inr (by omega)
  rw [length_blocks_branch] at hl₁
  rw [length_blocks_jump] at hl₂
  obtain ⟨label, hjoin⟩ := open_join hlt hn h₁ h₂
  refine ⟨?_, ?_, ?_, ?_, ?_, _, hjoin⟩
  · exact (extends_branch hb flag).trans (h₁.func.trans
      ((ho₁.extends_terminate _).trans (h₂.func.trans (ho₂.extends_terminate _))))
  · intro hnum
    have hnum₁ := h₁.numbered (numbered_branch hnum hlt flag)
    have hnum₂ := h₂.numbered (Numbered.of_modify hnum₁ (fun _ => rfl))
    exact Numbered.of_modify hnum₂ (fun _ => rfl)
  · intro i hi hilt
    have hne₁ : b₁.current ≠ i := by omega
    have hne₂ : b₂.current ≠ i := by omega
    change (b₂.terminate _).func.blocks[i]? = _
    rw [getElem?_terminate, h₂.others i (by change i ≠ n + 1; omega)
      (by rw [length_blocks_jump]; omega)]
    change _ <$> (b₁.terminate _).func.blocks[i]? = _
    rw [getElem?_terminate, h₁.others i (by change i ≠ b.func.blocks.length; omega)
      (by rw [length_blocks_branch]; omega), getElem?_branch_of_lt b flag hilt,
      getElem?_terminate]
    simp [hne₁, hne₂, Ne.symm hi]
  · right
    change _ ≤ n + 2
    omega
  · rw [length_blocks_jump]
    omega

end Diamond

end Builder

open Builder

variable {b b' : Builder} {block : Block}

theorem Coerced.grows {o o' : Operand} {target : NativeType} (h : Coerced b o target o' b')
    (hb : b.Open block) : b.Grows b' := by
  cases h with
  | identity => exact .refl hb
  | cast => exact hb.grows_add _

theorem Operated.grows {unsignedCompare : Bool} {op : BinaryOp} {l r o : Operand}
    {type : NativeType} (h : Operated unsignedCompare b op l r type o b') (hb : b.Open block) :
    b.Grows b' := by
  cases h with
  | float => exact hb.grows_add _
  | int => exact hb.grows_add _
  | floatTest _ _ h =>
    have h₁ := hb.grows_of_eq h
    exact h₁.trans (h₁.isOpen.choose_spec.grows_add _)
  | intTest _ _ h =>
    have h₁ := hb.grows_of_eq h
    exact h₁.trans (h₁.isOpen.choose_spec.grows_add _)

theorem Lowered.grows {x : LowerScope} {task : LowerTask} {os : List Operand}
    (h : Lowered x task b os b') {block : Block} (hb : b.Open block) : b.Grows b' := by
  induction h generalizing block with
  | int => exact .refl hb
  | float => exact .refl hb
  | var => exact .refl hb
  | binary _ _ hc ho ihl ihr =>
    have h₁ := ihl hb
    have h₂ := h₁.trans (ihr h₁.isOpen.choose_spec)
    have h₃ := h₂.trans (hc.grows h₂.isOpen.choose_spec)
    exact h₃.trans (ho.grows h₃.isOpen.choose_spec)
  | call _ _ _ ih =>
    have h₁ := ih hb
    exact h₁.trans (h₁.isOpen.choose_spec.grows_add _)
  | cond _ hc hb₃ hn _ _ _ he ihc iht ihe =>
    have h₁ := ihc hb
    have h₂ := h₁.trans (hc.grows h₁.isOpen.choose_spec)
    have h₃ := h₂.trans (h₂.isOpen.choose_spec.grows_of_eq hb₃)
    obtain ⟨_, hopen⟩ := h₃.isOpen
    obtain ⟨_, hthen⟩ := open_branch hopen.current_lt _
    have h₄ := iht hthen
    obtain ⟨_, helse⟩ := open_else hopen.current_lt hn h₄
    have h₅ := ihe helse
    have h₆ := h₅.trans (he.grows h₅.isOpen.choose_spec)
    have h₇ := h₃.trans (grows_diamond hopen hn h₄ h₆)
    exact h₇.trans (h₇.isOpen.choose_spec.grows_add _)
  | nil => exact .refl hb
  | cons _ hc _ ihe ihes =>
    have h₁ := ihe hb
    have h₂ := h₁.trans (hc.grows h₁.isOpen.choose_spec)
    exact h₂.trans (ihes h₂.isOpen.choose_spec)

end FormCompiler
