import FormCompiler.Proofs.Lowering.Growth

namespace FormCompiler

inductive Builder.Made : Builder → Prop
  | start (s : Signature) : Made (.start s)
  | appendBlock {b : Builder} (label : String) : Made b → Made (b.appendBlock label).2
  | moveTo {b : Builder} {id : Nat} : Made b → id < b.func.blocks.length → Made (b.moveTo id)
  | emit {b : Builder} (op : Operation) : Made b → Made (b.emit op).2
  | terminate {b : Builder} (t : Terminator) : Made b → Made (b.terminate t)

namespace Func

def Built (f : Func) : Prop := ∃ b : Builder, b.Made ∧ b.func = f

structure Orderly (f : Func) : Prop where
  entry : f.blocks ≠ []
  numbered : f.Numbered
  once : (f.instructions.map Instruction.dst).Nodup
  types : ∀ i ∈ f.instructions, f.types[i.dst]? = some i.type

theorem instructions_modify {f : Func} {k : Nat} {change : Block → Block}
    (h : ∀ b, (change b).instructions = b.instructions) :
    (f.blocks.modify k change).flatMap Block.instructions = f.instructions := by
  by_cases hk : k < f.blocks.length
  · obtain ⟨before, b, after, hblocks, _, hmodify⟩ := List.exists_of_modify change hk
    rw [hmodify, instructions, hblocks]
    simp only [List.flatMap_append, List.flatMap_cons, h]
  · rw [List.modify_eq_self (Nat.le_of_not_lt hk), instructions]

variable {b : Builder}

theorem instructions_appendBlock (label : String) :
    (b.appendBlock label).2.func.instructions = b.func.instructions := by
  change List.flatMap _ (b.func.blocks ++ [_]) = _
  rw [List.flatMap_append]
  exact List.append_nil _

theorem instructions_add (hb : b.current < b.func.blocks.length) (op : Operation) :
    (b.add op).func.instructions.Perm (⟨b.func.types.length, op⟩ :: b.func.instructions) := by
  obtain ⟨before, block, after, hblocks, _, hmodify⟩ :=
    List.exists_of_modify (fun c : Block =>
      { c with instructions := c.instructions ++ [⟨b.func.types.length, op⟩] }) hb
  change (List.flatMap Block.instructions (b.func.blocks.modify _ _)).Perm _
  rw [hmodify, instructions, hblocks]
  simp only [List.flatMap_append, List.flatMap_cons, List.append_assoc, List.singleton_append]
  rw [← List.append_assoc, ← List.append_assoc (before.flatMap _)]
  exact List.perm_middle

theorem Orderly.dst_lt {f : Func} (h : f.Orderly) {v : Nat}
    (hv : v ∈ f.instructions.map Instruction.dst) : v < f.types.length := by
  obtain ⟨i, hi, rfl⟩ := List.mem_map.mp hv
  exact (List.getElem?_eq_some_iff.mp (h.types i hi)).1

theorem Orderly.entry_eq {f : Func} (h : f.Orderly) : f.entry? = some 0 := by
  obtain ⟨b, hhead⟩ := Option.isSome_iff_exists.mp (List.isSome_head?.mpr h.entry)
  have hid := h.numbered 0 b (by rwa [← List.head?_eq_getElem?])
  unfold entry?
  rw [hhead, Option.map_some, hid]

theorem Orderly.add (h : b.func.Orderly) (hb : b.current < b.func.blocks.length) (op : Operation) :
    (b.add op).func.Orderly := by
  have hperm := instructions_add hb op
  refine ⟨?_, Builder.Numbered.of_modify h.numbered fun _ => rfl, ?_, ?_⟩
  · intro hnil
    have hlength := congrArg List.length hnil
    rw [Builder.length_blocks_add] at hlength
    exact h.entry (List.length_eq_zero_iff.mp hlength)
  · rw [(hperm.map Instruction.dst).nodup_iff, List.map_cons, List.nodup_cons]
    exact ⟨fun hm => Nat.lt_irrefl _ (h.dst_lt hm), h.once⟩
  · intro i hi
    rw [Builder.types_add]
    rcases List.mem_cons.mp (hperm.mem_iff.mp hi) with rfl | hi
    · exact List.getElem?_concat_length
    · have htype := h.types i hi
      rwa [List.getElem?_append_left (List.getElem?_eq_some_iff.mp htype).1]

end Func

theorem Builder.Made.orderly {b : Builder} (h : b.Made) :
    b.func.Orderly ∧ b.current < b.func.blocks.length := by
  induction h with
  | start s =>
    refine ⟨⟨List.cons_ne_nil _ _, ?_, List.nodup_nil, ?_⟩, Nat.zero_lt_one⟩
    · intro i block hi
      cases i with
      | zero => cases hi; rfl
      | succ i => cases hi
    · intro i hi
      cases hi
  | @appendBlock b label _ ih =>
    obtain ⟨horderly, hcurrent⟩ := ih
    have hsame := Func.instructions_appendBlock (b := b) label
    refine ⟨⟨List.append_ne_nil_of_right_ne_nil _ (List.cons_ne_nil _ _), ?_, ?_, ?_⟩, ?_⟩
    · intro i block hi
      change (b.func.blocks ++ [_])[i]? = some block at hi
      rcases Nat.lt_or_ge i b.func.blocks.length with hlt | hge
      · rw [List.getElem?_append_left hlt] at hi
        exact horderly.numbered i block hi
      · rw [List.getElem?_append_right hge, List.getElem?_singleton] at hi
        split at hi
        next he =>
          cases hi
          change b.func.blocks.length = i
          omega
        next => cases hi
    · rw [hsame]
      exact horderly.once
    · rw [hsame]
      exact horderly.types
    · change b.current < (b.func.blocks ++ [_]).length
      rw [List.length_append]
      omega
  | moveTo _ hid ih => exact ⟨ih.1, hid⟩
  | @emit b op _ ih =>
    refine ⟨ih.1.add ih.2 op, ?_⟩
    exact Nat.lt_of_lt_of_eq ih.2 (Builder.length_blocks_add b op).symm
  | @terminate b t _ ih =>
    obtain ⟨horderly, hcurrent⟩ := ih
    have hlength := Builder.length_blocks_terminate b t
    have hsame : (b.terminate t).func.instructions = b.func.instructions :=
      Func.instructions_modify fun _ => rfl
    refine ⟨⟨?_, Builder.Numbered.of_modify horderly.numbered fun _ => rfl, ?_, ?_⟩, ?_⟩
    · intro hnil
      rw [hnil] at hlength
      exact horderly.entry (List.length_eq_zero_iff.mp hlength.symm)
    · rw [hsame]
      exact horderly.once
    · rw [hsame]
      exact horderly.types
    · exact Nat.lt_of_lt_of_eq hcurrent hlength.symm

theorem Func.Built.orderly {f : Func} (h : f.Built) : f.Orderly := by
  obtain ⟨b, hb, rfl⟩ := h
  exact hb.orderly.1

end FormCompiler
