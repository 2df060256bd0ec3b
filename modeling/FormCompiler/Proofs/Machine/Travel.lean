import FormCompiler.Proofs.Machine.Simulation

namespace FormCompiler

namespace Frame

structure Travels (w : Flow) (frame : Frame Const) : Prop where
  previous : frame.previous = none ∧ frame.block = 0 ∨
    ∃ b ∈ frame.func.blocks, frame.previous = some b.id ∧ frame.block ∈ b.successors
  values : ∀ v a, frame.find? id (.value v) = some a →
    ∃ b ∈ frame.func.blocks, ∃ k i, b.instructions[k]? = some i ∧ i.dst = v ∧
      (w.rank b.id < w.rank frame.block ∨ b.id = frame.block ∧ k < frame.pc)

variable {f : Func} {w : Flow} {frame : Frame Const} {b : Block} {i : Instruction}

theorem travels_start (f : Func) (w : Flow) (args : List Const) (returnTo : Option Nat) :
    (start f args returnTo).Travels w := by
  refine ⟨.inl ⟨rfl, rfl⟩, ?_⟩
  intro v a h
  rw [find?_start] at h
  cases h

namespace Travels

theorem next (h : frame.Travels w) : frame.next.Travels w := by
  refine ⟨h.previous, ?_⟩
  intro v a hv
  rw [find?_next] at hv
  obtain ⟨b, hb, k, i, hk, hdst, hwhere⟩ := h.values v a hv
  exact ⟨b, hb, k, i, hk, hdst, hwhere.imp id fun ⟨hid, hlt⟩ => ⟨hid, Nat.lt_succ_of_lt hlt⟩⟩

theorem set (h : frame.Travels w) (hs : frame.func.Regular) (hi : frame.Stands b (some i))
    (c : Const) : (frame.next.set i.dst c).Travels w := by
  refine ⟨h.previous, ?_⟩
  intro v a hv
  rw [find?_set] at hv
  split at hv
  next he =>
    obtain ⟨hb, hid⟩ := hs.block?_eq_some.mp hi.block
    exact ⟨b, hb, frame.pc, i, hi.pc, he.symm, .inr ⟨hid, Nat.lt_succ_self _⟩⟩
  next => exact h.next.values v a hv

theorem jump (h : frame.Travels w) (hf : frame.func.Regular) (hw : frame.func.Flows w)
    (hi : frame.func.block? frame.block = some b) {target : Nat} (ht : target ∈ b.successors) :
    (frame.jump target).Travels w := by
  obtain ⟨hb, hid⟩ := hf.block?_eq_some.mp hi
  refine ⟨.inr ⟨b, hb, congrArg some hid.symm, ht⟩, ?_⟩
  intro v a hv
  rw [find?_jump] at hv
  obtain ⟨c, hc, k, i, hk, hdst, hwhere⟩ := h.values v a hv
  have hrank := hw.rank b hb target ht
  rw [hid] at hrank
  refine ⟨c, hc, k, i, hk, hdst, .inl ?_⟩
  rcases hwhere with hlt | ⟨hcid, _⟩
  · exact Nat.lt_trans hlt hrank
  · rw [hcid]
    exact hrank

theorem unset (h : frame.Travels w) (hs : frame.func.Regular) (hi : frame.Stands b (some i)) :
    frame.find? id (.value i.dst) = none := by
  cases hv : frame.find? id (.value i.dst) with
  | none => rfl
  | some a =>
    obtain ⟨hb, hid⟩ := hs.block?_eq_some.mp hi.block
    obtain ⟨c, hc, k, j, hk, hdst, hwhere⟩ := h.values i.dst a hv
    obtain ⟨rfl, rfl⟩ := hs.eq_of_dst hc hb (List.mem_of_getElem? hk)
      (List.mem_of_getElem? hi.pc) hdst
    rcases hwhere with hlt | ⟨_, hlt⟩
    · rw [hid] at hlt
      exact absurd hlt (Nat.lt_irrefl _)
    · have hn := hs.dsts c hb
      have hk' : c.dsts[k]? = some j.dst := by rw [Block.dsts, List.getElem?_map, hk]; rfl
      have hpc : c.dsts[frame.pc]? = some j.dst := by
        rw [Block.dsts, List.getElem?_map, hi.pc]
        rfl
      have hlength := (List.getElem?_eq_some_iff.mp hk').1
      have he := (List.getElem?_inj hlength hn).mp (hk'.trans hpc.symm)
      omega

end Travels

end Frame

end FormCompiler
