import FormCompiler.Pass.Pipeline
import FormCompiler.Proofs.Code.Verified
import FormCompiler.Proofs.Machine.Simulation

namespace FormCompiler

namespace Func

structure Derives (f g : Func) : Prop where
  signature : g.signature = f.signature
  types : g.types = f.types
  calls : ∀ i ∈ g.instructions, ∀ callee args returns, i.op = .call callee args returns →
    ∃ j ∈ f.instructions, ∃ args', j.op = .call callee args' returns ∧
      args.map f.operandType? = args'.map f.operandType?
  phis : ∀ i ∈ g.instructions, i.op.isPhi = true →
    ∃ j ∈ f.instructions, j.op.isPhi = true ∧ j.type = i.type
  gives : f.Gives → g.Gives

def Plain (f : Func) : Prop := ∀ i ∈ f.instructions, i.op.isPhi = true → i.type ≠ .f64

instance (f : Func) : Decidable f.Plain :=
  inferInstanceAs (Decidable (∀ i ∈ f.instructions, i.op.isPhi = true → i.type ≠ .f64))

/-- The function `g` can be used for `f`. Doubles that compare equal may differ, so what calls do
is kept only where phis do not take doubles. -/
structure Improves (f g : Func) : Prop where
  sound : ∃ w, g.Sound w
  derives : f.Derives g
  refines : f.Plain → f.Refines g

variable {f g h : Func}

theorem Derives.refl : f.Derives f :=
  ⟨rfl, rfl, fun i hi _ args _ hop => ⟨i, hi, args, hop, rfl⟩,
    fun i hi hphi => ⟨i, hi, hphi, rfl⟩, id⟩

theorem Derives.operandType? (hf : f.Derives g) : g.operandType? = f.operandType? := by
  funext o
  cases o with
  | const c => rfl
  | param index => simp only [Func.operandType?, hf.signature]
  | value id => simp only [Func.operandType?, hf.types]

theorem Derives.trans (hf : f.Derives g) (hg : g.Derives h) : f.Derives h := by
  refine ⟨hg.signature.trans hf.signature, hg.types.trans hf.types, ?_, ?_, hg.gives ∘ hf.gives⟩
  · intro i hi callee args returns hop
    obtain ⟨j, hj, args', hop', hargs⟩ := hg.calls i hi callee args returns hop
    obtain ⟨k, hk, args'', hop'', hargs'⟩ := hf.calls j hj callee args' returns hop'
    rw [hf.operandType?] at hargs
    exact ⟨k, hk, args'', hop'', hargs.trans hargs'⟩
  · intro i hi hphi
    obtain ⟨j, hj, hphi', htype⟩ := hg.phis i hi hphi
    obtain ⟨k, hk, hphi'', htype'⟩ := hf.phis j hj hphi'
    exact ⟨k, hk, hphi'', htype'.trans htype⟩

theorem Derives.plain (hf : f.Derives g) (hp : f.Plain) : g.Plain := by
  intro i hi hphi
  obtain ⟨j, hj, hphi', htype⟩ := hf.phis i hi hphi
  rw [← htype]
  exact hp j hj hphi'

theorem Derives.callFits (hf : f.Derives g) {u : CodeUnit}
    (h : ∀ i ∈ f.instructions, ∀ callee args returns, i.op = .call callee args returns →
      f.CallFits u callee args returns) :
    ∀ i ∈ g.instructions, ∀ callee args returns, i.op = .call callee args returns →
      g.CallFits u callee args returns := by
  intro i hi callee args returns hop
  obtain ⟨j, hj, args', hop', hargs⟩ := hf.calls i hi callee args returns hop
  obtain ⟨s, hs, hreturns, htypes⟩ := h j hj callee args' returns hop'
  refine ⟨s, ?_, hreturns, ?_⟩
  · rw [← hs]
    unfold calleeSignature?
    rw [Func.name, Func.name, hf.signature]
  · rw [hf.operandType?, hargs, htypes]

theorem Improves.refl {w : Flow} (hf : f.Sound w) : f.Improves f :=
  ⟨⟨w, hf⟩, .refl, fun _ => .refl⟩

theorem Improves.trans (hf : f.Improves g) (hg : g.Improves h) : f.Improves h :=
  ⟨hg.sound, hf.derives.trans hg.derives, fun hp =>
    (hf.refines hp).trans (hg.refines (hf.derives.plain hp))⟩

theorem Improves.verify {u : CodeUnit} (hf : f.Improves g) (hv : f.verify u = .ok ()) :
    g.verify u = .ok () := by
  obtain ⟨w, hw⟩ := hf.sound
  refine hw.verify (hf.derives.callFits ?_)
  intro j hj
  obtain ⟨c, hc, hj⟩ := mem_instructions.mp hj
  exact (((verify_eq_ok.mp hv).2 c hc).instructions j hj).2.2.1

end Func

namespace Transformation

def Correct (t : Transformation) : Prop :=
  ∀ (f : Func) (w : Flow), f.Sound w → f.Improves (t f).func

variable {r s : Transformation}

theorem Correct.andThen (hr : Correct r) (hs : Correct s) : Correct (r.andThen s) := by
  intro f w hf
  have h := hr f w hf
  obtain ⟨w', hw'⟩ := h.sound
  exact h.trans (hs _ w' hw')

theorem Correct.exhaust (hr : Correct r) : Correct r.exhaust := by
  intro f w hf
  fun_induction Transformation.exhaust r f generalizing w with
  | case1 f g hg ih =>
    have h := hr f w hf
    obtain ⟨w', hw'⟩ := h.sound
    exact h.trans (ih w' hw')
  | case2 f g hg => exact hr f w hf

end Transformation

end FormCompiler
