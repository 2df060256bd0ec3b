import FormCompiler.Proofs.Arithmetic.Reading
import FormCompiler.Proofs.Arithmetic.Running
import FormCompiler.Proofs.Session.Levels
import FormCompiler.Proofs.Termination

namespace FormCompiler

structure Wraps (n r : Int) : Prop where
  lower : -2 ^ 31 ≤ r
  upper : r < 2 ^ 31
  modEq : r ≡ n [ZMOD 2 ^ 32]

namespace Wraps

theorem toInt_ofInt (n : Int) : Wraps n (Int32.ofInt n).toInt where
  lower := Int32.le_toInt _
  upper := Int32.toInt_lt _
  modEq := by
    rw [Int32.toInt_ofInt]
    exact Int.bmod_emod

theorem eq {n r r' : Int} (h : Wraps n r) (h' : Wraps n r') : r' = r := by
  have hlower := h.lower
  have hupper := h.upper
  have hlower' := h'.lower
  have hupper' := h'.upper
  have hsame : r' % 2 ^ 32 = r % 2 ^ 32 := h'.modEq.trans h.modEq.symm
  omega

end Wraps

theorem Program.Refines.call_ok {p q : Program} (h : p.Refines q) {fuel : Nat} {name : String}
    {args : List Const} {r : Option Const} {log : List HostCall}
    (hrun : p.call fuel name args = some ⟨.ok r, log⟩) :
    q.call fuel name args = some ⟨.ok r, log⟩ := by
  rcases Program.Refines.call h hrun with hsame | ⟨_, _, hm⟩ | ⟨_, _, hstep, hd⟩
  · exact hsame
  · cases hm
  · obtain ⟨_, hf⟩ := hd.halted hstep
    cases hf

def Program.Labelled (p : Program) : Prop := ∀ name f, p.code.get? name = some f → f.name = name

theorem Engine.refines_withBodies {engine : Engine} (h : engine.program.Labelled) {f g : Func}
    (hfg : f.Refines g) :
    (engine.withBodies [f]).program.Refines (engine.withBodies [g]).program := by
  refine ⟨rfl, rfl, fun name => ?_⟩
  have hname : g.name = f.name := congrArg Signature.name hfg.signature
  simp only [withBodies, List.foldl_cons, List.foldl_nil, Table.get?_insert, hname]
  split
  next he => exact .inr ⟨f, g, rfl, rfl, he, hfg⟩
  next =>
    cases hcode : engine.program.code.get? name with
    | none => exact .inl ⟨rfl, rfl⟩
    | some other => exact .inr ⟨other, other, rfl, rfl, h name other hcode, .refl⟩

namespace Session

variable {e : Arithmetic} {tree : Expr} {text : String} {s : Session}

theorem invoke_of_call {f : Func} (hcode : s.code.get? f.name = some f)
    (hparams : f.signature.params = []) {outcome : Outcome}
    (hcall : s.engine.program.call s.engine.steps f.name [] = some outcome) :
    s.invoke f.name = ⟨outcome.result.map Value.ofConst?, outcome.calls.reverse⟩ := by
  have hlookup : s.engine.lookup? f.name = some f.signature := by
    unfold Engine.lookup?
    rw [show s.engine.program.code.get? f.name = some f from hcode]
  have hcounted : ([] : List Value).length = f.signature.params.length := by
    rw [hparams]
    rfl
  have hnone : Engine.constants f.name [] = .ok [] := rfl
  simp only [invoke, hlookup, Engine.callAs, ne_eq, hcounted, not_true, if_false]
  change s.engine.call f.name [] = _
  simp only [Engine.call, hnone, hcall]

/-- Whatever the level is and whatever was committed before, the answer is the word of the exact
value. -/
theorem Settled.answer_arithmetic (h : s.Settled) (hlabelled : s.engine.program.Labelled)
    (hdepth : 1 ≤ s.engine.program.depth) (hsteps : e.size < s.engine.steps)
    (ht : e.ReadAs tree) (counter : Nat) :
    s.answer? (.wrap tree counter) = some ⟨.ok (.of (.i32 (.ofInt e.value))), []⟩ := by
  let a := Anonymous.wrap tree counter
  have hreturns : a.proto.signature.returns = .i32 := congrArg NativeType.ofTy ht.ty
  obtain ⟨work, hlower, hcomputed⟩ := ht.lowerBody
    ⟨s.generator.registry, s.generator.options.unsignedCompare⟩ hreturns
    (s.generator.workUnit a.proto.signature) a.proto.signature.paramNames
    (Generator.redeclare s.generator.unit a.proto.signature).2.toArray
  have hmakes := Generator.makes_lowered (p := a.proto) h.ready.registry hlower
  obtain ⟨hanswer, hcommits⟩ := h.evaluate_function hmakes
  generalize work.builder.func = f at hcomputed hmakes hcommits
  -- The passes may change the function, but not what a call of it comes to.
  have hsignature : f.signature = a.proto.signature := hmakes.builds.signature
  have hrefines : f.Refines (s.generator.optimized f) :=
    Func.Improves.refines (hmakes.builds.improves s.generator.options.level) hcomputed.plain
  have hsignature' := hrefines.signature.trans hsignature
  have hname' : (s.generator.optimized f).name = a.proto.name :=
    congrArg Signature.name hsignature'
  have hcall : (s.engine.withBodies [f]).program.call s.engine.steps a.proto.name [] =
      some ⟨.ok (some (.i32 (.ofInt e.value))), []⟩ := by
    have hcode := (Table.get?_insert s.engine.program.code f.name a.proto.name f).trans
      (if_pos (congrArg Signature.name hsignature))
    exact hcomputed.call (p := (s.engine.withBodies [f]).program)
      (congrArg Signature.params hsignature) hcode hdepth hsteps
  have hcall' := (Engine.refines_withBodies hlabelled hrefines).call_ok hcall
  have hcode := hcommits.code_get? a.proto.name
  rw [if_pos hname'] at hcode
  have hrun : (s.evaluate a).session.engine.program.call (s.evaluate a).session.engine.steps
      a.proto.name [] = some ⟨.ok (some (.i32 (.ofInt e.value))), []⟩ := by
    rw [hcommits.engine]
    exact hcall'
  rw [← hname'] at hcode hrun
  rw [hanswer, ← hname', invoke_of_call hcode (congrArg Signature.params hsignature') hrun]
  rfl

theorem Settled.run_arithmetic (h : s.Settled) (hlabelled : s.engine.program.Labelled)
    (hdepth : 1 ≤ s.engine.program.depth) (hsteps : e.size < s.engine.steps)
    (ht : e.Written text) :
    (s.run (.ofSource (.ofText text))).events.filter Event.isOutput =
      [.printed s!"Evaluated to {(Int32.ofInt e.value).toInt}\n"] := by
  obtain ⟨tree, hread, hreading, hverdicts⟩ := verdicts_written ht
  have hanswer := h.countForm.answer_arithmetic hlabelled hdepth hsteps hread 0
  rw [run_output, hverdicts s, verdict, hreading]
  simp only [hanswer]
  rfl

/-- Integer expressions are evaluated modulo `2 ^ 32`, from text to text: however an expression of
numbers below `2 ^ 63` is written, and whatever the options are, if only a call is allowed at all,
one line is printed, which shows the one number of a signed word that the exact value comes to. The
call takes at most one step for every two characters of the text, so no text of up to `2 ^ 63`
characters reaches the limit on steps, and none at all does if the limit is as high as that. -/
theorem runText_written (h : e.Written text) (o : Options) (hdepth : 1 ≤ o.depth) :
    ∃ r : Int, Wraps e.value r ∧ (∀ r', Wraps e.value r' → r' = r) ∧
      (text.length ≤ 2 ^ 63 → (runText text o).events.filter Event.isOutput =
        [.printed s!"Evaluated to {r}\n"]) ∧
      ∀ steps, text.length ≤ 2 * steps →
        (((start o).withSteps steps).run (.ofSource (.ofText text))).events.filter Event.isOutput =
          [.printed s!"Evaluated to {r}\n"] := by
  have hwraps := Wraps.toInt_ofInt e.value
  have hsize := h.size_lt_length
  have hrun : ∀ steps, text.length ≤ 2 * steps →
      (((start o).withSteps steps).run (.ofSource (.ofText text))).events.filter Event.isOutput =
        [.printed s!"Evaluated to {(Int32.ofInt e.value).toInt}\n"] := by
    intro steps hlong
    have hsettled := Settled.start (.ofDepth o.depth)
      ⟨o.level, o.unsignedCompare, o.allowRedefinition⟩ o.printCode {}
    refine (hsettled.withSteps steps).run_arithmetic (fun name f hf => (by cases hf)) hdepth ?_ h
    change e.size < steps
    omega
  refine ⟨_, hwraps, fun r' => hwraps.eq, fun hlong => ?_, hrun⟩
  -- The limit that every session starts with is `2 ^ 62`.
  have hrun' := hrun 0x4000000000000000 (by omega)
  rw [run_output] at hrun'
  exact (runText_output text o).trans hrun'

def spaced : String := " (2147483647 + 1) *3 -\t9223372036854775807 ;\n"

theorem written_spaced :
    (Arithmetic.operation .sub (.operation .mul (.operation .add (.number 2147483647) (.number 1))
      (.number 3)) (.number 9223372036854775807)).Written spaced := by
  have hsum : (Arithmetic.operation .add (.number 2147483647) (.number 1)).Spelled .sum _ :=
    .operation (.blankAfter (c := ' ') rfl (.of_primary (.toDigits (by decide))))
      (.blankBefore (c := ' ') rfl (.of_primary (.toDigits (by decide))))
  have hproduct : (Arithmetic.operation .mul _ (.number 3)).Spelled .term _ :=
    .operation (.blankBefore (c := ' ') rfl (.blankAfter (c := ' ') rfl hsum.paren.of_primary))
      (.blankAfter (c := ' ') rfl (.toDigits (by decide)))
  have hdifference : (Arithmetic.operation .sub _ (.number 9223372036854775807)).Spelled .sum _ :=
    .operation (.lift hproduct) (.blankBefore (c := '\t') rfl (.blankAfter (c := ' ') rfl
      (.of_primary (.toDigits (by decide)))))
  exact ⟨_, ['\n'], by decide +kernel, hdifference, List.forall_mem_singleton.mpr rfl⟩

theorem runText_written_spaced :
    1 ≤ ({ level := .o2, depth := 1 } : Options).depth ∧
    (runText spaced { level := .o2, depth := 1 }).events.filter Event.isOutput =
      [.printed "Evaluated to -2147483647\n"] := by
  obtain ⟨r, _, hunique, hprinted, _⟩ :=
    runText_written written_spaced { level := .o2, depth := 1 } (Nat.le_refl 1)
  have hr : -2147483647 = r := hunique (-2147483647) ⟨by decide, by decide, by decide⟩
  subst hr
  exact ⟨Nat.le_refl 1, hprinted (by decide)⟩

end Session

end FormCompiler
