import FormCompiler.Proofs.Lowering.Sound
import FormCompiler.Proofs.Machine.Safety
import FormCompiler.Proofs.Pass.Levels
import FormCompiler.Proofs.Workshop

/-!
What a generator makes can be run, at every level. Calls of committed functions whose own calls
find what they expect give values of the right types.
-/

namespace FormCompiler

namespace Builder

variable {b b' : Builder}

theorem gives_changeCurrent {change : Block → Block}
    (hc : ∀ block, block.terminator ≠ some (.ret none) →
      (change block).terminator ≠ some (.ret none))
    (h : b.func.Gives) : (b.changeCurrent change).func.Gives := by
  intro c hmem
  obtain ⟨i, hi⟩ := List.mem_iff_getElem?.mp hmem
  rw [changeCurrent, List.getElem?_modify] at hi
  obtain ⟨d, hd, rfl⟩ := Option.map_eq_some_iff.mp hi
  have hgives := h d (List.mem_of_getElem? hd)
  split
  · exact hc d hgives
  · exact hgives

theorem gives_add (h : b.func.Gives) (op : Operation) : (b.add op).func.Gives :=
  gives_changeCurrent (fun _ hb => hb) h

theorem gives_terminate (h : b.func.Gives) {t : Terminator} (ht : t ≠ .ret none) :
    (b.terminate t).func.Gives := by
  apply gives_changeCurrent _ h
  intro block hb hret
  cases hterm : block.terminator with
  | none =>
    simp only [hterm, Option.none_or, Option.some.injEq] at hret
    exact ht hret
  | some t' =>
    simp only [hterm, Option.some_or] at hret
    exact hb (hterm.trans hret)

theorem gives_appendBlock (h : b.func.Gives) (label : String) :
    (b.appendBlock label).2.func.Gives := by
  intro c hc
  rcases List.mem_append.mp hc with hc | hc
  · exact h c hc
  · rw [List.mem_singleton.mp hc]
    simp

theorem gives_branch (h : b.func.Gives) (flag : Operand) : (b.branch flag).func.Gives :=
  gives_terminate (gives_appendBlock (gives_appendBlock (gives_appendBlock h _) _) _)
    fun he => (by cases he)

theorem gives_jump (h : b.func.Gives) (join id : Nat) : (b.jump join id).func.Gives :=
  gives_terminate h fun he => (by cases he)

end Builder

theorem Coerced.gives {b b' : Builder} {o o' : Operand} {target : NativeType}
    (h : Coerced b o target o' b') (hb : b.func.Gives) : b'.func.Gives := by
  cases h with
  | identity => exact hb
  | cast => exact Builder.gives_add hb _

theorem Operated.gives {unsignedCompare : Bool} {b b' : Builder} {op : BinaryOp} {l r o : Operand}
    {type : NativeType} (h : Operated unsignedCompare b op l r type o b') (hb : b.func.Gives) :
    b'.func.Gives := by
  cases h with
  | float => exact Builder.gives_add hb _
  | int => exact Builder.gives_add hb _
  | floatTest _ _ he =>
    subst he
    exact Builder.gives_add (Builder.gives_add hb _) _
  | intTest _ _ he =>
    subst he
    exact Builder.gives_add (Builder.gives_add hb _) _

theorem Lowered.gives {x : LowerScope} {task : LowerTask} {b b' : Builder} {os : List Operand}
    (h : Lowered x task b os b') (hb : b.func.Gives) : b'.func.Gives := by
  induction h with
  | int => exact hb
  | float => exact hb
  | var => exact hb
  | binary _ _ hc ho ih₁ ih₂ => exact ho.gives (hc.gives (ih₂ (ih₁ hb)))
  | call _ _ _ ih => exact Builder.gives_add (ih hb) _
  | cond _ hc he _ _ _ _ hc' ih₁ ih₂ ih₃ =>
    subst he
    have hthen := ih₂ (Builder.gives_branch (Builder.gives_add (hc.gives (ih₁ hb)) _) _)
    have helse := ih₃ (Builder.gives_jump hthen _ _)
    exact Builder.gives_add (Builder.gives_jump (hc'.gives helse) _ _) _
  | nil => exact hb
  | cons _ hc _ ih₁ ih₂ => exact ih₂ (hc.gives (ih₁ hb))

theorem LoweredBody.gives {known : String → Option Signature} {unsignedCompare : Bool}
    {returns : NativeType} {names : Table Operand} {body : List Stmt} {result : Option Expr}
    {b b' : Builder} (h : LoweredBody known unsignedCompare returns names body result b b')
    (hvoid : result = none → returns ≠ .void) (hb : b.func.Gives) : b'.func.Gives := by
  induction h with
  | result he hc => exact Builder.gives_terminate (hc.gives (he.gives hb)) fun h => (by cases h)
  | nothing =>
    apply Builder.gives_terminate hb
    cases returns with
    | void => exact absurd rfl (hvoid rfl)
    | i1 => exact fun h => (by cases h)
    | i32 => exact fun h => (by cases h)
    | f64 => exact fun h => (by cases h)
  | expression he _ ih => exact ih hvoid (he.gives hb)
  | variableAs hc _ ih => exact ih hvoid (hc.gives hb)
  | variableOf _ _ ih => exact ih hvoid hb

namespace Generator.Builds

variable {g : Generator} {p : Prototype} {body : List Stmt} {result : Option Expr} {f : Func}
  {u : CodeUnit}

theorem signature (h : g.Builds p body result f u) : f.signature = p.signature := by
  obtain ⟨b, rfl, hb⟩ := h.lowered
  exact (hb.extends (Builder.open_start _)).1.signature

theorem sound (h : g.Builds p body result f u) : ∃ w, f.Sound w := by
  obtain ⟨b, rfl, hb⟩ := h.lowered
  apply hb.sound (Builder.laid_start p.signature) _ h.verified
  intro name o ho n
  obtain ⟨index, rfl, _⟩ := Signature.paramNames_get? ho
  exact Builder.has_param index

theorem improves (h : g.Builds p body result f u) (level : OptLevel) :
    f.Improves (Pass.runAll level.passes f).func := by
  obtain ⟨w, hw⟩ := h.sound
  exact Pass.correct_runAll level.passes f w hw

theorem gives (h : g.Builds p body result f u)
    (hvoid : result = none → p.signature.returns ≠ .void) :
    f.Gives := by
  obtain ⟨b, rfl, hb⟩ := h.lowered
  apply hb.gives hvoid
  intro c hc
  rw [List.mem_singleton.mp hc]
  simp

end Generator.Builds

structure Func.Able (f : Func) : Prop where
  sound : ∃ w, f.Sound w
  gives : f.Gives
  params : .void ∉ f.signature.paramTypes

structure Generator.Able (g : Generator) : Prop where
  tidy : g.Tidy
  bodies : ∀ name f, g.unit.get? name = some f → f.isDeclaration = false → f.Able

namespace Generator.Able

variable {g : Generator} {p : Prototype} {body : List Stmt} {result : Option Expr} {f : Func}
  {u : CodeUnit}

theorem build (h : g.Able) (hb : g.Builds p body result f u)
    (hvoid : result = none → p.signature.returns ≠ .void)
    (hparams : .void ∉ p.signature.paramTypes) {registry : Registry} (hr : registry.Keyed) :
    Able { g with unit := u.insert (Pass.runAll g.options.level.passes f).func, registry } := by
  have hi := hb.improves g.options.level
  refine ⟨h.tidy.insert hb hr _, ?_⟩
  intro name f' hf' hbody
  simp only [CodeUnit.get?_insert] at hf'
  split at hf'
  next =>
    cases hf'
    refine ⟨hi.sound, hi.derives.gives (hb.gives hvoid), ?_⟩
    rwa [hi.derives.signature, hb.signature]
  next => exact h.bodies name f' ((h.tidy.declared hb.declares hf').2 hbody) hbody

theorem declaration (h : g.Able) {d : Declaration} (hd : d.Parsed) :
    (g.declaration d).generator.Able := by
  cases hresult : (g.declaration d).result with
  | error e =>
    rw [declaration_error hresult]
    exact h
  | ok name =>
    cases d with
    | prototype p =>
      rw [prototype_ok hresult]
      refine ⟨h.tidy.declare p, ?_⟩
      intro name f hf hbody
      exact h.bodies name f ((h.tidy.workUnit _ hf).2 hbody) hbody
    | function p body result =>
      obtain ⟨f, u, hb, hg⟩ := function_ok h.tidy.registry hresult
      rw [hg]
      exact h.build hb (fun _ => hd.returns rfl) (hd.params rfl) (h.tidy.registry.insert p _)
    | variableOf type name span => exact h
    | variableAs type name init span => exact h

theorem anonymous (h : g.Able) (e : Expr) (counter : Nat) :
    (g.anonymous (.wrap e counter)).generator.Able := by
  cases hresult : (g.anonymous (.wrap e counter)).result with
  | error e =>
    rw [anonymous_error hresult]
    exact h
  | ok name =>
    obtain ⟨f, u, hb, hg⟩ := anonymous_ok h.tidy.registry hresult
    rw [hg]
    apply h.build hb (fun he => (by cases he)) _ h.tidy.registry
    exact List.not_mem_nil

theorem takeUnit (h : g.Able) : g.takeUnit.generator.Able := by
  refine ⟨h.tidy.takeUnit, ?_⟩
  intro name f hf
  cases hf

end Generator.Able

theorem Workshop.able_run {w : Workshop} (h : w.generator.Able) {steps : List Step}
    (hparsed : ∀ d, Step.declare d ∈ steps → d.Parsed) : (w.run steps).generator.Able := by
  induction steps generalizing w with
  | nil => exact h
  | cons step steps ih =>
    have hact : (w.act step).generator.Able := by
      cases step with
      | declare d => exact h.declaration (hparsed d List.mem_cons_self)
      | evaluate e counter => exact h.anonymous e counter
      | commit => exact h.takeUnit
    exact ih hact fun d hd => hparsed d (List.mem_cons_of_mem step hd)

def Func.Produced (f : Func) : Prop :=
  ∃ options host depth steps, (∀ d, Step.declare d ∈ steps → d.Parsed) ∧
    f ∈ ((Workshop.start options host depth).run steps).generator.unit.bodies

theorem Func.Produced.able {f : Func} (h : f.Produced) : f.Able := by
  obtain ⟨options, host, depth, steps, hparsed, hf⟩ := h
  have hstart : (Workshop.start options host depth).generator.Able :=
    ⟨Generator.tidy_start _ _, fun name f hf => (by cases hf)⟩
  have hable := Workshop.able_run hstart hparsed
  obtain ⟨hmem, hbody⟩ := List.mem_filter.mp hf
  obtain ⟨name, hget⟩ := Table.exists_get?_of_mem_values hmem
  exact hable.bodies name f hget (by simpa using hbody)

/-- All that is committed was produced, and its calls find what they expect or nothing at all. -/
structure Program.Coherent (p : Program) : Prop where
  produced : ∀ name f, p.code.get? name = some f → f.Produced
  respects : ∀ name f, p.code.get? name = some f → f.Respects p

theorem Program.Coherent.runs {p : Program} (h : p.Coherent) : p.Runs := by
  intro name f hf
  have hable := (h.produced name f hf).able
  obtain ⟨w, hw⟩ := hable.sound
  exact ⟨w, hw, hable.gives, h.respects name f hf⟩

namespace Engine

inductive Called.Proper (returns : NativeType) : Called → Prop
  | value {v : Value} {calls : List HostCall} : v.type = returns → Proper returns ⟨.ok v, calls⟩
  | fault {fault : Fault} {calls : List HostCall} : fault.isProper = true →
      Proper returns ⟨.error fault, calls⟩

theorem exists_constants (name : String) {args : List Value} {types : List NativeType}
    (h : args.map Value.type = types) (hvoid : .void ∉ types) :
    ∃ cs : List Const, constants name args = .ok cs ∧ cs.map Const.type = types := by
  subst h
  unfold constants
  induction args with
  | nil => exact ⟨[], rfl, rfl⟩
  | cons arg args ih =>
    obtain ⟨cs, hcs, htypes⟩ := ih fun hmem => hvoid (List.mem_cons_of_mem _ hmem)
    cases arg with
    | void => exact absurd List.mem_cons_self hvoid
    | of c =>
      refine ⟨c :: cs, ?_, ?_⟩
      · rw [List.mapM_cons, hcs]
        rfl
      · rw [List.map_cons, List.map_cons, htypes]
        rfl

end Engine

theorem Program.Runs.call {p : Program} (h : p.Runs) {name : String} {f : Func}
    (hf : p.code.get? name = some f) {args : List Const}
    (hargs : args.map Const.type = f.signature.paramTypes) :
    ∃ n outcome, (∀ fuel, p.call fuel name args = some outcome ∨
      fuel < n ∧ p.call fuel name args = none) ∧ outcome.Proper f.signature.returns := by
  obtain ⟨w, hw⟩ := h name f hf
  have hc : Machine.checkArgs f args = .ok () := Machine.checkArgs_eq_ok.mpr hargs
  rcases Nat.eq_zero_or_pos p.depth with hd | hd
  · have hcall : ∀ fuel, p.call fuel name args = some _ :=
      fun _ => Program.call_full hf hc (Nat.le_of_eq hd)
    exact ⟨0, _, fun fuel => .inl (hcall fuel), .fault rfl⟩
  · have hfits : Machine.Fits p f.signature.returns ⟨[Frame.start f args none], []⟩ :=
      .intro hw (Frame.fits_start hw.sound hargs none) .nobody
    obtain ⟨outcome, n, hn⟩ : ∃ outcome, Machine.Ends p ⟨[Frame.start f args none], []⟩ outcome :=
      Machine.exists_ends h.sound hw.sound
    refine ⟨n, outcome, ?_, hfits.run h (hn 0)⟩
    intro fuel
    rw [Program.call_entered hf hc hd]
    cases hrun : Machine.run p fuel ⟨[Frame.start f args none], []⟩ with
    | none =>
      refine .inr ⟨?_, rfl⟩
      apply Nat.lt_of_not_le
      intro hle
      rw [Machine.run_mono (hn 0) hle] at hrun
      cases hrun
    | some outcome' =>
      have hboth := Machine.run_mono hrun (Nat.le_add_left fuel n)
      rw [hn fuel] at hboth
      exact .inl hboth.symm

/-- Whatever the limit on steps, a call of a committed function of a coherent program gives a value
of its return type, divides by zero, nests too deep, or needs a function that nobody has defined;
from some number of steps on the limit is not reached. -/
theorem Engine.call_proper (e : Engine) (h : e.program.Coherent) {name : String} {f : Func}
    (hf : e.program.code.get? name = some f) {args : List Value}
    (hargs : args.map Value.type = f.signature.paramTypes) :
    ∃ n, ∀ steps, ({ e with steps }.call name args).Proper f.signature.returns ∨
      steps < n ∧ { e with steps }.call name args = ⟨.error (.tooLong steps), []⟩ := by
  obtain ⟨cs, hcs, htypes⟩ := exists_constants name hargs (h.produced name f hf).able.params
  obtain ⟨n, outcome, hcall, hproper⟩ := h.runs.call hf htypes
  refine ⟨n, fun steps => ?_⟩
  simp only [Engine.call, hcs]
  rcases hcall steps with hc | ⟨hlt, hc⟩
  · left
    simp only [hc]
    cases hproper with
    | value htype => exact .value htype
    | fault hfault => exact .fault hfault
  · exact .inr ⟨hlt, by simp only [hc]⟩

def factorial : Declaration :=
  .function ⟨.int, "f", [⟨.int, "n"⟩], .nowhere⟩ [] (some
    (.cond (.var "n" .int .nowhere)
      (.binary .mul (.var "n" .int .nowhere)
        (.call "f" [.binary .sub (.var "n" .int .nowhere) (.int 1 .nowhere) .nowhere] .int .nowhere)
        .nowhere)
      (.int 1 .nowhere) .nowhere))

theorem factorial_parsed : factorial.Parsed := by
  let kinds : List Kind := [.typeWord .int, .name "f", .openParen, .typeWord .int, .name "n",
    .closeParen, .openBrace, .returnWord, .ifWord, .openParen, .name "n", .closeParen, .name "n",
    .op '*', .name "f", .openParen, .name "n", .op '-', .int "1", .closeParen, .elseWord, .int "1",
    .semicolon, .closeBrace]
  exact ⟨.ofStream { pending := kinds.map (⟨·, .nowhere⟩), ending := .nowhere },
    by with_unfolding_all rfl⟩

def factorialCode : Func where
  signature := ⟨"f", [("n", .i32)], .i32⟩
  blocks := [
    { id := 0, label := "entry"
      instructions := [⟨0, .compute (.cast .sitofp (.param 0) .f64)⟩,
        ⟨1, .compute (.fcmp .one (.value 0) (.const (.f64 0.0)))⟩]
      terminator := some (.condBr (.value 1) 1 2) },
    { id := 1, label := "then1"
      instructions := [⟨2, .compute (.int .sub (.param 0) (.const (.i32 1)))⟩,
        ⟨3, .call "f" [.value 2] .i32⟩, ⟨4, .compute (.int .mul (.param 0) (.value 3))⟩]
      terminator := some (.br 3) },
    { id := 2, label := "else2", terminator := some (.br 3) },
    { id := 3, label := "ifcont3"
      instructions := [⟨5, .phi .i32 [(.value 4, 1), (.const (.i32 1), 2)]⟩]
      terminator := some (.ret (some (.value 5))) }]
  types := [.f64, .i1, .i32, .i32, .i32, .i32]

theorem factorialCode_produced : factorialCode.Produced := by
  refine ⟨{ level := .o2 }, .standard, 8, [.declare factorial], ?_, ?_⟩
  · intro d hd
    cases List.mem_singleton.mp hd
    exact factorial_parsed
  · have hbodies : ((Workshop.start { level := .o2 } .standard 8).run
        [.declare factorial]).generator.unit.bodies = [factorialCode] := by decide +kernel
    rw [hbodies]
    exact List.mem_cons_self

def factorialProgram : Program := { code := (∅ : Table Func).insert "f" factorialCode, depth := 8 }

theorem factorialProgram_coherent : factorialProgram.Coherent := by
  have hcode : ∀ name f, factorialProgram.code.get? name = some f → f = factorialCode := by
    intro name f hf
    simp only [factorialProgram, Table.get?_insert] at hf
    split at hf
    · exact (Option.some.inj hf).symm
    · cases hf
  refine ⟨?_, ?_⟩
  · intro name f hf
    rw [hcode name f hf]
    exact factorialCode_produced
  · intro name f hf i hi callee operands returns hop
    rw [hcode name f hf] at hi ⊢
    have hcall : i = ⟨3, .call "f" [.value 2] .i32⟩ := by
      simp only [Func.instructions, factorialCode, List.flatMap_cons, List.flatMap_nil,
        List.cons_append, List.nil_append, List.mem_cons, List.not_mem_nil, or_false] at hi
      rcases hi with rfl | rfl | rfl | hcall | rfl | rfl
      · cases hop
      · cases hop
      · cases hop
      · exact hcall
      · cases hop
      · cases hop
    subst hcall
    cases hop
    exact ⟨[.i32], rfl, rfl, rfl⟩

theorem Engine.call_proper_factorial : ∃ n, ∀ steps,
    (Engine.call { program := factorialProgram, steps } "f" [.of (.i32 3)]).Proper .i32 ∨
      steps < n ∧ Engine.call { program := factorialProgram, steps } "f" [.of (.i32 3)] =
        ⟨.error (.tooLong steps), []⟩ :=
  Engine.call_proper { program := factorialProgram } factorialProgram_coherent
    (f := factorialCode) rfl rfl

end FormCompiler
