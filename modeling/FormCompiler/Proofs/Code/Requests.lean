import FormCompiler.Proofs.Code.Built

namespace FormCompiler

namespace Builder

inductive Request
  | appendBlock (label : String)
  | moveTo (id : Nat)
  | int (op : ArithOp) (lhs rhs : Operand)
  | float (op : ArithOp) (lhs rhs : Operand)
  | icmp (test : IntTest) (lhs rhs : Operand)
  | fcmp (test : FloatTest) (lhs rhs : Operand)
  | cast (op : CastOp) (value : Operand) (target : NativeType)
  | call (callee : String) (args : List Operand) (returns : NativeType)
  | phi (type : NativeType) (incoming : List (Operand × Nat))
  | ret (value : Option Operand)
  | br (target : Nat)
  | condBr (condition : Operand) (whenTrue whenFalse : Nat)
  deriving DecidableEq

def newValue (b : Builder) (type : NativeType) : Nat × Builder :=
  (b.func.types.length, { b with func := { b.func with types := b.func.types ++ [type] } })

def push (b : Builder) (i : Instruction) : Builder :=
  b.changeCurrent fun block => { block with instructions := block.instructions ++ [i] }

def define (b : Builder) (type : NativeType) (op : Operation) : Builder :=
  let (dst, b) := b.newValue type
  b.push ⟨dst, op⟩

def perform (b : Builder) : Request → Builder
  | .appendBlock label => (b.appendBlock label).2
  | .moveTo id => b.moveTo id
  | .int op lhs rhs => b.define .i32 (.compute (.int op lhs rhs))
  | .float op lhs rhs => b.define .f64 (.compute (.float op lhs rhs))
  | .icmp test lhs rhs => b.define .i1 (.compute (.icmp test lhs rhs))
  | .fcmp test lhs rhs => b.define .i1 (.compute (.fcmp test lhs rhs))
  | .cast op value target => b.define target (.compute (.cast op value target))
  | .call callee args returns => b.define returns (.call callee args returns)
  | .phi type incoming => b.define type (.phi type incoming)
  | .ret value => b.terminate (.ret value)
  | .br target => b.terminate (.br target)
  | .condBr condition whenTrue whenFalse => b.terminate (.condBr condition whenTrue whenFalse)

def Request.operation? : Request → Option Operation
  | .int op lhs rhs => some (.compute (.int op lhs rhs))
  | .float op lhs rhs => some (.compute (.float op lhs rhs))
  | .icmp test lhs rhs => some (.compute (.icmp test lhs rhs))
  | .fcmp test lhs rhs => some (.compute (.fcmp test lhs rhs))
  | .cast op value target => some (.compute (.cast op value target))
  | .call callee args returns => some (.call callee args returns)
  | .phi type incoming => some (.phi type incoming)
  | .appendBlock _ | .moveTo _ | .ret _ | .br _ | .condBr .. => none

def Request.Fits (b : Builder) : Request → Prop
  | .moveTo id => id < b.func.blocks.length
  | _ => True

instance (b : Builder) : (r : Request) → Decidable (r.Fits b)
  | .moveTo id => inferInstanceAs (Decidable (id < b.func.blocks.length))
  | .appendBlock _ | .int .. | .float .. | .icmp .. | .fcmp .. | .cast .. | .call .. | .phi ..
  | .ret _ | .br _ | .condBr .. => inferInstanceAs (Decidable True)

def after (b : Builder) (rs : List Request) : Builder := rs.foldl perform b

def Allows : Builder → List Request → Prop
  | _, [] => True
  | b, r :: rs => r.Fits b ∧ (b.perform r).Allows rs

instance decidableAllows : (b : Builder) → (rs : List Request) → Decidable (b.Allows rs)
  | _, [] => inferInstanceAs (Decidable True)
  | b, r :: rs =>
    have := decidableAllows (b.perform r) rs
    inferInstanceAs (Decidable (r.Fits b ∧ (b.perform r).Allows rs))

def last? (b : Builder) : Option Instruction := b.currentBlock?.bind (·.instructions.getLast?)

def added (b : Builder) (r : Request) : List Instruction :=
  if r.operation?.isSome then (b.perform r).last?.toList else []

def emitted : Builder → List Request → List Instruction
  | _, [] => []
  | b, r :: rs => b.added r ++ (b.perform r).emitted rs

variable {b : Builder} {r : Request} {rs : List Request} {op : Operation}

theorem Request.cases (r : Request) :
    (∃ op, r.operation? = some op ∧ ∀ b : Builder, b.perform r = b.add op) ∨
      r.operation? = none ∧ ((∃ t, ∀ b : Builder, b.perform r = b.terminate t) ∨
        (∃ label, r = .appendBlock label) ∨ ∃ id, r = .moveTo id) := by
  cases r with
  | appendBlock label => exact .inr ⟨rfl, .inr (.inl ⟨label, rfl⟩)⟩
  | moveTo id => exact .inr ⟨rfl, .inr (.inr ⟨id, rfl⟩)⟩
  | ret | br | condBr => exact .inr ⟨rfl, .inl ⟨_, fun _ => rfl⟩⟩
  | int | float | icmp | fcmp | cast | call | phi => exact .inl ⟨_, rfl, fun _ => rfl⟩

theorem Made.perform (h : b.Made) (hr : r.Fits b) : (b.perform r).Made := by
  rcases r.cases with ⟨op, _, he⟩ | ⟨_, ⟨t, he⟩ | ⟨label, rfl⟩ | ⟨id, rfl⟩⟩
  · rw [he]
    exact .emit op h
  · rw [he]
    exact .terminate t h
  · exact .appendBlock label h
  · exact .moveTo h hr

theorem last?_add (hb : b.current < b.func.blocks.length) (op : Operation) :
    (b.add op).last? = some ⟨b.func.types.length, op⟩ := by
  have hcurrent : (b.add op).currentBlock? = _ := getElem?_add b op b.current
  rw [last?, hcurrent, List.getElem?_eq_getElem hb]
  simp

theorem added_eq (hb : b.current < b.func.blocks.length) (r : Request) :
    b.added r = r.operation?.toList.map fun op => ⟨b.func.types.length, op⟩ := by
  rcases r.cases with ⟨op, hop, he⟩ | ⟨hnone, _⟩
  · rw [added, hop, he, last?_add hb]
    rfl
  · rw [added, hnone]
    rfl

theorem map_op_emitted (h : b.Made) (hrs : b.Allows rs) :
    (b.emitted rs).map Instruction.op = rs.filterMap Request.operation? := by
  induction rs generalizing b with
  | nil => rfl
  | cons r rs ih =>
    rw [emitted, List.map_append, ih (h.perform hrs.1) hrs.2, added_eq h.orderly.2, List.map_map]
    cases hop : r.operation? with
    | none => rw [List.filterMap_cons_none hop]; rfl
    | some op => rw [List.filterMap_cons_some hop]; rfl

structure Logged (b : Builder) (is : List Instruction) : Prop where
  made : b.Made
  present : b.func.instructions.Perm is
  dsts : is.map Instruction.dst = List.range is.length
  types : b.func.types = is.map Instruction.type

theorem Logged.start (s : Signature) : Logged (.start s) [] := ⟨.start s, .refl _, rfl, rfl⟩

theorem Logged.perform {is : List Instruction} (h : b.Logged is) (hr : r.Fits b) :
    (b.perform r).Logged (is ++ b.added r) := by
  have hcurrent := h.made.orderly.2
  have hmade := h.made.perform hr
  rcases r.cases with ⟨op, hop, he⟩ | ⟨hnone, hcase⟩
  · have hlength : b.func.types.length = is.length := by rw [h.types, List.length_map]
    have hadded : b.added r = [⟨is.length, op⟩] := by
      rw [added_eq hcurrent, hop, hlength]
      rfl
    rw [hadded]
    refine ⟨hmade, ?_, ?_, ?_⟩
    · rw [he]
      refine (Func.instructions_add hcurrent op).trans ?_
      rw [hlength]
      exact (h.present.cons _).trans (List.perm_append_singleton _ _).symm
    · rw [List.map_append, h.dsts, List.length_append, List.length_singleton, List.range_succ]
      rfl
    · rw [he, types_add, h.types, List.map_append]
      rfl
  · have hadded : b.added r = [] := by
      rw [added_eq hcurrent, hnone]
      rfl
    have hsame : (b.perform r).func.instructions = b.func.instructions ∧
        (b.perform r).func.types = b.func.types := by
      rcases hcase with ⟨t, he⟩ | ⟨label, rfl⟩ | ⟨id, rfl⟩
      · rw [he]
        exact ⟨Func.instructions_modify fun _ => rfl, rfl⟩
      · exact ⟨Func.instructions_appendBlock label, rfl⟩
      · exact ⟨rfl, rfl⟩
    rw [hadded, List.append_nil]
    exact ⟨hmade, hsame.1 ▸ h.present, h.dsts, hsame.2.trans h.types⟩

theorem Logged.after {is : List Instruction} (h : b.Logged is) (hrs : b.Allows rs) :
    (b.after rs).Logged (is ++ b.emitted rs) := by
  induction rs generalizing b is with
  | nil =>
    rw [emitted, List.append_nil]
    exact h
  | cons r rs ih =>
    rw [emitted, ← List.append_assoc]
    exact ih (h.perform hrs.1) hrs.2

theorem Made.after (h : b.Made) (hrs : b.Allows rs) : (b.after rs).Made := by
  induction rs generalizing b with
  | nil => exact h
  | cons r rs ih => exact ih (h.perform hrs.1) hrs.2

theorem after_concat (b : Builder) (rs : List Request) (r : Request) :
    b.after (rs ++ [r]) = (b.after rs).perform r := List.foldl_append

theorem Allows.concat (h : b.Allows rs) (hr : r.Fits (b.after rs)) : b.Allows (rs ++ [r]) := by
  induction rs generalizing b with
  | nil => exact ⟨hr, trivial⟩
  | cons _ _ ih => exact ⟨h.1, ih h.2 hr⟩

theorem exists_request (op : Operation) :
    ∃ r : Request, ∀ b : Builder, r.Fits b ∧ b.perform r = b.add op := by
  cases op with
  | compute c =>
    cases c with
    | int op lhs rhs => exact ⟨.int op lhs rhs, fun _ => ⟨trivial, rfl⟩⟩
    | float op lhs rhs => exact ⟨.float op lhs rhs, fun _ => ⟨trivial, rfl⟩⟩
    | icmp test lhs rhs => exact ⟨.icmp test lhs rhs, fun _ => ⟨trivial, rfl⟩⟩
    | fcmp test lhs rhs => exact ⟨.fcmp test lhs rhs, fun _ => ⟨trivial, rfl⟩⟩
    | cast op value target => exact ⟨.cast op value target, fun _ => ⟨trivial, rfl⟩⟩
  | call callee args returns => exact ⟨.call callee args returns, fun _ => ⟨trivial, rfl⟩⟩
  | phi type incoming => exact ⟨.phi type incoming, fun _ => ⟨trivial, rfl⟩⟩

theorem exists_request_terminate (t : Terminator) :
    ∃ r : Request, ∀ b : Builder, r.Fits b ∧ b.perform r = b.terminate t := by
  cases t with
  | ret value => exact ⟨.ret value, fun _ => ⟨trivial, rfl⟩⟩
  | br target => exact ⟨.br target, fun _ => ⟨trivial, rfl⟩⟩
  | condBr condition whenTrue whenFalse =>
    exact ⟨.condBr condition whenTrue whenFalse, fun _ => ⟨trivial, rfl⟩⟩

theorem exists_requests (h : b.Made) :
    ∃ (s : Signature) (rs : List Request), (start s).Allows rs ∧ (start s).after rs = b := by
  have hstep {b b' : Builder} {r : Request} (hr : r.Fits b) (he : b.perform r = b')
      (hb : ∃ s rs, (start s).Allows rs ∧ (start s).after rs = b) :
      ∃ s rs, (start s).Allows rs ∧ (start s).after rs = b' := by
    obtain ⟨s, rs, hrs, rfl⟩ := hb
    exact ⟨s, rs ++ [r], hrs.concat hr, (after_concat _ rs r).trans he⟩
  induction h with
  | start s => exact ⟨s, [], trivial, rfl⟩
  | appendBlock label _ ih => exact hstep (r := .appendBlock label) trivial rfl ih
  | @moveTo b id _ hid ih => exact hstep (r := .moveTo id) hid rfl ih
  | @emit b op _ ih =>
    obtain ⟨r, hr⟩ := exists_request op
    exact hstep (hr b).1 (hr b).2 ih
  | @terminate b t _ ih =>
    obtain ⟨r, hr⟩ := exists_request_terminate t
    exact hstep (hr b).1 (hr b).2 ih

end Builder

namespace Func

theorem built_iff {f : Func} : f.Built ↔ ∃ (s : Signature) (rs : List Builder.Request),
    (Builder.start s).Allows rs ∧ ((Builder.start s).after rs).func = f := by
  constructor
  · rintro ⟨b, hb, rfl⟩
    obtain ⟨s, rs, hrs, rfl⟩ := Builder.exists_requests hb
    exact ⟨s, rs, hrs, rfl⟩
  · rintro ⟨s, rs, hrs, rfl⟩
    exact ⟨_, Builder.Made.after (.start s) hrs, rfl⟩

def Ended (f : Func) (i : Nat) (t : Terminator) : Prop :=
  ∃ block, f.blocks[i]? = some block ∧ block.terminator = some t

theorem Ended.modify {f g : Func} {i k : Nat} {t : Terminator} {change : Block → Block}
    (h : f.Ended i t) (hblocks : g.blocks = f.blocks.modify k change)
    (hsame : ∀ block : Block, block.terminator = some t → (change block).terminator = some t) :
    g.Ended i t := by
  obtain ⟨block, hblock, ht⟩ := h
  rw [Ended, hblocks, List.getElem?_modify, hblock]
  refine ⟨_, rfl, ?_⟩
  split
  · exact hsame block ht
  · exact ht

end Func

namespace Builder

variable {b : Builder} {i : Nat} {t : Terminator}

theorem ended_perform (h : b.func.Ended i t) (r : Request) : (b.perform r).func.Ended i t := by
  rcases r.cases with ⟨op, _, he⟩ | ⟨_, ⟨t', he⟩ | ⟨label, rfl⟩ | ⟨id, rfl⟩⟩
  · rw [he]
    exact h.modify rfl fun _ ht => ht
  · rw [he]
    refine h.modify rfl ?_
    intro block ht
    simp only [ht, Option.some_or]
  · obtain ⟨block, hblock, ht⟩ := h
    have hi := (List.getElem?_eq_some_iff.mp hblock).1
    exact ⟨block, (List.getElem?_append_left hi).trans hblock, ht⟩
  · exact h

theorem ended_after (h : b.func.Ended i t) (rs : List Request) : (b.after rs).func.Ended i t := by
  induction rs generalizing b with
  | nil => exact h
  | cons r rs ih => exact ih (ended_perform h r)

/-- A builder that has been told `rs` has made a function whose blocks have the numbers of their
places, the entry first. Its instructions are those that have been asked for, each under the number
of those before it, and the types of values are those of their instructions, one for each. A block
that has ended at some time ends so for good. -/
theorem after_start (s : Signature) (rs : List Request) (h : (start s).Allows rs) :
    let b := (start s).after rs
    let is := (start s).emitted rs
    (b.func.Numbered ∧ b.func.entry? = some 0) ∧
      is.map Instruction.op = rs.filterMap Request.operation? ∧
      is.map Instruction.dst = List.range is.length ∧
      b.func.instructions.Perm is ∧ (b.func.instructions.map Instruction.dst).Nodup ∧
      b.func.types = is.map Instruction.type ∧
      ∀ earlier later, rs = earlier ++ later → ∀ i t,
        ((start s).after earlier).func.Ended i t → b.func.Ended i t := by
  intro b is
  have hlogged : b.Logged is := (Logged.start s).after h
  have horderly := hlogged.made.orderly.1
  refine ⟨⟨horderly.numbered, horderly.entry_eq⟩, map_op_emitted (.start s) h, hlogged.dsts,
    hlogged.present, horderly.once, hlogged.types, ?_⟩
  rintro earlier later rfl i t hended
  have hafter : b = ((start s).after earlier).after later := List.foldl_append
  rw [hafter]
  exact ended_after hended later

def astray : List Request :=
  [.int .add (.param 0) (.const (.i32 1)), .appendBlock "then", .br 1, .moveTo 1,
    .cast .sitofp (.value 0) .f64, .moveTo 0, .icmp .slt (.value 0) (.const (.i32 0)),
    .ret (some (.value 1)), .moveTo 1, .ret (some (.value 1))]

theorem after_start_astray :
    (start ⟨"astray", [("p0", .i32)], .f64⟩).Allows astray ∧
      ((start ⟨"astray", [("p0", .i32)], .f64⟩).after astray).func.types = [.i32, .f64, .i1] ∧
      ((start ⟨"astray", [("p0", .i32)], .f64⟩).after astray).func.Ended 0 (.br 1) := by
  have hallows : (start ⟨"astray", [("p0", .i32)], .f64⟩).Allows astray := by decide
  obtain ⟨_, hop, _, _, _, htypes, hended⟩ :=
    after_start ⟨"astray", [("p0", .i32)], .f64⟩ astray hallows
  refine ⟨hallows, ?_, hended (astray.take 3) (astray.drop 3) rfl 0 (.br 1) ⟨_, rfl, rfl⟩⟩
  rw [htypes]
  have hsame := congrArg (List.map Operation.type) hop
  rw [List.map_map] at hsame
  exact hsame

end Builder

end FormCompiler
