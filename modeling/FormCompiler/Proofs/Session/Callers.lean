import FormCompiler.Proofs.Session.Visits

/-!
Callers and callees across the forms of a session. A body is held to the signatures by which its
callees were known when it was committed. A callee that had been committed by then is never
replaced, unless redefinition is allowed; one that had only been declared may still be given another
shape.
-/

namespace FormCompiler

theorem Signature.sameShape_iff {s t : Signature} :
    s.sameShape t = true ↔
      s.name = t.name ∧ s.returns = t.returns ∧ s.paramTypes = t.paramTypes := by
  simp only [sameShape, Bool.and_eq_true, beq_iff_eq, and_assoc]

theorem Signature.sameShape_refl (s : Signature) : s.sameShape s = true :=
  sameShape_iff.mpr ⟨rfl, rfl, rfl⟩

theorem Signature.sameShape_trans {s t r : Signature} (hst : s.sameShape t = true)
    (htr : t.sameShape r = true) : s.sameShape r = true := by
  obtain ⟨h₁, h₂, h₃⟩ := sameShape_iff.mp hst
  obtain ⟨h₁', h₂', h₃'⟩ := sameShape_iff.mp htr
  exact sameShape_iff.mpr ⟨h₁.trans h₁', h₂.trans h₂', h₃.trans h₃'⟩

theorem Signature.sameShape_symm {s t : Signature} (h : s.sameShape t = true) :
    t.sameShape s = true := by
  obtain ⟨h₁, h₂, h₃⟩ := sameShape_iff.mp h
  exact sameShape_iff.mpr ⟨h₁.symm, h₂.symm, h₃.symm⟩

namespace Func

variable {f : Func} {args : List Operand} {returns : NativeType} {s t : Signature}

def HasCall (f : Func) (callee : String) (args : List Operand) (returns : NativeType) : Prop :=
  ∃ i ∈ f.instructions, i.op = .call callee args returns

/-- A call with these arguments has one for each parameter of `s`, of the parameter's type, and
takes what `s` returns. -/
def Expects (f : Func) (args : List Operand) (returns : NativeType) (s : Signature) : Prop :=
  args.map f.operandType? = s.paramTypes.map some ∧ returns = s.returns

instance (f : Func) (args : List Operand) (returns : NativeType) (s : Signature) :
    Decidable (f.Expects args returns s) := inferInstanceAs (Decidable (_ ∧ _))

theorem Expects.of_sameShape (h : f.Expects args returns s) (hst : s.sameShape t = true) :
    f.Expects args returns t := by
  obtain ⟨_, hreturns, hparams⟩ := Signature.sameShape_iff.mp hst
  exact ⟨hparams ▸ h.1, hreturns ▸ h.2⟩

def Agrees (f : Func) (lookup? : String → Option Signature) : Prop :=
  ∀ i ∈ f.instructions, ∀ callee args returns, i.op = .call callee args returns →
    ∀ g ∈ lookup? callee, f.Expects args returns g

instance (op : Operation) (P : String → List Operand → NativeType → Prop)
    [∀ callee args returns, Decidable (P callee args returns)] :
    Decidable (∀ callee args returns, op = .call callee args returns → P callee args returns) :=
  match op with
  | .call callee args returns => decidable_of_iff (P callee args returns)
      ⟨fun h _ _ _ he => by cases he; exact h, fun h => h callee args returns rfl⟩
  | .compute _ => isTrue fun _ _ _ he => by cases he
  | .phi _ _ => isTrue fun _ _ _ he => by cases he

instance (f : Func) (lookup? : String → Option Signature) : Decidable (f.Agrees lookup?) :=
  inferInstanceAs (Decidable (∀ i ∈ f.instructions, _))

theorem callFits_of_verify {u : CodeUnit} (hv : f.verify u = .ok ()) {callee : String}
    (h : f.HasCall callee args returns) : f.CallFits u callee args returns := by
  obtain ⟨i, hi, hop⟩ := h
  obtain ⟨b, hb, hi⟩ := List.mem_flatMap.mp hi
  exact (((verify_eq_ok.mp hv).2 b hb).instructions i hi).2.2.1 callee args returns hop

end Func

namespace Session

/-- The signature by which a body that is built in this session, and has itself the signature `own`,
knows `callee`. -/
def known? (s : Session) (own : Signature) (callee : String) : Option Signature :=
  if callee = own.name then some own else s.generator.registry.signature? callee

def Founds (s : Session) (f : Func) : Prop :=
  ∀ callee args returns, f.HasCall callee args returns → ∃ known,
    s.known? f.signature callee = some known ∧ f.Expects args returns known ∧
    ∀ g, s.code.get? callee = some g → known.sameShape g.signature = true

structure Lawful (s : Session) (p : Parser) : Prop where
  settled : s.Settled
  off : s.generator.options.allowRedefinition = false
  errors : p.errors = []
  spelled : p.cursor.Spelled IsWord
  words : ∀ name known, s.generator.registry.get? name = some known → IsWord name
  committed : ∀ name f, s.code.get? name = some f → f.name = name ∧ f.Able ∧
    ((∃ known, s.generator.registry.get? name = some known ∧ known.isDefined = true ∧
        known.proto.signature.sameShape f.signature = true) ∨
      ∃ k, k < p.counter ∧ name = Anonymous.nameOf k)

variable {s s' : Session} {p : Parser}

theorem lawful_start (o : Options) (ho : o.allowRedefinition = false) {stream : TokenStream}
    (h : stream.Spelled IsWord) : Lawful (start o) (.ofStream stream) where
  settled :=
    .start (.ofDepth o.depth) ⟨o.level, o.unsignedCompare, o.allowRedefinition⟩ o.printCode {}
  off := ho
  errors := rfl
  spelled := h.cursor
  words := fun _ _ hr => (by cases hr)
  committed := fun _ _ hf => (by cases hf)

namespace Lawful

theorem sameShape_of_known? (h : s.Lawful p) {own known : Signature} {callee : String} {g : Func}
    (hknown : s.known? own callee = some known) (hfresh : s.code.get? own.name = none)
    (hg : s.code.get? callee = some g) : known.sameShape g.signature = true := by
  unfold known? at hknown
  split at hknown
  next he =>
    rw [he, hfresh] at hg
    cases hg
  next =>
    obtain ⟨r, hr, rfl⟩ := Option.map_eq_some_iff.mp hknown
    rcases (h.committed callee g hg).2.2 with ⟨r', hr', _, hshape⟩ | ⟨k, _, rfl⟩
    · cases hr.symm.trans hr'
      exact hshape
    · exact absurd (h.words _ r hr) (Anonymous.not_isWord_nameOf k)

theorem founds (h : s.Lawful p) {proto : Prototype} {body : List Stmt} {result : Option Expr}
    {f : Func} {u : CodeUnit} (hb : s.generator.Builds proto body result f u)
    (hfresh : s.code.get? proto.name = none) : s.Founds (s.generator.optimized f) := by
  have hi : f.Improves (s.generator.optimized f) := hb.improves s.generator.options.level
  have hsignature := hb.signature_optimized
  intro callee args returns hcall
  obtain ⟨known, hcallee, hreturns, hargs⟩ :=
    Func.callFits_of_verify (hi.verify hb.verified) hcall
  have hknown : s.known? (s.generator.optimized f).signature callee = some known := by
    unfold Func.calleeSignature? at hcallee
    unfold known?
    split at hcallee
    next he => exact (if_pos he).trans hcallee
    next hne =>
      refine (if_neg hne).trans ?_
      have hwork : (s.generator.workUnit proto.signature).get? callee = none := by
        rw [Generator.workUnit, Generator.redeclare_get?_of_ne]
        · exact h.settled.ready.empty callee
        · rw [← hsignature]
          exact Ne.symm hne
      rcases hb.declares.get? callee with he | ⟨_, declared, hdeclared, he⟩
      · rw [he, hwork] at hcallee
        cases hcallee
      · rw [he] at hcallee
        rw [hdeclared]
        exact hcallee
  refine ⟨known, hknown, ⟨hargs, hreturns.symm⟩, fun g hg => ?_⟩
  exact h.sameShape_of_known? hknown (by rw [hsignature]; exact hfresh) hg

theorem able {proto : Prototype} {body : List Stmt} {result : Option Expr}
    {f : Func} {u : CodeUnit} (hb : s.generator.Builds proto body result f u)
    (hvoid : result = none → proto.signature.returns ≠ .void)
    (hparams : .void ∉ proto.signature.paramTypes) : (s.generator.optimized f).Able := by
  have hi : f.Improves (s.generator.optimized f) := hb.improves s.generator.options.level
  refine ⟨hi.sound, hi.derives.gives (hb.gives hvoid), ?_⟩
  rwa [hb.signature_optimized]

end Lawful

structure Grows (s s' : Session) : Prop where
  keeps : ∀ name f, s.code.get? name = some f → s'.code.get? name = some f
  brings : ∀ name f, s'.code.get? name = some f → s.code.get? name = some f ∨
    s.code.get? name = none ∧ s.Founds f

theorem Grows.of_eq (h : s'.engine = s.engine) : s.Grows s' := by
  have hcode : s'.code = s.code := by rw [code, h]; rfl
  exact ⟨fun name f hf => hcode ▸ hf, fun name f hf => .inl (hcode ▸ hf)⟩

namespace Lawful

theorem unmoved (h : s.Lawful p) (hs : s.Unmoved s') {q : Parser} (herrors : q.errors = [])
    (hspelled : q.cursor.Spelled IsWord) (hcounter : p.counter ≤ q.counter) : s'.Lawful q where
  settled := h.settled.unmoved hs
  off := hs.generator ▸ h.off
  errors := herrors
  spelled := hspelled
  words := hs.generator ▸ h.words
  committed := by
    intro name f hf
    rw [code, hs.engine] at hf
    obtain ⟨hname, hable, hknown⟩ := h.committed name f hf
    refine ⟨hname, hable, ?_⟩
    rw [hs.generator]
    exact hknown.imp_right (Exists.imp fun k => And.imp_left (Nat.lt_of_lt_of_le · hcounter))

theorem fresh_of_isDefined (h : s.Lawful p) {name : String} (hword : IsWord name)
    (hdefined : s.generator.registry.isDefined name = false) : s.code.get? name = none := by
  cases hf : s.code.get? name with
  | none => rfl
  | some f =>
    rcases (h.committed name f hf).2.2 with ⟨known, hknown, hd, _⟩ | ⟨k, _, rfl⟩
    · simp only [Registry.isDefined, hknown, hd] at hdefined
      cases hdefined
    · exact absurd hword (Anonymous.not_isWord_nameOf k)

theorem fresh_nameOf (h : s.Lawful p) : s.code.get? (Anonymous.nameOf p.counter) = none := by
  cases hf : s.code.get? (Anonymous.nameOf p.counter) with
  | none => rfl
  | some f =>
    rcases (h.committed _ f hf).2.2 with ⟨known, hknown, _, _⟩ | ⟨k, hk, he⟩
    · exact absurd (h.words _ known hknown) (Anonymous.not_isWord_nameOf _)
    · rw [Anonymous.nameOf_inj he] at hk
      exact absurd hk (Nat.lt_irrefl _)

theorem words_insert (h : s.Lawful p) {proto : Prototype} (hword : IsWord proto.name)
    (isDefined : Bool) : ∀ name known,
      (Table.insert s.generator.registry proto.name ⟨proto, isDefined⟩).get? name = some known →
        IsWord name := by
  intro name known hknown
  rw [Table.get?_insert] at hknown
  split at hknown
  next he => exact he ▸ hword
  next => exact h.words name known hknown

theorem prototype (h : s.Lawful p) {proto : Prototype} {notes : List Note}
    (hc : s.generator.checkRedefinition proto false = .ok notes) (hword : IsWord proto.name)
    (hs : s.Commits s' (s.generator.registry.declare proto) []) {q : Parser}
    (herrors : q.errors = []) (hspelled : q.cursor.Spelled IsWord)
    (hcounter : p.counter ≤ q.counter) : s'.Lawful q where
  settled := h.settled.commits (h.settled.ready.registry.insert proto _) hs
  off := by rw [hs.generator]; exact h.off
  errors := herrors
  spelled := hspelled
  words := by rw [hs.generator]; exact h.words_insert hword _
  committed := by
    intro name f hf
    rw [code, hs.engine] at hf
    obtain ⟨hname, hable, hknown⟩ := h.committed name f hf
    refine ⟨hname, hable, ?_⟩
    rw [hs.generator]
    rcases hknown with ⟨known, hknown, hdefined, hshape⟩ | ⟨k, hk, he⟩
    · left
      change ∃ known', (Table.insert _ _ _).get? name = some known' ∧ _
      rw [Table.get?_insert]
      by_cases hp : proto.name = name
      · subst hp
        have hd : s.generator.registry.isDefined proto.name = true := by
          simp only [Registry.isDefined, hknown, hdefined]
        refine ⟨_, if_pos rfl, hd, ?_⟩
        rw [Generator.checkRedefinition_eq, hd, h.off] at hc
        simp only [Bool.true_eq_false, true_and, false_or, Registry.signature?, hknown,
          Option.map_some, Option.any_some] at hc
        split at hc
        next hsame => exact Signature.sameShape_trans (Signature.sameShape_symm hsame) hshape
        next => cases hc
      · exact ⟨known, if_neg hp ▸ hknown, hdefined, hshape⟩
    · exact .inr ⟨k, Nat.lt_of_lt_of_le hk hcounter, he⟩

theorem commits (h : s.Lawful p) {proto : Prototype} {body : List Stmt} {result : Option Expr}
    {f : Func} {u : CodeUnit} (hb : s.generator.Builds proto body result f u)
    (hfresh : s.code.get? proto.name = none) (hable : (s.generator.optimized f).Able)
    {registry : Registry} (hr : registry.Keyed)
    (hs : s.Commits s' registry [s.generator.optimized f]) {q : Parser} (herrors : q.errors = [])
    (hspelled : q.cursor.Spelled IsWord)
    (hwords : ∀ name known, registry.get? name = some known → IsWord name)
    (hothers : ∀ name, name ≠ proto.name → registry.get? name = s.generator.registry.get? name)
    (hcounter : p.counter ≤ q.counter)
    (hknown : (∃ known, registry.get? proto.name = some known ∧ known.isDefined = true ∧
        known.proto.signature.sameShape proto.signature = true) ∨
      ∃ k, k < q.counter ∧ proto.name = Anonymous.nameOf k) :
    s'.Lawful q where
  settled := h.settled.commits hr hs
  off := by rw [hs.generator]; exact h.off
  errors := herrors
  spelled := hspelled
  words := by rw [hs.generator]; exact hwords
  committed := by
    intro name f' hf'
    rw [hs.code_get?, hs.generator] at *
    split at hf'
    next he =>
      cases hf'
      subst he
      refine ⟨rfl, hable, ?_⟩
      rw [hb.name_optimized, hb.signature_optimized]
      exact hknown
    next hne =>
      obtain ⟨hname, hable, hknown⟩ := h.committed name f' hf'
      refine ⟨hname, hable, ?_⟩
      have hne' : name ≠ proto.name := by
        rintro rfl
        rw [hfresh] at hf'
        cases hf'
      change (∃ known, registry.get? name = some known ∧ _) ∨ _
      rw [hothers name hne']
      exact hknown.imp_right (Exists.imp fun k => And.imp_left (Nat.lt_of_lt_of_le · hcounter))

theorem grows (h : s.Lawful p) {proto : Prototype} {body : List Stmt} {result : Option Expr}
    {f : Func} {u : CodeUnit} (hb : s.generator.Builds proto body result f u)
    (hfresh : s.code.get? proto.name = none) {registry : Registry}
    (hs : s.Commits s' registry [s.generator.optimized f]) : s.Grows s' := by
  refine ⟨fun name f' hf' => ?_, fun name f' hf' => ?_⟩
  · rw [hs.code_get?, hb.name_optimized, if_neg]
    · exact hf'
    · rintro rfl
      rw [hfresh] at hf'
      cases hf'
  · rw [hs.code_get?, hb.name_optimized] at hf'
    split at hf'
    next he =>
      cases hf'
      exact .inr ⟨he ▸ hfresh, h.founds hb hfresh⟩
    next => exact .inl hf'

theorem declared (h : s.Lawful p) {d : Declaration} {accepted : Bool}
    (hd : s.Declared s' d accepted) (hparsed : d.Parsed) (hwords : d.Spelled IsWord) {q : Parser}
    (herrors : q.errors = []) (hspelled : q.cursor.Spelled IsWord)
    (hcounter : p.counter ≤ q.counter) : s'.Lawful q ∧ s.Grows s' := by
  cases hd with
  | refused _ hs => exact ⟨h.unmoved hs herrors hspelled hcounter, .of_eq hs.engine⟩
  | recorded _ hs => exact ⟨h.unmoved hs herrors hspelled hcounter, .of_eq hs.engine⟩
  | prototype hc hs =>
    cases hwords with
    | prototype hword =>
      exact ⟨h.prototype hc hword hs herrors hspelled hcounter, .of_eq hs.engine⟩
  | @function proto body result notes f u hc hb hs =>
    have hword : IsWord proto.name := by
      cases hwords with
      | function hword _ _ => exact hword
    have hdefined : s.generator.registry.isDefined proto.name = false := by
      rw [Generator.checkRedefinition_eq, h.off] at hc
      simp only [Bool.true_eq_false, false_and, or_false] at hc
      split at hc
      next hdefined => exact hdefined
      next => cases hc
    have hfresh := h.fresh_of_isDefined hword hdefined
    have hable := able hb (fun _ => hparsed.returns rfl) (hparsed.params rfl)
    refine ⟨h.commits hb hfresh hable (h.settled.ready.registry.insert proto _) hs herrors hspelled
      (h.words_insert hword _) ?_ hcounter
        (.inl ⟨⟨proto, true⟩, ?_, rfl, Signature.sameShape_refl _⟩),
      h.grows hb hfresh hs⟩
    · intro name hne
      exact (Table.get?_insert ..).trans (if_neg (Ne.symm hne))
    · exact (Table.get?_insert ..).trans (if_pos rfl)

theorem evaluated (h : s.Lawful p) {e : Expr} {answer : Option Engine.Called}
    (ha : s.Evaluated s' (.wrap e p.counter) answer) {q : Parser} (herrors : q.errors = [])
    (hspelled : q.cursor.Spelled IsWord) (hcounter : p.counter < q.counter) :
    s'.Lawful q ∧ s.Grows s' := by
  cases ha with
  | refused _ hs => exact ⟨h.unmoved hs herrors hspelled (Nat.le_of_lt hcounter), .of_eq hs.engine⟩
  | called hb hs =>
    have hable := able hb (fun he => (by cases he)) List.not_mem_nil
    exact ⟨h.commits hb h.fresh_nameOf hable h.settled.ready.registry hs herrors hspelled h.words
      (fun _ _ => rfl) (Nat.le_of_lt hcounter) (.inr ⟨p.counter, hcounter, rfl⟩),
      h.grows hb h.fresh_nameOf hs⟩

theorem turn (h : s.Lawful p) :
    (s.turn p).session.Lawful (s.turn p).parser ∧ s.Grows (s.turn p).session := by
  have herrors := s.errors_turn p
  have hspelled := s.spelled_turn h.spelled
  have hreading := Parser.reading_spelled h.errors h.spelled
  have hcounter : p.afterwards.counter = p.counter := Parser.counter_afterwards h.errors
  have hcount : s.countForm.Lawful p :=
    h.unmoved (show s.Unmoved s.countForm from ⟨rfl, rfl⟩) h.errors h.spelled (Nat.le_refl _)
  have hstays : ∀ s', s.Unmoved s' → ∀ {q : Parser}, q.errors = [] → q.cursor.Spelled IsWord →
      p.counter ≤ q.counter → s'.Lawful q ∧ s.Grows s' := fun s' hs q he hw hc =>
    ⟨h.unmoved hs he hw hc, .of_eq hs.engine⟩
  rw [turn_eq] at herrors hspelled ⊢
  cases hr : p.reading with
  | nothing => rw [hr] at herrors hspelled; exact hstays _ ⟨rfl, rfl⟩ herrors hspelled hcounter.ge
  | broken =>
    rw [hr] at herrors hspelled
    exact hstays s.countForm.countFailed ⟨rfl, rfl⟩ herrors hspelled hcounter.ge
  | ending => rw [hr] at herrors hspelled; exact hstays _ ⟨rfl, rfl⟩ herrors hspelled hcounter.ge
  | faulty =>
    rw [hr] at herrors hspelled
    exact hstays s.countForm.countFailed ⟨rfl, rfl⟩ herrors hspelled hcounter.ge
  | declaration d =>
    rw [hr] at herrors hspelled hreading
    cases hreading with
    | declaration hwords =>
      obtain ⟨hlawful, hgrows⟩ := hcount.declared (hcount.settled.declared d)
        (Parser.parsed_of_reading hr) hwords herrors hspelled
        (by simp only; split <;> exact hcounter.ge)
      exact ⟨hlawful, hgrows.keeps, hgrows.brings⟩
  | expression a =>
    rw [hr] at herrors hspelled hreading
    cases hreading with
    | expression _ =>
      obtain ⟨hlawful, hgrows⟩ := hcount.evaluated (hcount.settled.evaluated _) herrors hspelled
        (Nat.lt_succ_of_le hcounter.ge)
      exact ⟨hlawful, hgrows.keeps, hgrows.brings⟩

end Lawful

structure Came (w : Session × Parser) (s : Session) (name : String) (f : Func) : Prop where
  before : w.1.code.get? name = none
  after : (w.1.turn w.2).session.code.get? name = some f
  founds : w.1.Founds f
  lawful : w.1.Lawful w.2
  kept : ∀ callee g, w.1.code.get? callee = some g → s.code.get? callee = some g

theorem Lawful.exists_came (h : s.Lawful p) {i : Nat} {s' : Session} {p' : Parser}
    (hfirst : ∀ name, s.code.get? name = none) (hv : (s.visits p)[i]? = some (s', p')) :
    s'.Lawful p' ∧ ∀ name f, s'.code.get? name = some f → ∃ j w, j < i ∧
      (s.visits p)[j]? = some w ∧ Came w s' name f := by
  refine visits_induction (P := fun i s' p' => s'.Lawful p' ∧ ∀ name f, s'.code.get? name = some f →
    ∃ j w, j < i ∧ (s.visits p)[j]? = some w ∧ Came w s' name f) ⟨h, ?_⟩ ?_ hv
  · intro name f hf
    rw [hfirst] at hf
    cases hf
  · rintro i s' p' hv ⟨hlawful, hcame⟩
    obtain ⟨hnext, hgrows⟩ := hlawful.turn
    refine ⟨hnext, fun name f hf => ?_⟩
    rcases hgrows.brings name f hf with hold | ⟨hnew, hfounds⟩
    · obtain ⟨j, w, hj, hw, hc⟩ := hcame name f hold
      exact ⟨j, w, Nat.lt_succ_of_lt hj, hw, hc.before, hc.after, hc.founds, hc.lawful,
        fun callee g hg => hgrows.keeps callee g (hc.kept callee g hg)⟩
    · exact ⟨i, (s', p'), Nat.lt_succ_self i, hv, hnew, hf, hfounds, hlawful, hgrows.keeps⟩

theorem lookup?_code {name : String} {g : Func} (hg : s.code.get? name = some g) :
    s.engine.lookup? name = some g.signature := by
  simp only [Engine.lookup?, show s.engine.program.code.get? name = some g from hg]

theorem lookup?_name (h : s.Lawful p) {name : String} {g : Signature}
    (hg : s.engine.lookup? name = some g) : g.name = name := by
  unfold Engine.lookup? at hg
  split at hg
  next f hf =>
    cases hg
    exact (h.committed name f hf).1
  next =>
    obtain ⟨host, _, rfl⟩ := Option.map_eq_some_iff.mp hg
    rfl

theorem Lawful.known?_name (h : s.Lawful p) {own known : Signature} {callee : String}
    (hk : s.known? own callee = some known) : known.name = callee := by
  unfold known? at hk
  split at hk
  next he =>
    cases hk
    exact he.symm
  next => exact h.settled.ready.registry callee known hk

theorem expects_iff {f : Func} {args : List Operand} {returns : NativeType} {known g : Signature}
    (hname : known.name = g.name) (h : f.Expects args returns known) :
    f.Expects args returns g ↔ known.sameShape g = true := by
  refine ⟨fun hg => ?_, h.of_sameShape⟩
  refine Signature.sameShape_iff.mpr ⟨hname, h.2.symm.trans hg.2, ?_⟩
  exact List.map_inj_right (fun _ _ he => Option.some.inj he) |>.mp (h.1.symm.trans hg.1)

/-- All calls of committed code find their callees, if they find them, as they expect them. -/
def Agreeing (s : Session) : Prop := ∀ f ∈ s.code.values, f.Agrees s.engine.lookup?

instance (s : Session) : Decidable s.Agreeing :=
  inferInstanceAs (Decidable (∀ f ∈ s.code.values, _))

theorem Agreeing.runs (h : s.Agreeing)
    (hable : ∀ name f, s.code.get? name = some f → f.Able)
    (hfounds : ∀ name f, s.code.get? name = some f → ∃ w : Session, w.Founds f) :
    s.engine.program.Runs := by
  intro name f hf
  obtain ⟨w, hw⟩ := (hable name f hf).sound
  refine ⟨w, hw, (hable name f hf).gives, ?_⟩
  intro i hi callee operands returns hop
  have hcall : f.HasCall callee operands returns := ⟨i, hi, hop⟩
  have hexpects := h f (Table.mem_values_of_get? hf) i hi callee operands returns hop
  unfold Program.Answers
  unfold Engine.lookup? at hexpects
  cases hg : s.engine.program.code.get? callee with
  | some g =>
    rw [hg] at hexpects
    obtain ⟨hargs, hreturns⟩ := hexpects _ rfl
    exact ⟨g.signature.paramTypes, hargs, rfl, hreturns.symm⟩
  | none =>
    rw [hg] at hexpects
    simp only
    cases hh : s.engine.program.host.get? callee with
    | some host =>
      obtain ⟨hargs, hreturns⟩ := hexpects (host.signature callee)
        (by simp only [HostTable.signature?, hh, Option.map_some]; exact rfl)
      refine ⟨_, hargs, ?_, hreturns⟩
      rw [HostFunction.signature, Signature.paramTypes, List.map_map]
      exact List.eq_replicate_iff.mpr ⟨by simp, fun type htype => (List.mem_map.mp htype).elim
        fun _ he => he.2.symm⟩
    | none =>
      obtain ⟨w', hw'⟩ := hfounds name f hf
      obtain ⟨known, _, ⟨hargs, _⟩, _⟩ := hw' callee operands returns hcall
      exact ⟨known.paramTypes, hargs, trivial⟩

theorem Evaluated.value_type {e : Expr} {counter : Nat} {answer : Option Engine.Called}
    (ha : s.Evaluated s' (.wrap e counter) answer) (hruns : s'.engine.program.Runs) {value : Value}
    {calls : List HostCall} (hanswer : answer = some ⟨.ok value, calls⟩) :
    value.type = .ofTy e.ty := by
  cases ha with
  | refused => cases hanswer
  | @called f u hb hs =>
    have hsignature := hb.signature_optimized
    have hcode : s'.engine.program.code.get? (Anonymous.nameOf counter) =
        some (s.generator.optimized f) := (hs.code_get? _).trans (if_pos hb.name_optimized)
    have hargs : ([] : List Const).map Const.type =
        (s.generator.optimized f).signature.paramTypes := by
      rw [hsignature]
      rfl
    obtain ⟨n, outcome, hcall, hproper⟩ := hruns.call hcode hargs
    have hinvoke : s'.invoke (Anonymous.nameOf counter) =
        s'.engine.call (Anonymous.nameOf counter) [] := by
      simp only [invoke, lookup?_code hcode, Engine.callAs, hsignature]
      rfl
    have hcalled : s'.engine.call (Anonymous.nameOf counter) [] = ⟨.ok value, calls⟩ :=
      hinvoke.symm.trans (Option.some.inj hanswer)
    have hconstants : Engine.constants (Anonymous.nameOf counter) [] = .ok [] := rfl
    simp only [Engine.call, hconstants] at hcalled
    rcases hcall s'.engine.steps with hc | ⟨_, hc⟩
    · rw [hc] at hcalled
      cases hproper with
      | value htype =>
        cases hcalled
        rw [hsignature] at htype
        exact htype
      | fault => cases hcalled
    · rw [hc] at hcalled
      cases hcalled

def printed? (v : Session × Parser) : Option NativeType :=
  match v.1.verdict v.2 with
  | .evaluated (some ⟨.ok value, _⟩) => some value.type
  | _ => none

def wrapped? (v : Session × Parser) : Option NativeType :=
  match v.2.reading with
  | .expression a => some (.ofTy a.proto.returns)
  | _ => none

/-- Where code can be run, the value that is printed has the type of the expression. -/
theorem Lawful.wrapped?_eq (h : s.Lawful p) (hruns : (s.turn p).session.engine.program.Runs)
    {type : NativeType} (hprinted : printed? (s, p) = some type) :
    wrapped? (s, p) = some type := by
  have hspelled := Parser.reading_spelled h.errors h.spelled
  unfold printed? verdict at hprinted
  unfold wrapped?
  rw [turn_eq] at hruns
  cases hr : p.reading with
  | expression a =>
    rw [hr] at hprinted hspelled hruns
    simp only at hprinted
    split at hprinted
    next value calls hverdict =>
      cases hspelled with
      | expression _ =>
        have htype := (h.settled.countForm.evaluated _).value_type hruns
          (Verdict.evaluated.inj hverdict)
        rw [← hprinted, htype]
        rfl
    next => cases hprinted
  | _ => rw [hr] at hprinted; cases hprinted

/-- Where redefinition is not allowed, a body that is committed is held to the signatures by which
its callees were known when it came: a call agrees with the signature that its callee has by now,
committed or given by the host, just if that has the same shape. Callees that were committed before
the body always have it. Where every call agrees, the value of an expression has the type of its
prototype. -/
theorem visitsOf_callers (text : String) (o : Options) (ho : o.allowRedefinition = false) {i : Nat}
    {v : Session × Parser} (hv : (visitsOf text o)[i]? = some v) :
    (∀ name f, v.1.code.get? name = some f → ∃ j w, j < i ∧ (visitsOf text o)[j]? = some w ∧
      w.1.code.get? name = none ∧ (w.1.turn w.2).session.code.get? name = some f ∧
      ∀ callee args returns, f.HasCall callee args returns → ∃ known,
        w.1.known? f.signature callee = some known ∧
        ∀ g, v.1.engine.lookup? callee = some g →
          (f.Expects args returns g ↔ known.sameShape g = true) ∧
          (w.1.code.get? callee ≠ none → known.sameShape g = true)) ∧
    ((v.1.turn v.2).session.Agreeing → ∀ type, printed? v = some type →
      wrapped? v = some type) := by
  obtain ⟨s, p⟩ := v
  have hstart := lawful_start o ho (TokenStream.spelled_ofSource (.ofText text))
  obtain ⟨hlawful, hcame⟩ := hstart.exists_came (fun _ => rfl) hv
  refine ⟨fun name f hf => ?_, fun hagreeing type hprinted => ?_⟩
  · obtain ⟨j, w, hj, hw, hc⟩ := hcame name f hf
    refine ⟨j, w, hj, hw, hc.before, hc.after, fun callee args returns hcall => ?_⟩
    obtain ⟨known, hknown, hexpects, hsame⟩ := hc.founds callee args returns hcall
    refine ⟨known, hknown, fun g hg => ⟨?_, fun hcommitted => ?_⟩⟩
    · have hname := (hc.lawful.known?_name hknown).trans (lookup?_name hlawful hg).symm
      exact expects_iff hname hexpects
    · obtain ⟨g', hg'⟩ := Option.ne_none_iff_exists'.mp hcommitted
      cases (lookup?_code (hc.kept callee g' hg')).symm.trans hg
      exact hsame g' hg'
  · obtain ⟨hnext, hgrows⟩ := hlawful.turn
    have hable := fun name f hf => (hnext.committed name f hf).2.1
    refine hlawful.wrapped?_eq (hagreeing.runs hable ?_) hprinted
    intro name f hf
    rcases hgrows.brings name f hf with hold | ⟨_, hnew⟩
    · obtain ⟨j, w, _, _, hc⟩ := hcame name f hold
      exact ⟨w.1, hc.founds⟩
    · exact ⟨s, hnew⟩

def forward : String :=
  "int f(int x); int g() \x7b return f(1); \x7d int f(int n) \x7b return n + 1; \x7d g();"

theorem visitsOf_callers_forward : ∃ v, (visitsOf forward {})[3]? = some v ∧
    (v.1.turn v.2).session.Agreeing ∧ wrapped? v = some .i32 := by
  have hrun : ∃ v ∈ (visitsOf forward {})[3]?, (v.1.turn v.2).session.Agreeing ∧
      printed? v = some .i32 := by decide +kernel
  obtain ⟨v, hv, hagreeing, hprinted⟩ := hrun
  exact ⟨v, hv, hagreeing, (visitsOf_callers forward {} rfl hv).2 hagreeing .i32 hprinted⟩

def turncoat : String :=
  "int f(int x); int g() \x7b return f(1); \x7d double f(int x) \x7b return 2.5; \x7d g();"

theorem visitsOf_turncoat : ∃ v ∈ visitsOf turncoat {},
    (∃ f ∈ v.1.code.get? "f", ∃ g ∈ v.1.code.get? "g", ∃ i ∈ g.instructions,
      i.op = .call "f" [.const (.i32 1)] .i32 ∧
        ¬ g.Expects [.const (.i32 1)] .i32 f.signature) ∧
    wrapped? v = some .i32 ∧ printed? v = some .f64 := by
  decide +kernel

end Session

end FormCompiler
