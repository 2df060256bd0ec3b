import FormCompiler.Proofs.Lowering.Types
import FormCompiler.Proofs.Session.Alike
import FormCompiler.Proofs.Session.Sources

namespace FormCompiler

theorem Naming.last?_append {ns ms : List Naming} {scope : String}
    (h : ∀ n ∈ ms, n.scope ≠ scope) (name : String) :
    last? (ns ++ ms) scope name = last? ns scope name := by
  induction ms generalizing ns with
  | nil => rw [List.append_nil]
  | cons n ms ih =>
    obtain ⟨hn, hms⟩ := List.forall_mem_cons.mp h
    rw [← List.singleton_append, ← List.append_assoc, ih hms, last?_concat,
      if_neg fun he => hn he.1]

theorem Stmt.namings_scope {scope : String} {n : Naming} {stmts : List Stmt}
    (h : n ∈ stmts.flatMap (Stmt.namings scope)) : n.scope = scope ∧ n.isFunction = false := by
  obtain ⟨stmt, _, hn⟩ := List.mem_flatMap.mp h
  unfold Stmt.namings at hn
  split at hn
  · cases List.mem_singleton.mp hn; exact ⟨rfl, rfl⟩
  · cases List.mem_singleton.mp hn; exact ⟨rfl, rfl⟩
  · cases hn
  · cases hn

theorem Prototype.last?_namings {p : Prototype} (hp : p.name ≠ "") (ns : List Naming)
    (stmts : List Stmt) (name : String) :
    Naming.last? (ns ++ p.namings ++ stmts.flatMap (Stmt.namings p.name)) "" name =
      if p.name = name then some ⟨"", p.name, p.returns, true⟩ else Naming.last? ns "" name := by
  have hparams : ∀ n ∈ p.params.map (Param.naming p.name), n.scope ≠ "" := by
    intro n hn
    obtain ⟨q, _, rfl⟩ := List.mem_map.mp hn
    exact hp
  have hstmts : ∀ n ∈ stmts.flatMap (Stmt.namings p.name), n.scope ≠ "" := by
    intro n hn
    rw [(Stmt.namings_scope hn).1]
    exact hp
  rw [Naming.last?_append hstmts, Prototype.namings, ← List.append_assoc, Naming.last?_concat,
    Naming.last?_append hparams]
  simp

def Registry.Backs (r : Registry) (ns : List Naming) : Prop :=
  ∀ name n, Naming.last? ns "" name = some n → n.isFunction = true →
    IsName name ∧ ∃ s, r.signature? name = some s ∧ s.returns = .ofTy n.type

namespace Registry.Backs

variable {r : Registry} {ns : List Naming}

theorem insert (h : r.Backs ns) {p : Prototype} (hp : IsName p.name) (isDefined : Bool)
    (stmts : List Stmt) : Registry.Backs (Table.insert r p.name ⟨p, isDefined⟩)
      (ns ++ p.namings ++ stmts.flatMap (Stmt.namings p.name)) := by
  intro name n hn hfunction
  rw [Prototype.last?_namings hp.ne_empty] at hn
  rw [Registry.signature?_insert]
  split at hn
  next he =>
    cases hn
    exact ⟨he ▸ hp, _, if_pos he, rfl⟩
  next hne =>
    rw [if_neg hne]
    exact h name n hn hfunction

theorem concat (h : r.Backs ns) (scope name : String) (type : Ty) :
    r.Backs (ns ++ [⟨scope, name, type, false⟩]) := by
  intro other n hn hfunction
  rw [Naming.last?_concat] at hn
  split at hn
  · cases hn
    cases hfunction
  · exact h other n hn hfunction

end Registry.Backs

namespace Session

def brought (s : Session) (p : Parser) : List Naming :=
  match p.reading with
  | .declaration d => if (s.countForm.declare d).result then d.namings else []
  | .expression _ | .nothing | .broken | .ending | .faulty => []

structure Tracks (s : Session) (p : Parser) (ns : List Naming) : Prop where
  settled : s.Settled
  knows : p.Knows ns
  functions : ∀ n ∈ ns, n.isFunction = true → n.scope = ""
  backs : s.generator.registry.Backs ns

namespace Tracks

variable {s s' : Session} {p : Parser} {ns : List Naming}

theorem records_turn (h : s.Tracks p ns) :
    (s.turn p).parser.symbols.Records (ns ++ s.brought p) := by
  have hkept : ∀ {t : SymbolTable}, t.entries = p.symbols.entries → t.Records (ns ++ []) := by
    intro t ht
    rw [List.append_nil]
    exact h.knows.records.of_entries ht
  have hback := Parser.rollback_afterwards h.knows.errors
  have hrejected := hkept ((congrArg SymbolTable.entries hback).trans rfl)
  rw [turn_eq, brought]
  cases hr : p.reading with
  | declaration d =>
    simp only
    cases (s.countForm.declare d).result with
    | true => exact (h.knows.reading.1 d hr).1
    | false => exact hrejected
  | faulty => exact hrejected
  | _ =>
    refine hkept (Parser.symbols_afterwards h.knows.errors fun d hd => ?_)
    rw [hr] at hd
    cases hd

theorem functions_namings (h : ∀ n ∈ ns, n.isFunction = true → n.scope = "") (proto : Prototype)
    (stmts : List Stmt) : ∀ n ∈ ns ++ proto.namings ++ stmts.flatMap (Stmt.namings proto.name),
      n.isFunction = true → n.scope = "" := by
  intro n hn hfunction
  rcases List.mem_append.mp hn with hn | hn
  · rcases List.mem_append.mp hn with hn | hn
    · exact h n hn hfunction
    · rcases List.mem_append.mp hn with hn | hn
      · obtain ⟨q, _, rfl⟩ := List.mem_map.mp hn
        cases hfunction
      · rw [List.mem_singleton.mp hn]
  · rw [(Stmt.namings_scope hn).2] at hfunction
    cases hfunction

theorem functions_turn (h : s.Tracks p ns) :
    (∀ n ∈ ns ++ s.brought p, n.isFunction = true → n.scope = "") ∧
      (s.turn p).session.generator.registry.Backs (ns ++ s.brought p) := by
  have hkept : ∀ {r : Registry}, r = s.generator.registry →
      (∀ n ∈ ns ++ [], n.isFunction = true → n.scope = "") ∧ r.Backs (ns ++ []) := by
    rintro r rfl
    rw [List.append_nil]
    exact ⟨h.functions, h.backs⟩
  have hreading := Parser.reading_spelled h.knows.errors h.knows.named
  rw [turn_eq, brought]
  generalize p.reading = reading at hreading ⊢
  cases hreading with
  | nothing => exact hkept rfl
  | ending => exact hkept rfl
  | broken => exact hkept rfl
  | @expression e _ =>
    have hevaluated := h.settled.countForm.evaluated (.wrap e p.counter)
    simp only
    generalize s.countForm.answer? (.wrap e p.counter) = answer at hevaluated
    cases hevaluated with
    | refused _ hs => exact hkept (congrArg Generator.registry hs.generator)
    | called _ hs => exact hkept ((congrArg Generator.registry hs.generator).trans rfl)
  | @declaration d hd =>
    have hdeclared := h.settled.countForm.declared d
    simp only
    generalize (s.countForm.declare d).result = accepted at hdeclared
    cases hdeclared with
    | refused _ hs => exact hkept (congrArg Generator.registry hs.generator)
    | recorded hp hs =>
      have hregistry := congrArg Generator.registry hs.generator
      have hvariable : ∀ name type,
          (∀ n ∈ ns ++ [⟨"", name, type, false⟩], n.isFunction = true → n.scope = "") ∧
            Registry.Backs (s.countForm.declare d).session.generator.registry
              (ns ++ [⟨"", name, type, false⟩]) := by
        intro name type
        refine ⟨fun n hn hfunction => ?_, hregistry ▸ h.backs.concat "" name type⟩
        rcases List.mem_append.mp hn with hn | hn
        · exact h.functions n hn hfunction
        · rw [List.mem_singleton.mp hn]
      cases d with
      | prototype proto => cases hp
      | function proto body result => cases hp
      | variableOf type name span => exact hvariable name type
      | variableAs type name init span => exact hvariable name type
    | @prototype proto _ _ hs =>
      cases hd with
      | prototype hname =>
        have hnamings := h.backs.insert hname (s.generator.registry.isDefined proto.name) []
        have hregistry := congrArg Generator.registry hs.generator
        have hfunctions := functions_namings h.functions proto []
        rw [List.flatMap_nil, List.append_nil] at hnamings hfunctions
        exact ⟨hfunctions, hregistry ▸ hnamings⟩
    | @function proto body _ _ _ _ _ _ hs =>
      cases hd with
      | function hname _ _ =>
        have hregistry := congrArg Generator.registry hs.generator
        have hnamings := h.backs.insert hname true body
        have hfunctions := functions_namings h.functions proto body
        rw [List.append_assoc] at hnamings hfunctions
        exact ⟨hfunctions, hregistry ▸ hnamings⟩

theorem turn (h : s.Tracks p ns) :
    (s.turn p).session.Tracks (s.turn p).parser (ns ++ s.brought p) where
  settled := h.settled.turn p
  knows := ⟨errors_turn s p, h.records_turn, spelled_turn s h.knows.named⟩
  functions := h.functions_turn.1
  backs := h.functions_turn.2

end Tracks

theorem tracks_start (o : Options) (source : Source) :
    (start o).Tracks (.ofStream (.ofSource source)) [] where
  settled :=
    .start (.ofDepth o.depth) ⟨o.level, o.unsignedCompare, o.allowRedefinition⟩ o.printCode {}
  knows := ⟨rfl, fun _ _ _ _ => rfl, (TokenStream.named_ofSource source).cursor⟩
  functions := fun _ hn => (by cases hn)
  backs := fun _ _ hn => (by cases hn)

def cameBefore (vs : List (Session × Parser)) (i : Nat) : List Naming :=
  (vs.take i).flatMap fun v => v.1.brought v.2

theorem Tracks.visits {s s' : Session} {p p' : Parser} (h : s.Tracks p []) {i : Nat}
    (hv : (s.visits p)[i]? = some (s', p')) : s'.Tracks p' (cameBefore (s.visits p) i) := by
  refine visits_induction (P := fun i s' p' => s'.Tracks p' (cameBefore (s.visits p) i)) h ?_ hv
  intro i s' p' hv ih
  have hnext := ih.turn
  rw [cameBefore, List.take_add_one, hv]
  simpa [cameBefore] using hnext

end Session

theorem Generator.Ready.knownTo_eq {g : Generator} (h : g.Ready) (s : Signature) (name : String) :
    g.knownTo s name = if s.name = name then some s else g.registry.signature? name := by
  rw [Generator.knownTo, Registry.resolve_fst, h.get?_workUnit]
  split <;> rfl

theorem Generator.exists_lowered {g : Generator} {p : Prototype}
    {body : List Stmt} {result : Option Expr} (h : (g.build p body result).result = .ok ()) :
    ∃ work, lowerBody g.lowerEnv p.signature body result (g.workStart p.signature) =
      .ok () work := by
  cases hl : lowerBody g.lowerEnv p.signature body result (g.workStart p.signature) with
  | ok u work => exact ⟨work, rfl⟩
  | error e work => cases h.symm.trans (build_refused hl)

/-- A function that is built for what was read: the scope in which its names are looked up, what
comes into it first, its prototype, its statements and its result. -/
structure Making where
  scope : String
  namings : List Naming
  proto : Prototype
  body : List Stmt
  result : Option Expr

def Reading.making? : Reading → Option Making
  | .declaration (.function proto body result) =>
    some ⟨proto.name, proto.namings, proto, body, result⟩
  | .expression a => some ⟨"", [], a.proto, [], some a.expr⟩
  | .declaration _ | .nothing | .broken | .ending | .faulty => none

def Making.knownBehind (m : Making) (ns : List Naming) (before : List Stmt) : List Naming :=
  ns ++ m.namings ++ before.flatMap (Stmt.namings m.scope)

def Naming.IsCallee (ns : List Naming) (scope name : String) : Prop :=
  ∃ n ∈ seen? ns scope name, n.isFunction = true

theorem Naming.IsCallee.last? {ns : List Naming} {scope name : String}
    (h : IsCallee ns scope name) (hns : ∀ n ∈ ns, n.isFunction = true → n.scope = "") :
    ∃ n, Naming.last? ns "" name = some n ∧ seen? ns scope name = some n ∧
      n.isFunction = true := by
  obtain ⟨n, hn, hfunction⟩ := h
  refine ⟨n, ?_, hn, hfunction⟩
  unfold seen? at hn
  cases hlast : Naming.last? ns scope name with
  | none =>
    rw [hlast] at hn
    exact hn
  | some n' =>
    rw [hlast] at hn
    cases hn
    obtain ⟨hmem, hscope, _⟩ := last?_eq_some hlast
    rw [← hns n hmem hfunction, hscope]
    exact hlast

namespace Session

namespace Tracks

variable {s : Session} {p : Parser} {ns : List Naming} {m : Making}

theorem resolved (h : s.Tracks p ns) (hm : p.reading.making? = some m) :
    ResolvedBody m.scope (ns ++ m.namings) m.body m.result := by
  have hreading := h.knows.reading
  cases hr : p.reading with
  | declaration d =>
    rw [hr] at hm
    cases d with
    | function proto body result =>
      cases hm
      exact (hreading.1 _ hr).2
    | _ => cases hm
  | expression a =>
    rw [hr] at hm
    cases hm
    intro e he
    cases he
    rw [List.append_nil]
    exact hreading.2 a hr
  | _ => rw [hr] at hm; cases hm

theorem tells (h : s.Tracks p ns) (hm : p.reading.making? = some m) :
    (s.generator.workStart m.proto.signature).Tells s.generator.lowerEnv
      (s.generator.knownTo m.proto.signature) (s.generator.workUnit m.proto.signature)
      (ns ++ m.namings) m.scope := by
  have hspelled := Parser.reading_spelled h.knows.errors h.knows.named
  refine ⟨⟨Generator.within_workStart h.settled.ready.registry _, .refl,
    _, Builder.open_start _⟩, ?_⟩
  change Naming.Fits _ _ m.proto.signature.paramNames (Builder.start _).func
  revert hm
  generalize p.reading = reading at hspelled
  intro hm
  cases hspelled with
  | declaration hd =>
    cases hd with
    | @function proto body result hname _ _ =>
      cases hm
      have hparams := Naming.Fits.params ns (p := proto) (f := (Builder.start _).func) rfl
      rw [Prototype.namings, ← List.append_assoc]
      exact hparams.concat fun he => hname.ne_empty he.symm
    | _ => cases hm
  | @expression e _ =>
    cases hm
    exact .empty
  | _ => cases hm

/-- A callee that has come last as a function is known by a signature that returns what it has come
with. -/
theorem callee (h : s.Tracks p ns) (hm : p.reading.making? = some m) {before after : List Stmt}
    (hbody : m.body = before ++ after) {callee : String}
    (hc : Naming.IsCallee (m.knownBehind ns before) m.scope callee) : ∃ n signature,
      Naming.seen? (m.knownBehind ns before) m.scope callee = some n ∧
      s.generator.knownTo m.proto.signature callee = some signature ∧
      signature.returns = .ofTy n.type := by
  unfold Making.knownBehind at hc ⊢
  have hspelled := Parser.reading_spelled h.knows.errors h.knows.named
  rw [h.settled.ready.knownTo_eq]
  revert hm
  generalize p.reading = reading at hspelled
  intro hm
  cases hspelled with
  | declaration hd =>
    cases hd with
    | @function proto body result hname _ _ =>
      cases hm
      obtain ⟨n, hn, hseen, hfunction⟩ :=
        hc.last? (functions_namings h.functions proto before)
      rw [Prototype.last?_namings hname.ne_empty] at hn
      split at hn
      next he =>
        cases hn
        exact ⟨_, _, hseen, if_pos he, rfl⟩
      next hne =>
        obtain ⟨_, signature, hsignature, hreturns⟩ := h.backs callee n hn hfunction
        exact ⟨n, signature, hseen, (if_neg hne).trans hsignature, hreturns⟩
    | _ => cases hm
  | @expression e _ =>
    cases hm
    obtain rfl : before = [] := (List.append_eq_nil_iff.mp hbody.symm).1
    simp only [List.flatMap_nil, List.append_nil] at hc ⊢
    obtain ⟨n, hn, hseen, hfunction⟩ := hc.last? h.functions
    obtain ⟨hname, signature, hsignature, hreturns⟩ := h.backs callee n hn hfunction
    have hne : Anonymous.nameOf p.counter ≠ callee :=
      fun he => hname.isWord.unreserved p.counter he.symm
    exact ⟨n, signature, hseen, (if_neg hne).trans hsignature, hreturns⟩
  | _ => cases hm

theorem returns (h : s.Tracks p ns) (hm : p.reading.making? = some m) {before after : List Stmt}
    (hbody : m.body = before ++ after) {e : Expr} {callee : String} (he : e.callee? = some callee)
    (hr : e.Resolved (Naming.type? (m.knownBehind ns before) m.scope))
    (hc : Naming.IsCallee (m.knownBehind ns before) m.scope callee) :
    ∃ signature, s.generator.knownTo m.proto.signature callee = some signature ∧
      signature.returns = .ofTy e.ty := by
  obtain ⟨n, signature, hseen, hsignature, hreturns⟩ := h.callee hm hbody hc
  cases hr with
  | call hlook _ =>
    cases he
    rw [Naming.type?, hseen] at hlook
    exact ⟨signature, hsignature, hreturns.trans (congrArg _ (Option.some.inj hlook))⟩
  | _ => cases he

end Tracks

/-- Wherever a part of an expression occurs in what is built for a form, it is lowered there, and
its operand has the type of the part unless the part is led by a call of a name that stands for no
function there. The signature that is found for a call of a function returns the type of the call.
-/
theorem visitsOf_types (text : String) (o : Options) {i : Nat} {s : Session} {p : Parser}
    (hv : (visitsOf text o)[i]? = some (s, p)) {m : Making} (hm : p.reading.making? = some m)
    (hok : (s.generator.build m.proto m.body m.result).result = .ok ()) {before : List Stmt}
    {part : Expr} (hpart : Occurs m.body m.result before part) :
    (∃ t, s.generator.Works m.proto m.body m.result before part t) ∧
    ∀ t, s.generator.Works m.proto m.body m.result before part t →
      (∃ operand t', part.lower s.generator.lowerEnv t = .ok operand t' ∧
        ((∀ callee, part.lead.callee? = some callee →
          Naming.IsCallee (m.knownBehind (cameBefore (visitsOf text o) i) before) m.scope callee) →
        t'.builder.func.operandType? operand = some (.ofTy part.ty))) ∧
      ∀ callee, part.callee? = some callee →
        Naming.IsCallee (m.knownBehind (cameBefore (visitsOf text o) i) before) m.scope callee →
        ∃ signature t', Lower.signature? s.generator.lowerEnv callee t = .ok (some signature) t' ∧
          signature.returns = .ofTy part.ty := by
  have htracks := (tracks_start o (.ofText text)).visits hv
  obtain ⟨work, hl⟩ := Generator.exists_lowered hok
  refine ⟨Generator.exists_works hpart hl, fun t hw => ?_⟩
  obtain ⟨hresolved, ⟨names, hwithin⟩, operand, t', hpart', htype⟩ :=
    hw.typed hl (htracks.tells hm) (htracks.resolved hm)
  obtain ⟨after, hbody⟩ := hpart.exists_append
  refine ⟨⟨operand, t', hpart', fun hlead => htype fun callee he => ?_⟩, fun callee he hc => ?_⟩
  · intro signature hsignature
    obtain ⟨signature', hsignature', hreturns⟩ :=
      htracks.returns hm hbody he hresolved.lead (hlead callee he)
    cases hsignature.symm.trans hsignature'
    rw [hreturns, Expr.ty_lead]
  · obtain ⟨signature, hsignature, hreturns⟩ := htracks.returns hm hbody he hresolved hc
    obtain ⟨t₁, ht₁⟩ := hwithin.exists_signature? callee
    refine ⟨signature, t₁, ?_, hreturns⟩
    rw [← hsignature]
    exact ht₁

def shadowed : String := "int f(int x) \x7b return x; \x7d double f; f(1);"

/-- Where the call is lowered it has the type of the variable, and the code that of the function. -/
theorem visitsOf_shadowed : ∃ v ∈ (visitsOf shadowed {})[2]?, ∃ m ∈ v.2.reading.making?,
    ∃ e ∈ m.result, (v.1.generator.build m.proto m.body m.result).result = .ok () ∧
      e.callee? = some "f" ∧ e.ty = .double ∧
      ∃ t, v.1.generator.Works m.proto m.body m.result m.body e t ∧
        ∃ operand t', e.lower v.1.generator.lowerEnv t = .ok operand t' ∧
          t'.builder.func.operandType? operand = some .i32 := by
  have hrun : ∃ v ∈ (visitsOf shadowed {})[2]?, ∃ m ∈ v.2.reading.making?, ∃ e ∈ m.result,
      (v.1.generator.build m.proto m.body m.result).result = .ok () ∧ e.callee? = some "f" ∧
      e.ty = .double ∧ m.body.length = 0 ∧
      (match e.lower v.1.generator.lowerEnv (v.1.generator.workStart m.proto.signature) with
        | .ok operand t' => t'.builder.func.operandType? operand
        | .error _ _ => none) = some .i32 := by decide +kernel
  obtain ⟨v, hv, m, hm, e, he, hok, hcallee, htype, hbody, hlowered⟩ := hrun
  refine ⟨v, hv, m, hm, e, he, hok, hcallee, htype, v.1.generator.workStart m.proto.signature, ?_⟩
  rw [Option.mem_def.mp he, List.length_eq_zero_iff.mp hbody]
  refine ⟨.result rfl .self, ?_⟩
  split at hlowered
  next operand t' ht => exact ⟨operand, t', ht, hlowered⟩
  next => cases hlowered

def parted : String :=
  "double y; int f(int x) \x7b return x; \x7d int g(int y) \x7b f(2); return f(3) + y; \x7d"

theorem visitsOf_types_parted : ∃ v ∈ (visitsOf parted {})[2]?, ∃ m ∈ v.2.reading.making?,
    ∃ e ∈ m.result, e.lead.callee? = some "f" ∧ e.ty = .int ∧
      ∃ t operand t', v.1.generator.Works m.proto m.body m.result m.body e t ∧
        e.lower v.1.generator.lowerEnv t = .ok operand t' ∧
        t'.builder.func.operandType? operand = some .i32 := by
  have hrun : ∃ v ∈ (visitsOf parted {})[2]?, ∃ m ∈ v.2.reading.making?, ∃ e ∈ m.result,
      (v.1.generator.build m.proto m.body m.result).result = .ok () ∧ e.lead.callee? = some "f" ∧
      e.ty = .int ∧ Naming.IsCallee (m.knownBehind (cameBefore (visitsOf parted {}) 2) m.body)
        m.scope "f" := by unfold Naming.IsCallee; decide +kernel
  obtain ⟨⟨s, p⟩, hv, m, hm, e, he, hok, hcallee, htype, hfunction⟩ := hrun
  have hoccurs : Occurs m.body m.result m.body e := by
    rw [Option.mem_def.mp he]
    exact .result .self
  obtain ⟨⟨t, ht⟩, htypes⟩ := visitsOf_types parted {} hv hm hok hoccurs
  obtain ⟨⟨operand, t', hlowered, hnative⟩, _⟩ := htypes t ht
  refine ⟨(s, p), hv, m, hm, e, he, hcallee, htype, t, operand, t', ht, hlowered, ?_⟩
  rw [hnative fun callee hc => ?_, htype]
  · rfl
  · cases hcallee.symm.trans hc
    exact hfunction

end Session

end FormCompiler
