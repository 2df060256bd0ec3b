import FormCompiler.Generator
import FormCompiler.Parser
import FormCompiler.Proofs.Lowering.Calls
import FormCompiler.Proofs.Lowering.Redeclared

namespace FormCompiler

@[simp] theorem CodeUnit.get?_insert (u : CodeUnit) (f : Func) (name : String) :
    (u.insert f).get? name = if f.name = name then some f else u.get? name :=
  Table.get?_insert u.funcs f.name name f

@[simp] theorem CodeUnit.get?_erase (u : CodeUnit) (key name : String) :
    (u.erase key).get? name = if key = name then none else u.get? name :=
  Table.get?_erase u.funcs key name

theorem CodeUnit.contains_eq (u : CodeUnit) (name : String) :
    u.contains name = (u.get? name).isSome := rfl

theorem Registry.Keyed.insert {r : Registry} (h : r.Keyed) (p : Prototype) (isDefined : Bool) :
    Registry.Keyed (Table.insert r p.name ⟨p, isDefined⟩) := by
  intro name s hs
  simp only [Registry.signature?, Table.get?_insert] at hs
  split at hs
  next he => cases hs; exact he
  next => exact h name s hs

namespace Generator

theorem redeclare_get?_of_ne {u : CodeUnit} {s : Signature} {name : String}
    (h : s.name ≠ name) : (redeclare u s).1.get? name = u.get? name := by
  have hstale : (dropStale u s).1.get? name = u.get? name := by
    unfold dropStale
    split
    next f hf =>
      split
      · rfl
      · simp [h]
    next => rfl
  change ((dropStale u s).1.declare s).get? name = _
  unfold CodeUnit.declare
  split
  · exact hstale
  · rw [CodeUnit.get?_insert, Func.name, if_neg h]
    exact hstale

theorem redeclare_get? (u : CodeUnit) (s : Signature) :
    ∃ f : Func, (redeclare u s).1.get? s.name = some f ∧
      (u.get? s.name = some f ∧ f.signature.sameShape s = true ∨ f = { signature := s }) := by
  change ∃ f, ((dropStale u s).1.declare s).get? s.name = some f ∧ _
  unfold dropStale CodeUnit.declare
  cases hu : u.get? s.name with
  | none =>
    refine ⟨{ signature := s }, ?_, .inr rfl⟩
    simp [CodeUnit.contains_eq, hu, Func.name]
  | some f =>
    by_cases hs : f.signature.sameShape s = true
    · exact ⟨f, by simp [CodeUnit.contains_eq, hu, hs], .inl ⟨rfl, hs⟩⟩
    · refine ⟨{ signature := s }, ?_, .inr rfl⟩
      simp [CodeUnit.contains_eq, hs, Func.name]

def workUnit (g : Generator) (s : Signature) : CodeUnit := (redeclare g.unit s).1

def knownTo (g : Generator) (s : Signature) (name : String) : Option Signature :=
  (g.registry.resolve (g.workUnit s) name).1

structure Builds (g : Generator) (p : Prototype) (body : List Stmt) (result : Option Expr)
    (f : Func) (u : CodeUnit) : Prop where
  lowered : ∃ b, f = b.func ∧ LoweredBody (g.knownTo p.signature) g.options.unsignedCompare
    p.signature.returns p.signature.paramNames body result (.start p.signature) b
  declares : g.registry.Declares (g.workUnit p.signature) u
  verified : f.verify u = .ok ()

variable {g : Generator} {p : Prototype} {body : List Stmt} {result : Option Expr}

def atLevel (g : Generator) (level : OptLevel) : Generator :=
  { g with options := { g.options with level } }

theorem build_levels (hr : g.registry.Keyed) (p : Prototype) (body : List Stmt)
    (result : Option Expr) :
    (∃ e, ∀ level, ((g.atLevel level).build p body result).result = .error e) ∨
    ∃ f u, g.Builds p body result f u ∧ ∀ level,
      ((g.atLevel level).build p body result).result = .ok () ∧
      ((g.atLevel level).build p body result).generator =
        { g.atLevel level with unit := u.insert (Pass.runAll level.passes f).func } := by
  have hwithin : Lowering.Within ⟨g.workUnit p.signature, .start p.signature,
      p.signature.paramNames, (redeclare g.unit p.signature).2.toArray⟩
      ⟨g.registry, g.options.unsignedCompare⟩
      ⟨g.knownTo p.signature, p.signature.paramNames, g.options.unsignedCompare⟩
      (g.workUnit p.signature) :=
    ⟨hr, fun _ => rfl, .refl, rfl, rfl⟩
  cases hl : lowerBody ⟨g.registry, g.options.unsignedCompare⟩ p.signature body result
      ⟨g.workUnit p.signature, .start p.signature, p.signature.paramNames,
        (redeclare g.unit p.signature).2.toArray⟩ with
  | error e work =>
    refine .inl ⟨e, fun level => ?_⟩
    unfold build
    simp only
    split
    next he => cases hl.symm.trans he; rfl
    next he => cases hl.symm.trans he
  | ok u work =>
    obtain ⟨hlowered, hdeclares⟩ := lowerBody_lowered hl hwithin
    cases hv : work.builder.func.verify work.unit with
    | error e =>
      refine .inl ⟨.invalid e, fun level => ?_⟩
      unfold build
      simp only
      split
      next he => cases hl.symm.trans he
      next he =>
        cases hl.symm.trans he
        simp only [finish, hv]
    | ok u =>
      refine .inr ⟨work.builder.func, work.unit, ⟨⟨_, rfl, hlowered⟩, hdeclares, hv⟩, ?_⟩
      intro level
      unfold build
      simp only
      split
      next he => cases hl.symm.trans he
      next he =>
        cases hl.symm.trans he
        simp only [finish, hv]
        exact ⟨trivial, rfl⟩

theorem build_ok (hr : g.registry.Keyed) (h : (g.build p body result).result = .ok ()) :
    ∃ f u, g.Builds p body result f u ∧ (g.build p body result).generator =
      { g with unit := u.insert (Pass.runAll g.options.level.passes f).func } := by
  rcases build_levels hr p body result with ⟨e, he⟩ | ⟨f, u, hb, hlevels⟩
  · cases h.symm.trans (he g.options.level)
  · exact ⟨f, u, hb, (hlevels g.options.level).2⟩

theorem declaration_levels (hr : g.registry.Keyed) (d : Declaration) :
    (∃ e, ∀ level, ((g.atLevel level).declaration d).result = .error e) ∨
    (∀ level, ((g.atLevel level).declaration d).result = .ok none ∧
      ((g.atLevel level).declaration d).generator = g.atLevel level) ∨
    (∃ p : Prototype, ∀ level, ((g.atLevel level).declaration d).result = .ok (some p.name) ∧
      ((g.atLevel level).declaration d).generator =
        { g.atLevel level with
          unit := g.workUnit p.signature, registry := g.registry.declare p }) ∨
    ∃ p body result f u, g.Builds p body result f u ∧ ∀ level,
      ((g.atLevel level).declaration d).result = .ok (some p.name) ∧
      ((g.atLevel level).declaration d).generator =
        { g.atLevel level with
          unit := u.insert (Pass.runAll level.passes f).func,
          registry := g.registry.define p } := by
  cases d with
  | variableOf type name span => exact .inr (.inl fun level => ⟨rfl, rfl⟩)
  | variableAs type name init span => exact .inr (.inl fun level => ⟨rfl, rfl⟩)
  | prototype p =>
    have hc : ∀ level, (g.atLevel level).checkRedefinition p false = g.checkRedefinition p false :=
      fun level => rfl
    simp only [declaration, declarePrototype, hc]
    cases g.checkRedefinition p false with
    | error e => exact .inl ⟨e, fun level => rfl⟩
    | ok warnings => exact .inr (.inr (.inl ⟨p, fun level => ⟨rfl, rfl⟩⟩))
  | function p body result =>
    have hc : ∀ level, (g.atLevel level).checkRedefinition p true = g.checkRedefinition p true :=
      fun level => rfl
    simp only [declaration, defineFunction, hc]
    cases g.checkRedefinition p true with
    | error e => exact .inl ⟨e, fun level => rfl⟩
    | ok warnings =>
      rcases build_levels hr p body result with ⟨e, he⟩ | ⟨f, u, hb, hlevels⟩
      · exact .inl ⟨e, fun level => by simp only [he]; rfl⟩
      · refine .inr (.inr (.inr ⟨p, body, result, f, u, hb, fun level => ?_⟩))
        obtain ⟨hresult, hgenerator⟩ := hlevels level
        simp only [hresult, hgenerator]
        exact ⟨rfl, rfl⟩

theorem anonymous_levels (hr : g.registry.Keyed) (a : Anonymous) :
    (∃ e, ∀ level, ((g.atLevel level).anonymous a).result = .error e) ∨
    ∃ f u, g.Builds a.proto [] (some a.expr) f u ∧ ∀ level,
      ((g.atLevel level).anonymous a).result = .ok a.proto.name ∧
      ((g.atLevel level).anonymous a).generator =
        { g.atLevel level with unit := u.insert (Pass.runAll level.passes f).func } := by
  rcases build_levels hr a.proto [] (some a.expr) with ⟨e, he⟩ | ⟨f, u, hb, hlevels⟩
  · exact .inl ⟨e, fun level => by simp only [anonymous, he]; rfl⟩
  · refine .inr ⟨f, u, hb, fun level => ?_⟩
    obtain ⟨hresult, hgenerator⟩ := hlevels level
    exact ⟨by simp only [anonymous, hresult]; rfl, hgenerator⟩

theorem redeclare_frame (u : CodeUnit) (s : Signature) :
    (redeclare u s).1.name = u.name ∧ (redeclare u s).1.layout = u.layout := by
  have hdrop : (dropStale u s).1.name = u.name ∧ (dropStale u s).1.layout = u.layout := by
    unfold dropStale
    split
    next => split <;> exact ⟨rfl, rfl⟩
    next => exact ⟨rfl, rfl⟩
  change ((dropStale u s).1.declare s).name = _ ∧ ((dropStale u s).1.declare s).layout = _
  unfold CodeUnit.declare
  split
  next => exact hdrop
  next => exact hdrop

theorem restore_of_redeclares {s : Signature} {u : CodeUnit}
    (h : g.registry.Redeclares (g.workUnit s) u) : u.restore g.unit.funcs = g.unit := by
  obtain ⟨hname, hlayout⟩ := redeclare_frame g.unit s
  have hname' : u.name = g.unit.name := h.name.trans hname
  have hlayout' : u.layout = g.unit.layout := h.layout.trans hlayout
  rw [CodeUnit.restore, hname', hlayout']

theorem build_error {e : LowerError} (h : (g.build p body result).result = .error e) :
    (g.build p body result).generator = g := by
  have hadds := Lower.adds_lowerBody ⟨g.registry, g.options.unsignedCompare⟩ p.signature body result
  unfold build at h ⊢
  simp only at h ⊢
  split
  next e work he => rw [restore_of_redeclares (hadds.of_error he).unit]
  next work he =>
    have hrestore := restore_of_redeclares (hadds.of_ok he).unit
    simp only [he] at h
    split
    next => rw [hrestore]
    next f notes hf => simp only [hf] at h; cases h

theorem declaration_error {d : Declaration} {e : LowerError}
    (h : (g.declaration d).result = .error e) : (g.declaration d).generator = g := by
  cases d with
  | prototype p =>
    simp only [declaration, declarePrototype] at h ⊢
    split
    next => rfl
    next warnings hw => simp only [hw] at h; cases h
  | function p body result =>
    simp only [declaration, defineFunction] at h ⊢
    split
    next => rfl
    next warnings hw =>
      simp only [hw] at h
      cases hb : (g.build p body result).result with
      | error e' => exact build_error hb
      | ok u => simp only [hb] at h; cases h
  | variableOf type name span => rfl
  | variableAs type name init span => rfl

theorem prototype_refused {e : LowerError} (hc : g.checkRedefinition p false = .error e) :
    (g.declaration (.prototype p)).result = .error e := by
  simp only [declaration, declarePrototype, hc]
  rfl

theorem prototype_accepted {notes : List Note} (hc : g.checkRedefinition p false = .ok notes) :
    (g.declaration (.prototype p)).result = .ok (some p.name) := by
  simp only [declaration, declarePrototype, hc]
  rfl

theorem function_refused {e : LowerError} (hc : g.checkRedefinition p true = .error e) :
    (g.declaration (.function p body result)).result = .error e := by
  simp only [declaration, defineFunction, hc]
  rfl

theorem function_unbuilt {notes : List Note} {e : LowerError}
    (hc : g.checkRedefinition p true = .ok notes) (hb : (g.build p body result).result = .error e) :
    (g.declaration (.function p body result)).result = .error e := by
  simp only [declaration, defineFunction, hc, hb]
  rfl

theorem prototype_ok {name : Option String}
    (h : (g.declaration (.prototype p)).result = .ok name) :
    (g.declaration (.prototype p)).generator =
      { g with unit := g.workUnit p.signature, registry := g.registry.declare p } := by
  simp only [declaration, declarePrototype] at h ⊢
  split
  next e he => simp only [he] at h; cases h
  next => rfl

theorem function_ok {name : Option String} (hr : g.registry.Keyed)
    (h : (g.declaration (.function p body result)).result = .ok name) :
    ∃ f u, g.Builds p body result f u ∧ (g.declaration (.function p body result)).generator =
      { g with
        unit := u.insert (Pass.runAll g.options.level.passes f).func
        registry := g.registry.define p } := by
  simp only [declaration, defineFunction] at h ⊢
  cases hw : g.checkRedefinition p true with
  | error e => simp only [hw] at h; cases h
  | ok warnings =>
    simp only [hw] at h
    cases hb : (g.build p body result).result with
    | error e => simp only [hb] at h; cases h
    | ok u =>
      obtain ⟨f, u, hbuilds, hgenerator⟩ := build_ok hr hb
      exact ⟨f, u, hbuilds, by rw [hgenerator]⟩

theorem anonymous_ok {a : Anonymous} {name : String} (hr : g.registry.Keyed)
    (h : (g.anonymous a).result = .ok name) :
    ∃ f u, g.Builds a.proto [] (some a.expr) f u ∧ (g.anonymous a).generator =
      { g with unit := u.insert (Pass.runAll g.options.level.passes f).func } := by
  simp only [anonymous] at h
  cases hb : (g.build a.proto [] (some a.expr)).result with
  | error e => rw [hb] at h; cases h
  | ok u => exact build_ok hr hb

theorem anonymous_error {a : Anonymous} {e : LowerError}
    (h : (g.anonymous a).result = .error e) : (g.anonymous a).generator = g := by
  simp only [anonymous] at h
  cases hb : (g.build a.proto [] (some a.expr)).result with
  | error e => exact build_error hb
  | ok u => rw [hb] at h; cases h

structure Tidy (g : Generator) : Prop where
  registry : g.registry.Keyed
  unit : ∀ name f, g.unit.get? name = some f → f.name = name

theorem tidy_start (layout : DataLayout) (options : GeneratorOptions) :
    (start layout options).Tidy := by
  refine ⟨?_, ?_⟩
  · intro name s hs
    cases hs
  · intro name f hf
    cases hf

namespace Tidy

theorem workUnit (h : g.Tidy) (s : Signature) {name : String} {f : Func}
    (hf : (g.workUnit s).get? name = some f) :
    f.name = name ∧ (f.isDeclaration = false → g.unit.get? name = some f) := by
  by_cases hn : s.name = name
  · subst hn
    obtain ⟨f', hf', hcase⟩ := redeclare_get? g.unit s
    obtain rfl : f' = f := Option.some.inj (hf'.symm.trans hf)
    rcases hcase with ⟨hu, _⟩ | rfl
    · exact ⟨h.unit _ _ hu, fun _ => hu⟩
    · exact ⟨rfl, fun hd => (by cases hd)⟩
  · have hu : g.unit.get? name = some f := (redeclare_get?_of_ne hn).symm.trans hf
    exact ⟨h.unit _ _ hu, fun _ => hu⟩

theorem declared (h : g.Tidy) {s : Signature} {u : CodeUnit}
    (hu : g.registry.Declares (g.workUnit s) u) {name : String} {f : Func}
    (hf : u.get? name = some f) :
    f.name = name ∧ (f.isDeclaration = false → g.unit.get? name = some f) := by
  rcases hu.get? name with he | ⟨_, s', hs', he⟩
  · exact h.workUnit s (he.symm.trans hf)
  · obtain rfl : ({ signature := s' } : Func) = f := Option.some.inj (he.symm.trans hf)
    exact ⟨h.registry name s' hs', fun hd => (by cases hd)⟩

theorem declare (h : g.Tidy) (p : Prototype) :
    Tidy { g with unit := g.workUnit p.signature, registry := g.registry.declare p } :=
  ⟨h.registry.insert p _, fun _ _ hf => (h.workUnit _ hf).1⟩

theorem insert (h : g.Tidy) {f : Func} {u : CodeUnit} (hb : g.Builds p body result f u)
    {registry : Registry} (hr : registry.Keyed) (f' : Func) :
    Tidy { g with unit := u.insert f', registry } := by
  refine ⟨hr, ?_⟩
  intro name f'' hf''
  simp only [CodeUnit.get?_insert] at hf''
  split at hf''
  next he => cases hf''; exact he
  next => exact (h.declared hb.declares hf'').1

theorem takeUnit (h : g.Tidy) : g.takeUnit.generator.Tidy := by
  refine ⟨h.registry, ?_⟩
  intro name f hf
  cases hf

end Tidy

end Generator

def Engine.withBodies (e : Engine) (fs : List Func) : Engine :=
  { e with program := { e.program with
    code := fs.foldl (fun code f => code.insert f.name f) e.program.code } }

theorem Engine.commit_ok {e : Engine} {u : CodeUnit} (hl : u.layout = e.layout)
    (hv : ∀ f ∈ u.bodies, f.verify u = .ok ()) :
    (e.commit u).1 = .ok u.bodies.length ∧ (e.commit u).2.1 = e.withBodies u.bodies := by
  unfold Engine.commit
  rw [if_neg (not_not_intro hl), forM_eq_ok.mpr hv]
  exact ⟨rfl, rfl⟩

theorem Engine.commit_cases (e : Engine) (u : CodeUnit) :
    (∃ fault, (e.commit u).1 = .error fault ∧ (e.commit u).2.1 = e) ∨
    (u.layout = e.layout ∧ (∀ f ∈ u.bodies, f.verify u = .ok ()) ∧
      (e.commit u).1 = .ok u.bodies.length ∧ (e.commit u).2.1 = e.withBodies u.bodies) := by
  by_cases hl : u.layout = e.layout
  · cases hv : u.bodies.forM fun f => f.verify u with
    | error error =>
      left
      unfold Engine.commit
      rw [if_neg (not_not_intro hl), hv]
      exact ⟨_, rfl, rfl⟩
    | ok v =>
      have hbodies := forM_eq_ok.mp hv
      exact .inr ⟨hl, hbodies, Engine.commit_ok hl hbodies⟩
  · left
    unfold Engine.commit
    rw [if_pos hl]
    exact ⟨_, rfl, rfl⟩

def Declaration.Parsed (d : Declaration) : Prop :=
  ∃ p : Parser, p.next.result = some (.declaration d)

theorem Ty.ofWord_ne_void (word : TypeWord) : NativeType.ofTy (.ofWord word) ≠ .void := by
  cases word <;> decide

namespace Declaration

def proto? : Declaration → Option Prototype
  | .prototype p | .function p _ _ => some p
  | .variableOf .. | .variableAs .. => none

theorem parseHead_ok {c : Cursor} {head : Head c} (h : parseHead c = .ok head) :
    ∃ word, head.type = .ofWord word := by
  unfold parseHead at h
  split at h
  next word d hd _ =>
    split at h
    next => cases h; exact ⟨word, rfl⟩
    next => cases h
  next => cases h

theorem parseVariable_ok {scope : String} {start : Span} {type : Ty} {name : String}
    {symbols symbols' : SymbolTable} {c : Cursor} {decl : Declaration} {rest : c.Onward}
    (h : parseVariable scope start type name symbols c = .ok (decl, symbols', rest)) :
    decl.proto? = none := by
  unfold parseVariable at h
  split at h
  next => cases h; rfl
  next =>
    obtain ⟨init, _, h⟩ := bind_eq_ok.mp h
    obtain ⟨_, _, h⟩ := bind_eq_ok.mp h
    cases h
    rfl
  next => cases h

structure Worded (proto : Prototype) : Prop where
  returns : ∃ word, proto.returns = .ofWord word
  params : ∀ q ∈ proto.params, ∃ word, q.type = .ofWord word

theorem parseParams_ok {function : String} {before params : List Param}
    {symbols symbols' : SymbolTable} {c c' : Cursor}
    (h : parseParams function before symbols c = .ok (params, symbols', c'))
    (hb : ∀ q ∈ before, ∃ word, q.type = .ofWord word) :
    ∀ q ∈ params, ∃ word, q.type = .ofWord word := by
  -- one more parameter, and its type is named by a word too
  have hmore : ∀ {before : List Param} {word : TypeWord} {name : String},
      (∀ q ∈ before, ∃ word, q.type = .ofWord word) →
      ∀ q ∈ before ++ [⟨.ofWord word, name⟩], ∃ word, q.type = .ofWord word := by
    intro before word name hb q hq
    rcases List.mem_append.mp hq with hq | hq
    · exact hb q hq
    · exact ⟨word, by rw [List.mem_singleton.mp hq]⟩
  fun_induction parseParams function before symbols c with
  | case1 => cases h
  | case2 =>
    rename_i ih
    exact ih h (hmore hb)
  | case3 =>
    rw [Except.ok.injEq, Prod.mk.injEq] at h
    rw [← h.1]
    exact hmore hb
  | case4 => cases h
  | case5 => cases h

theorem parsePrototype_ok {start : Span} {returns : Ty} {name : String}
    {symbols symbols' : SymbolTable} {c c' : Cursor} {proto : Prototype}
    (h : parsePrototype start returns name symbols c = .ok (proto, symbols', c'))
    (hr : ∃ word, returns = .ofWord word) : Worded proto := by
  simp only [parsePrototype] at h
  split at h
  · obtain ⟨⟨params, symbols₁, d⟩, hparams, h⟩ := bind_eq_ok.mp h
    obtain ⟨_, _, h⟩ := bind_eq_ok.mp h
    cases hparams
    cases h
    exact ⟨hr, fun q hq => (by cases hq)⟩
  · obtain ⟨⟨params, symbols₁, d⟩, hparams, h⟩ := bind_eq_ok.mp h
    obtain ⟨_, _, h⟩ := bind_eq_ok.mp h
    cases h
    exact ⟨hr, parseParams_ok hparams fun q hq => (by cases hq)⟩

theorem parseGlobal_ok {symbols symbols' : SymbolTable} {c c' : Cursor} {decl : Declaration}
    (h : parseGlobal symbols c = .ok (decl, symbols', c')) {proto : Prototype}
    (hp : decl.proto? = some proto) : Worded proto := by
  unfold parseGlobal at h
  obtain ⟨⟨type, name, d, hd⟩, hhead, h⟩ := bind_eq_ok.mp h
  have hword : ∃ word, type = .ofWord word := by
    cases hp : parseHead c with
    | ok head =>
      rw [hp] at hhead
      cases hhead
      exact parseHead_ok hp
    | error e => rw [hp] at hhead; cases hhead
  simp only at h
  split at h
  · obtain ⟨⟨proto', symbols₁, e⟩, hproto, h⟩ := bind_eq_ok.mp h
    have hworded := parsePrototype_ok hproto hword
    simp only at h
    split at h
    next => cases h; cases hp; exact hworded
    next =>
      obtain ⟨body, _, h⟩ := bind_eq_ok.mp h
      cases h
      cases hp
      exact hworded
    next => cases h
  · obtain ⟨⟨decl', symbols₁, e⟩, hvariable, h⟩ := bind_eq_ok.mp h
    have hnone := parseVariable_ok hvariable
    cases h
    rw [hnone] at hp
    cases hp

end Declaration

namespace Parser

@[simp] theorem settle_result (r : Reply (Option Form)) : (settle r).result = r.result := by
  unfold settle
  split
  next => rfl
  next h => exact h.symm

theorem declaration_ok {p : Parser} {d : Declaration} (h : (p.declaration "").result = some d) :
    ∃ symbols c, Declaration.parseGlobal p.symbols p.cursor = .ok (d, symbols, c) := by
  simp only [Parser.declaration, Declaration.parse, if_true] at h
  cases hg : Declaration.parseGlobal p.symbols p.cursor with
  | ok parsed =>
    rw [hg] at h
    cases h
    exact ⟨_, _, rfl⟩
  | error e => rw [hg] at h; cases h

theorem topExpression_ne {p : Parser} {d : Declaration} :
    p.topExpression.result ≠ some (.declaration d) := by
  simp only [topExpression]
  split
  next e _ _ => cases e.isCall <;> simp
  next => simp [refuse]

end Parser

theorem Declaration.Parsed.worded {d : Declaration} (h : d.Parsed) {proto : Prototype}
    (hp : d.proto? = some proto) : Worded proto := by
  obtain ⟨p, h⟩ := h
  simp only [Parser.next] at h
  split at h
  next => cases h
  next => cases h
  next =>
    rw [Parser.settle_result, Option.map_eq_some_iff] at h
    obtain ⟨d', hd, he⟩ := h
    cases he
    obtain ⟨symbols, c, hg⟩ := Parser.declaration_ok hd
    exact parseGlobal_ok hg hp
  next =>
    rw [Parser.settle_result] at h
    exact absurd h Parser.topExpression_ne

theorem Declaration.Parsed.returns {d : Declaration} (h : d.Parsed) {proto : Prototype}
    (hp : d.proto? = some proto) : proto.signature.returns ≠ .void := by
  obtain ⟨word, hword⟩ := (h.worded hp).returns
  change NativeType.ofTy proto.returns ≠ .void
  rw [hword]
  exact Ty.ofWord_ne_void word

theorem Declaration.Parsed.params {d : Declaration} (h : d.Parsed) {proto : Prototype}
    (hp : d.proto? = some proto) : .void ∉ proto.signature.paramTypes := by
  intro hmem
  simp only [Signature.paramTypes, Prototype.signature, List.map_map, List.mem_map] at hmem
  obtain ⟨q, hq, hvoid⟩ := hmem
  obtain ⟨word, hword⟩ := (h.worded hp).params q hq
  apply Ty.ofWord_ne_void word
  rw [← hword]
  exact hvoid

end FormCompiler
