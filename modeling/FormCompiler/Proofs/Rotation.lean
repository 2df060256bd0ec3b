import FormCompiler.Proofs.Placement

/-!
Units may be taken at any time. Wherever that is done between the forms, the same is made of each,
the same functions are handed out, and committing them gives the same code.
-/

namespace FormCompiler

namespace Generator

inductive Item
  | declaration (decl : Declaration)
  | expression (anon : Anonymous)

namespace Item

def proto? : Item → Option Prototype
  | .declaration d => d.proto?
  | .expression _ => none

def wrapped : Item → List String
  | .declaration _ => []
  | .expression a => [a.proto.name]

/-- The item is a form that was read from tokens whose names are words. A bare call is wrapped under
any number. -/
inductive Read : Item → Prop
  | declaration {p : Parser} {d : Declaration} : p.cursor.Spelled IsWord →
      p.next.result = some (.declaration d) → Read (.declaration d)
  | anonymous {p : Parser} {a : Anonymous} : p.cursor.Spelled IsWord →
      p.next.result = some (.anonymous a) → Read (.expression a)
  | call {p : Parser} {e : Expr} {number : Nat} : p.cursor.Spelled IsWord →
      p.next.result = some (.expression e) → Read (.expression (.wrap e number))

inductive Plain : Item → Prop
  | declaration {d : Declaration} : d.Spelled Unreserved → Plain (.declaration d)
  | expression {e : Expr} {number : Nat} : e.Spelled Unreserved →
      Plain (.expression (.wrap e number))

end Item

def lower (g : Generator) : Item → Reply (Except LowerError (Option String))
  | .declaration d => g.declaration d
  | .expression a =>
    let r := g.anonymous a
    ⟨r.result.map some, r.generator, r.notes⟩

end Generator

inductive Form.Spelled (W : String → Prop) : Form → Prop
  | declaration {d : Declaration} : d.Spelled W → Spelled W (.declaration d)
  | expression {e : Expr} : e.Spelled W → Spelled W (.expression e)
  | anonymous {e : Expr} {number : Nat} : e.Spelled W → Spelled W (.anonymous (.wrap e number))

theorem Piece.Spelled.form {W : String → Prop} {piece : Piece} (h : piece.Spelled W) {counter : Nat}
    {f : Form} (hf : piece.form? counter = some f) : f.Spelled W := by
  cases h with
  | ending =>
    cases hf
    exact .expression .endOfInput
  | skipped => cases hf
  | declaration hd =>
    cases hf
    exact .declaration hd
  | expression he =>
    rw [Piece.form?] at hf
    split at hf
    · cases hf
      exact .expression he
    · cases hf
      exact .anonymous he

theorem Parser.spelled_next {p : Parser} {f : Form} (hw : p.cursor.Spelled IsWord)
    (h : p.next.result = some f) : f.Spelled Unreserved := by
  have hspelled : p.cursor.Spelled Unreserved :=
    fun t ht name hname => (hw t ht name hname).unreserved
  have hreads := (Reader.keeps_form p.begin hspelled.advance).reads
  have hnext := p.next_eq
  cases hf : Reader.form p.begin with
  | ok piece t =>
    rw [hf] at hnext
    exact (hreads piece t hf).form ((Prod.mk.inj hnext).1.symm.trans h)
  | error e t =>
    rw [hf] at hnext
    cases h.symm.trans (Prod.mk.inj hnext).1

theorem Generator.Item.Read.plain {item : Item} (h : item.Read) : item.Plain := by
  cases h with
  | declaration hw h =>
    cases Parser.spelled_next hw h with
    | declaration hd => exact .declaration hd
  | anonymous hw h =>
    cases Parser.spelled_next hw h with
    | anonymous he => exact .expression he
  | call hw h =>
    cases Parser.spelled_next hw h with
    | expression he => exact .expression he

theorem Generator.Item.Plain.proto_unreserved {item : Item} (h : item.Plain) {p : Prototype}
    (hp : item.proto? = some p) : Unreserved p.name := by
  cases h with
  | expression _ => cases hp
  | declaration hd =>
    cases hd with
    | prototype hname | function hname _ _ =>
      cases hp
      exact hname
    | variableOf _ | variableAs _ => cases hp

namespace Generator

variable {protos : List Prototype} {used : List String} {g h : Generator} {p : Prototype}
  {body : List Stmt} {result : Option Expr} {f : Func} {u : CodeUnit}

theorem anonymous_of_makes {a : Anonymous} (hm : g.Makes a.proto [] (some a.expr) f u) :
    (g.anonymous a).result = .ok a.proto.name ∧
      (g.anonymous a).generator = { g with unit := u.insert (g.optimized f) } := by
  simp only [anonymous, hm.ok, hm.generator]
  exact ⟨rfl, trivial⟩

theorem optimized_eq (hoptions : h.options = g.options) (f : Func) :
    h.optimized f = g.optimized f := by
  rw [optimized, optimized, hoptions]

theorem Orderly.isDefined_eq_false (hg : g.Orderly protos used) {warnings : List Note}
    (hw : g.checkRedefinition p true = .ok warnings) : g.registry.isDefined p.name = false := by
  rw [checkRedefinition_eq, hg.off] at hw
  split at hw
  next h => exact h.resolve_right fun h => (by cases h.1)
  next => cases hw

structure Concur (protos : List Prototype) (used used' : List String) (g h : Generator)
    (item : Item) : Prop where
  result : (h.lower item).result = (g.lower item).result
  reaches : ∃ r placed, Reaches protos used used' g (g.lower item).generator r placed ∧
    Reaches protos used used' h (h.lower item).generator r placed

theorem Orderly.reserves (hg : g.Orderly protos used) (number : Nat) :
    ∀ name ∈ Anonymous.nameOf number :: used, ¬ Unreserved name :=
  List.forall_mem_cons.mpr ⟨not_unreserved_nameOf number, hg.reserved⟩

theorem Orderly.refused (hg : g.Orderly protos used) (hh : h.Orderly protos used)
    (hregistry : h.registry = g.registry) {used' : List String} (hused : used ⊆ used')
    (hreserved : ∀ name ∈ used', ¬ Unreserved name) {item : Item}
    (hresult : (h.lower item).result = (g.lower item).result)
    (hgenerator : (g.lower item).generator = g) (hgenerator' : (h.lower item).generator = h) :
    Concur protos used used' g h item := by
  refine ⟨hresult, g.registry, none, ?_⟩
  rw [hgenerator, hgenerator']
  exact ⟨hg.unmoved hused hreserved, hregistry ▸ hh.unmoved hused hreserved⟩

theorem Orderly.concur_prototype (hg : g.Orderly protos used) (hh : h.Orderly protos used)
    (hc : Coherent protos) (hregistry : h.registry = g.registry) (hoptions : h.options = g.options)
    (hp : p ∈ protos) : Concur protos used used g h (.declaration (.prototype p)) := by
  have hcheck : h.checkRedefinition p false = g.checkRedefinition p false := by
    rw [checkRedefinition_eq, checkRedefinition_eq, hregistry, hoptions]
  cases hw : g.checkRedefinition p false with
  | error e =>
    have hg' := prototype_refused hw
    have hh' := prototype_refused (hcheck.trans hw)
    exact hg.refused hh hregistry (List.Subset.refl _) hg.reserved (hh'.trans hg'.symm)
      (declaration_error hg') (declaration_error hh')
  | ok warnings =>
    have hg' := prototype_accepted hw
    have hh' := prototype_accepted (hcheck.trans hw)
    refine ⟨hh'.trans hg'.symm, g.registry.declare p, none, ?_⟩
    change Reaches protos used used g (g.declaration _).generator _ _ ∧
      Reaches protos used used h (h.declaration _).generator _ _
    rw [prototype_ok hg', prototype_ok hh']
    exact ⟨hg.prototype hc hp, hregistry ▸ hh.prototype hc hp⟩

theorem Orderly.concur_function (hg : g.Orderly protos used) (hh : h.Orderly protos used)
    (hc : Coherent protos) (hregistry : h.registry = g.registry) (hoptions : h.options = g.options)
    (hp : p ∈ protos) (hbody : ∀ stmt ∈ body, stmt.Spelled Unreserved)
    (hresult : ∀ e ∈ result, e.Spelled Unreserved) :
    Concur protos used used g h (.declaration (.function p body result)) := by
  have hcheck : h.checkRedefinition p true = g.checkRedefinition p true := by
    rw [checkRedefinition_eq, checkRedefinition_eq, hregistry, hoptions]
  -- nothing is left to be built, or nothing was built
  have hrefused {e : LowerError}
      (hg' : (g.declaration (.function p body result)).result = .error e)
      (hh' : (h.declaration (.function p body result)).result = .error e) :
      Concur protos used used g h (.declaration (.function p body result)) :=
    hg.refused hh hregistry (List.Subset.refl _) hg.reserved (hh'.trans hg'.symm)
      (declaration_error hg') (declaration_error hh')
  cases hw : g.checkRedefinition p true with
  | error e => exact hrefused (function_refused hw) (function_refused (hcheck.trans hw))
  | ok warnings =>
    have hnew := hg.isDefined_eq_false hw
    rcases hg.build hh hregistry hoptions (hg.admits hc hp) (hh.admits hc hp) hbody hresult with
      ⟨e, hg', hh'⟩ | ⟨f, u, v, hm, hm'⟩
    · exact hrefused (function_unbuilt hw hg') (function_unbuilt (hcheck.trans hw) hh')
    · obtain ⟨hok, hgenerator⟩ := declaration_of_makes hw hm
      obtain ⟨hok', hgenerator'⟩ := declaration_of_makes (hcheck.trans hw) hm'
      refine ⟨hok'.trans hok.symm, g.registry.define p, some (g.optimized f), ?_⟩
      change Reaches protos used used g (g.declaration _).generator _ _ ∧
        Reaches protos used used h (h.declaration _).generator _ _
      rw [hgenerator, hgenerator']
      refine ⟨hg.function hc hp hnew hm.builds, ?_⟩
      rw [← optimized_eq hoptions f, ← hregistry]
      exact hh.function hc hp (hregistry ▸ hnew) hm'.builds

theorem Orderly.concur_expression (hg : g.Orderly protos used) (hh : h.Orderly protos used)
    (hc : Coherent protos) (hregistry : h.registry = g.registry) (hoptions : h.options = g.options)
    {e : Expr} (he : e.Spelled Unreserved) {number : Nat}
    (hfresh : Anonymous.nameOf number ∉ used) :
    Concur protos used (Anonymous.nameOf number :: used) g h (.expression (.wrap e number)) := by
  have hname : ¬ Unreserved (Anonymous.wrap e number).proto.name := not_unreserved_nameOf number
  have hadmits {k : Generator} (hk : k.Orderly protos used) :
      k.Admits (Anonymous.wrap e number).proto.signature := by
    intro c hcall
    cases (hk.get?_fresh hc hname hfresh).symm.trans hcall
  have hexpr : ∀ e' ∈ some (Anonymous.wrap e number).expr, e'.Spelled Unreserved := by
    rintro e' ⟨⟩
    exact he
  rcases hg.build hh hregistry hoptions (hadmits hg) (hadmits hh) (List.forall_mem_nil _) hexpr with
    ⟨e', hg', hh'⟩ | ⟨f, u, v, hm, hm'⟩
  · have herror {k : Generator} (hk : (k.build (Anonymous.wrap e number).proto []
        (some (Anonymous.wrap e number).expr)).result = .error e') :
        (k.anonymous (.wrap e number)).result = .error e' := by
      simp only [anonymous, hk]
      rfl
    refine hg.refused hh hregistry (List.subset_cons_self _ _) (hg.reserves number) ?_
      (anonymous_error (herror hg')) (anonymous_error (herror hh'))
    simp only [lower, herror hg', herror hh']
  · obtain ⟨hok, hgenerator⟩ := anonymous_of_makes hm
    obtain ⟨hok', hgenerator'⟩ := anonymous_of_makes hm'
    refine ⟨by simp only [lower, hok, hok'], g.registry, some (g.optimized f), ?_⟩
    change Reaches protos used _ g (g.anonymous _).generator _ _ ∧
      Reaches protos used _ h (h.anonymous _).generator _ _
    rw [hgenerator, hgenerator']
    refine ⟨hg.expression hc hname hfresh hm.builds, ?_⟩
    rw [← optimized_eq hoptions f, ← hregistry]
    exact hh.expression hc hname hfresh hm'.builds

theorem Orderly.concur (hg : g.Orderly protos used) (hh : h.Orderly protos used)
    (hc : Coherent protos) (hregistry : h.registry = g.registry) (hoptions : h.options = g.options)
    {item : Item} (hplain : item.Plain) (hproto : ∀ p ∈ item.proto?, p ∈ protos)
    (hfresh : ∀ name ∈ item.wrapped, name ∉ used) :
    Concur protos used (item.wrapped ++ used) g h item := by
  cases hplain with
  | expression he =>
    exact hg.concur_expression hh hc hregistry hoptions he (hfresh _ (List.mem_singleton_self _))
  | declaration hd =>
    cases hd with
    | prototype _ => exact hg.concur_prototype hh hc hregistry hoptions (hproto _ rfl)
    | function _ hbody hresult =>
      exact hg.concur_function hh hc hregistry hoptions (hproto _ rfl) hbody hresult
    | variableOf | variableAs =>
      exact hg.refused hh hregistry (List.Subset.refl _) hg.reserved rfl rfl rfl

inductive Move
  | lower (item : Item)
  | takeUnit

def Move.item? : Move → Option Item
  | .lower item => some item
  | .takeUnit => none

/-- A generator, the units that it has given up, and what it has made of the items. -/
structure Shift where
  generator : Generator
  units : List CodeUnit := []
  results : List (Except LowerError (Option String)) := []

namespace Shift

def act (w : Shift) : Move → Shift
  | .lower item =>
    let r := w.generator.lower item
    { w with generator := r.generator, results := w.results ++ [r.result] }
  | .takeUnit =>
    let r := w.generator.takeUnit
    { w with generator := r.generator, units := w.units ++ [r.result] }

def run (w : Shift) (moves : List Move) : Shift := moves.foldl act w

def handedOut (w : Shift) : List CodeUnit := w.units ++ [w.generator.takeUnit.result]

def bodies (w : Shift) : List Func := w.handedOut.flatMap CodeUnit.bodies

structure Orderly (protos : List Prototype) (used : List String) (layout : DataLayout)
    (w : Shift) : Prop where
  generator : w.generator.Orderly protos used
  layout : ∀ u ∈ w.handedOut, u.layout = layout
  verified : ∀ u ∈ w.handedOut, ∀ f ∈ u.bodies, f.verify u = .ok ()
  names : (w.bodies.map Func.name).Nodup
  taken : ∀ f ∈ w.bodies, w.generator.Taken used f.name

variable {layout : DataLayout} {w w' : Shift} {item : Item}

theorem bodies_eq (w : Shift) :
    w.bodies = w.units.flatMap CodeUnit.bodies ++ w.generator.unit.bodies := by
  simp [bodies, handedOut, takeUnit]

theorem bodies_takeUnit (w : Shift) : (w.act .takeUnit).bodies = w.bodies := by
  have hempty : w.generator.takeUnit.generator.unit.bodies = [] := rfl
  rw [bodies_eq, act, hempty, List.append_nil]
  rfl

theorem mem_handedOut_takeUnit {u : CodeUnit} (hu : u ∈ (w.act .takeUnit).handedOut) :
    u ∈ w.handedOut ∨ u = w.generator.takeUnit.generator.unit := by
  rw [handedOut, act, List.mem_append, List.mem_singleton] at hu
  exact hu

theorem Orderly.takeUnit (hw : w.Orderly protos used layout) :
    (w.act .takeUnit).Orderly protos used layout := by
  refine ⟨⟨hw.generator.tidy.takeUnit, hw.generator.off, hw.generator.reserved,
    hw.generator.registry, nofun, nofun⟩, ?_, ?_, ?_, ?_⟩
  · intro u hu
    rcases mem_handedOut_takeUnit hu with hu | rfl
    · exact hw.layout u hu
    · exact hw.layout w.generator.unit (List.mem_append_right _ (List.mem_singleton_self _))
  · intro u hu
    rcases mem_handedOut_takeUnit hu with hu | rfl
    · exact hw.verified u hu
    · exact nofun
  · rw [bodies_takeUnit]
    exact hw.names
  · rw [bodies_takeUnit]
    exact hw.taken

variable {used' : List String} {r : Registry} {placed : Option Func}

theorem bodies_lower (h : Reaches protos used used' w.generator
      (w.generator.lower item).generator r placed) :
    (w.act (.lower item)).bodies.Perm (placed.toList ++ w.bodies) := by
  rw [bodies_eq, bodies_eq]
  refine (h.bodies.append_left _).trans ?_
  rw [← List.append_assoc, ← List.append_assoc]
  exact List.perm_append_comm.append_right _

theorem mem_handedOut_lower {u : CodeUnit} (hu : u ∈ (w.act (.lower item)).handedOut) :
    u ∈ w.units ∨ u = (w.generator.lower item).generator.unit := by
  rw [handedOut, act, List.mem_append, List.mem_singleton] at hu
  exact hu

theorem Orderly.lower (hw : w.Orderly protos used layout) (h : Reaches protos used used'
      w.generator (w.generator.lower item).generator r placed) :
    (w.act (.lower item)).Orderly protos used' layout := by
  have hbodies := bodies_lower h
  refine ⟨h.orderly, ?_, ?_, ?_, ?_⟩
  · intro u hu
    rcases mem_handedOut_lower hu with hu | rfl
    · exact hw.layout u (List.mem_append_left _ hu)
    · exact h.layout.trans (hw.layout _ (List.mem_append_right _ (List.mem_singleton_self _)))
  · intro u hu
    rcases mem_handedOut_lower hu with hu | rfl
    · exact hw.verified u (List.mem_append_left _ hu)
    · exact h.orderly.verified
  · rw [(hbodies.map Func.name).nodup_iff]
    cases placed with
    | none => exact hw.names
    | some f =>
      refine List.nodup_cons.mpr ⟨fun hmem => ?_, hw.names⟩
      obtain ⟨f', hf', hname⟩ := List.mem_map.mp hmem
      exact (h.fresh f rfl).1 (hname ▸ hw.taken f' hf')
  · intro f hf
    rcases List.mem_append.mp (hbodies.mem_iff.mp hf) with hf | hf
    · exact (h.fresh f (Option.mem_toList.mp hf)).2
    · exact h.taken _ (hw.taken f hf)

structure Abreast (protos : List Prototype) (used : List String) (layout : DataLayout)
    (w w' : Shift) : Prop where
  left : w.Orderly protos used layout
  right : w'.Orderly protos used layout
  registry : w'.generator.registry = w.generator.registry
  options : w'.generator.options = w.generator.options
  results : w'.results = w.results
  bodies : w'.bodies.Perm w.bodies

namespace Abreast

theorem symm (h : w.Abreast protos used layout w') : w'.Abreast protos used layout w :=
  ⟨h.right, h.left, h.registry.symm, h.options.symm, h.results.symm, h.bodies.symm⟩

theorem takeLeft (h : w.Abreast protos used layout w') :
    (w.act .takeUnit).Abreast protos used layout w' where
  left := h.left.takeUnit
  right := h.right
  registry := h.registry
  options := h.options
  results := h.results
  bodies := by
    rw [bodies_takeUnit]
    exact h.bodies

theorem takeRight (h : w.Abreast protos used layout w') :
    w.Abreast protos used layout (w'.act .takeUnit) :=
  h.symm.takeLeft.symm

theorem takesRight (h : w.Abreast protos used layout w') {moves : List Move}
    (hnone : ∀ move ∈ moves, move.item? = none) : w.Abreast protos used layout (w'.run moves) := by
  induction moves generalizing w' with
  | nil => exact h
  | cons move moves ih =>
    obtain ⟨hmove, hmoves⟩ := List.forall_mem_cons.mp hnone
    cases move with
    | takeUnit => exact ih h.takeRight hmoves
    | lower item => cases hmove

theorem lower (h : w.Abreast protos used layout w') (hc : Coherent protos)
    (hplain : item.Plain) (hproto : ∀ p ∈ item.proto?, p ∈ protos)
    (hfresh : ∀ name ∈ item.wrapped, name ∉ used) :
    (w.act (.lower item)).Abreast protos (item.wrapped ++ used) layout (w'.act (.lower item)) := by
  obtain ⟨hresult, r, placed, hreaches, hreaches'⟩ :=
    h.left.generator.concur h.right.generator hc h.registry h.options hplain hproto hfresh
  exact {
    left := h.left.lower hreaches
    right := h.right.lower hreaches'
    registry := hreaches'.registry.trans hreaches.registry.symm
    options := (hreaches'.options.trans h.options).trans hreaches.options.symm
    results := by simp only [act, h.results, hresult]
    bodies := (bodies_lower hreaches').trans
      ((h.bodies.append_left _).trans (bodies_lower hreaches).symm) }

theorem run (h : w.Abreast protos used layout w') (hc : Coherent protos) {moves moves' : List Move}
    (hitems : moves'.filterMap Move.item? = moves.filterMap Move.item?)
    (hplain : ∀ item ∈ moves.filterMap Move.item?, item.Plain)
    (hprotos : ∀ item ∈ moves.filterMap Move.item?, ∀ p ∈ item.proto?, p ∈ protos)
    (hfresh : ((moves.filterMap Move.item?).flatMap Item.wrapped ++ used).Nodup) :
    ∃ used', (w.run moves).Abreast protos used' layout (w'.run moves') := by
  induction moves generalizing w w' used moves' with
  | nil => exact ⟨used, h.takesRight (List.filterMap_eq_nil_iff.mp hitems)⟩
  | cons move moves ih =>
    cases move with
    | takeUnit => exact ih h.takeLeft hitems hplain hprotos hfresh
    | lower item =>
      -- the other run may give up units before it comes to this item
      obtain ⟨before, move, after, rfl, hnone, hmove, hafter⟩ :=
        List.filterMap_eq_cons_iff.mp hitems
      obtain rfl : move = .lower item := by
        cases move with
        | lower item' => exact congrArg Move.lower (Option.some.inj hmove)
        | takeUnit => cases hmove
      obtain ⟨hplain, hplains⟩ := List.forall_mem_cons.mp hplain
      obtain ⟨hproto, hprotos⟩ := List.forall_mem_cons.mp hprotos
      have hsplit : (item.wrapped ++ ((moves.filterMap Move.item?).flatMap Item.wrapped ++
          used)).Nodup := by
        simpa [Move.item?] using hfresh
      have hnew : ∀ name ∈ item.wrapped, name ∉ used := fun name hname hmem =>
        (List.nodup_append.mp hsplit).2.2 name hname name (List.mem_append_right _ hmem) rfl
      have hnext := (h.takesRight hnone).lower hc hplain hproto hnew
      rw [Shift.run, Shift.run, List.foldl_append]
      refine ih hnext hafter hplains hprotos ?_
      exact (List.perm_append_comm_assoc ..).nodup_iff.mp hsplit

end Abreast

end Shift

end Generator

namespace Engine

def commitAll (e : Engine) (us : List CodeUnit) : Except Fault Engine :=
  us.foldlM (fun e u => (e.commit u).1.map fun _ => (e.commit u).2.1) e

theorem commitAll_ok {e : Engine} {us : List CodeUnit} (hl : ∀ u ∈ us, u.layout = e.layout)
    (hv : ∀ u ∈ us, ∀ f ∈ u.bodies, f.verify u = .ok ()) :
    e.commitAll us = .ok (e.withBodies (us.flatMap CodeUnit.bodies)) := by
  induction us generalizing e with
  | nil => rfl
  | cons u us ih =>
    obtain ⟨hl, hls⟩ := List.forall_mem_cons.mp hl
    obtain ⟨hv, hvs⟩ := List.forall_mem_cons.mp hv
    obtain ⟨hresult, hengine⟩ := commit_ok hl hv
    have hrest : (e.withBodies u.bodies).commitAll us = _ := ih hls hvs
    rw [commitAll, List.foldlM_cons, hresult, hengine]
    refine hrest.trans (congrArg Except.ok ?_)
    simp only [withBodies, List.flatMap_cons, List.foldl_append]

end Engine

theorem Table.get?_foldl_insert {fs : List Func} (hnames : (fs.map Func.name).Nodup)
    {code : Table Func} {name : String} {f : Func} :
    (fs.foldl (fun code f => code.insert f.name f) code).get? name = some f ↔
      f ∈ fs ∧ f.name = name ∨ (∀ f' ∈ fs, f'.name ≠ name) ∧ code.get? name = some f := by
  induction fs generalizing code with
  | nil => simp
  | cons g fs ih =>
    obtain ⟨hfresh, hnames⟩ := List.nodup_cons.mp hnames
    rw [List.foldl_cons, ih hnames, Table.get?_insert, List.mem_cons, List.forall_mem_cons]
    by_cases he : g.name = name
    · have hother : ∀ f' ∈ fs, f'.name ≠ name := fun f' hf' h =>
        hfresh (List.mem_map.mpr ⟨f', hf', h.trans he.symm⟩)
      rw [if_pos he]
      constructor
      · rintro (⟨hf, hname⟩ | ⟨_, hf⟩)
        · exact absurd hname (hother f hf)
        · cases hf
          exact .inl ⟨.inl rfl, he⟩
      · rintro (⟨rfl | hf, hname⟩ | ⟨⟨hne, _⟩, _⟩)
        · exact .inr ⟨hother, rfl⟩
        · exact absurd hname (hother f hf)
        · exact absurd he hne
    · rw [if_neg he]
      constructor
      · rintro (⟨hf, hname⟩ | ⟨hother, hf⟩)
        · exact .inl ⟨.inr hf, hname⟩
        · exact .inr ⟨⟨he, hother⟩, hf⟩
      · rintro (⟨rfl | hf, hname⟩ | ⟨⟨_, hother⟩, hf⟩)
        · exact absurd hname he
        · exact .inl ⟨hf, hname⟩
        · exact .inr ⟨hother, hf⟩

theorem Engine.withBodies_perm {e : Engine} {fs fs' : List Func} (h : fs'.Perm fs)
    (hnames : (fs.map Func.name).Nodup) (name : String) :
    (e.withBodies fs').program.code.get? name = (e.withBodies fs).program.code.get? name := by
  have hnames' : (fs'.map Func.name).Nodup := (h.map Func.name).nodup_iff.mpr hnames
  refine Option.ext fun f => ?_
  change (fs'.foldl _ e.program.code).get? name = _ ↔ (fs.foldl _ e.program.code).get? name = _
  rw [Table.get?_foldl_insert hnames', Table.get?_foldl_insert hnames]
  simp only [h.mem_iff]

namespace Generator.Shift

variable {options : GeneratorOptions} {protos : List Prototype} {layout : DataLayout}

def start (layout : DataLayout) (options : GeneratorOptions) : Shift :=
  ⟨.start layout options, [], []⟩

theorem orderly_start (hoff : options.allowRedefinition = false) :
    (start layout options).Orderly protos [] layout where
  generator := ⟨tidy_start layout options, hoff, nofun, nofun, nofun, nofun⟩
  layout u hu := by
    cases List.mem_singleton.mp hu
    rfl
  verified u hu := by
    cases List.mem_singleton.mp hu
    exact nofun
  names := List.nodup_nil
  taken := nofun

theorem abreast_start (hoff : options.allowRedefinition = false) :
    (start layout options).Abreast protos [] layout (start layout options) :=
  ⟨orderly_start hoff, orderly_start hoff, rfl, rfl, rfl, .refl _⟩

theorem Orderly.commitAll {used : List String} {w : Shift} (hw : w.Orderly protos used layout)
    {e : Engine} (he : e.layout = layout) :
    e.commitAll w.handedOut = .ok (e.withBodies w.bodies) :=
  Engine.commitAll_ok (fun u hu => (hw.layout u hu).trans he.symm) hw.verified

/-- At which points between the forms units are given up makes no difference: to no form, nor to
what is known in the end, nor to the functions that are handed out. All units can be committed, and
the code is the same. -/
theorem rotation_invisible (layout : DataLayout) (options : GeneratorOptions)
    (hoff : options.allowRedefinition = false) {items : List Item} {moves moves' : List Move}
    (hmoves : moves.filterMap Move.item? = items) (hmoves' : moves'.filterMap Move.item? = items)
    (hread : ∀ item ∈ items, item.Read)
    (hshapes : ∀ p ∈ items.filterMap Item.proto?, ∀ q ∈ items.filterMap Item.proto?,
      p.name = q.name → p.signature.sameShape q.signature = true)
    (hwrapped : (items.flatMap Item.wrapped).Nodup) :
    let w := (start layout options).run moves
    let w' := (start layout options).run moves'
    w'.results = w.results ∧ w'.generator.registry = w.generator.registry ∧
    w'.bodies.Perm w.bodies ∧
    ∀ e : Engine, e.layout = layout → ∃ code code' : Table Func,
      e.commitAll w.handedOut = .ok { e with program := { e.program with code } } ∧
      e.commitAll w'.handedOut = .ok { e with program := { e.program with code := code' } } ∧
      ∀ name, code'.get? name = code.get? name := by
  subst hmoves
  intro w w'
  have hcoherent : Coherent ((moves.filterMap Move.item?).filterMap Item.proto?) := by
    refine ⟨fun p hp => ?_, hshapes⟩
    obtain ⟨item, hitem, hproto⟩ := List.mem_filterMap.mp hp
    exact (hread item hitem).plain.proto_unreserved hproto
  obtain ⟨used, h⟩ := (abreast_start hoff).run hcoherent hmoves'
    (fun item hitem => (hread item hitem).plain)
    (fun item hitem p hp => List.mem_filterMap.mpr ⟨item, hitem, hp⟩)
    (by rwa [List.append_nil])
  exact ⟨h.results, h.registry, h.bodies, fun e he => ⟨_, _, h.left.commitAll he,
    h.right.commitAll he, Engine.withBodies_perm h.bodies h.left.names⟩⟩

def borrowing : List Item := [
  .declaration (.prototype ⟨.int, "f", [⟨.int, "x"⟩], .nowhere⟩),
  .declaration (.function ⟨.int, "g", [], .nowhere⟩ []
    (some (.call "f" [.int 1 .nowhere] .int .nowhere))),
  .declaration (.function ⟨.int, "f", [⟨.int, "n"⟩], .nowhere⟩ [] (some (.var "n" .int .nowhere))),
  .expression (.wrap (.call "g" [] .int .nowhere) 0)]

theorem borrowing_read : ∀ item ∈ borrowing, item.Read := by
  let after (symbols : SymbolTable) (kinds : List Kind) : Parser :=
    { Parser.ofStream { pending := kinds.map (⟨·, .nowhere⟩), ending := .nowhere } with symbols }
  have hspelled {symbols : SymbolTable} {kinds : List Kind}
      (hnames : ∀ name, .name name ∈ kinds → name ∈ ["f", "g", "n", "x"]) :
      (after symbols kinds).cursor.Spelled IsWord := by
    intro t ht name hname
    rcases List.mem_cons.mp ht with rfl | ht
    · cases hname
    · obtain ⟨kind, hkind, rfl⟩ := List.mem_map.mp ht
      have hletters : ∀ name ∈ ["f", "g", "n", "x"], IsWord name := by
        -- as an evaluation, not as a search through all characters
        simp only [IsWord, ← List.all_eq_true]
        decide
      exact hletters name (hnames name (hname ▸ hkind))
  let known : SymbolTable := (({} : SymbolTable).declare "" "f" .int).declare "" "g" .int
  have hf : (Item.declaration (.prototype ⟨.int, "f", [⟨.int, "x"⟩], .nowhere⟩)).Read :=
    .declaration (p := after {} [.typeWord .int, .name "f", .openParen, .typeWord .int, .name "x",
      .closeParen, .semicolon]) (hspelled (by simp)) (by with_unfolding_all rfl)
  have hg : (Item.declaration (.function ⟨.int, "g", [], .nowhere⟩ []
      (some (.call "f" [.int 1 .nowhere] .int .nowhere)))).Read :=
    .declaration (p := after known [.typeWord .int, .name "g", .openParen, .closeParen, .openBrace,
      .returnWord, .name "f", .openParen, .int "1", .closeParen, .semicolon, .closeBrace])
      (hspelled (by simp)) (by with_unfolding_all rfl)
  have hf' : (Item.declaration (.function ⟨.int, "f", [⟨.int, "n"⟩], .nowhere⟩ []
      (some (.var "n" .int .nowhere)))).Read :=
    .declaration (p := after known [.typeWord .int, .name "f", .openParen, .typeWord .int,
      .name "n", .closeParen, .openBrace, .returnWord, .name "n", .semicolon, .closeBrace])
      (hspelled (by simp)) (by with_unfolding_all rfl)
  have hcall : (Item.expression (.wrap (.call "g" [] .int .nowhere) 0)).Read :=
    .call (p := after known [.name "g", .openParen, .closeParen, .semicolon])
      (hspelled (by simp)) (by with_unfolding_all rfl)
  simp only [borrowing, List.forall_mem_cons]
  exact ⟨hf, hg, hf', hcall, List.forall_mem_nil _⟩

theorem rotation_invisible_borrowing :
    let w := (start .host {}).run (borrowing.map .lower)
    let w' := (start .host {}).run (borrowing.flatMap fun item => [.lower item, .takeUnit])
    w.results.all Except.isOk = true ∧ w.handedOut.length = 1 ∧ w'.handedOut.length = 5 ∧
    w'.results = w.results ∧ w'.bodies.Perm w.bodies := by
  obtain ⟨hresults, -, hbodies, -⟩ := @rotation_invisible .host {} rfl borrowing
    (borrowing.map .lower) (borrowing.flatMap fun item => [.lower item, .takeUnit]) rfl rfl
    borrowing_read (by decide +kernel) (by decide +kernel)
  exact ⟨by decide +kernel, by decide +kernel, by decide +kernel, hresults, hbodies⟩

end Generator.Shift

end FormCompiler
