import FormCompiler.Proofs.Lowering.Placed
import FormCompiler.Proofs.Parser.Words
import FormCompiler.Proofs.Session.Sources
import FormCompiler.Proofs.Verification
import Mathlib.Data.List.Nodup

namespace FormCompiler

namespace CodeUnit

variable {u v : CodeUnit} {f : Func}

theorem mem_entries {name : String} : (name, f) ∈ u.funcs.entries ↔ u.get? name = some f :=
  ⟨Entries.find?_of_mem u.funcs.nodup, Entries.mem_of_find?⟩

def bodyEntries (u : CodeUnit) : List (String × Func) :=
  u.funcs.entries.filter fun e => !e.2.isDeclaration

theorem bodies_eq (u : CodeUnit) : u.bodies = u.bodyEntries.map Prod.snd := List.filter_map

theorem nodup_bodyEntries (u : CodeUnit) : u.bodyEntries.Nodup :=
  (List.Nodup.of_map Prod.fst u.funcs.nodup).filter _

theorem mem_bodyEntries {name : String} :
    (name, f) ∈ u.bodyEntries ↔ u.get? name = some f ∧ f.isDeclaration = false := by
  rw [bodyEntries, List.mem_filter, mem_entries]
  simp

theorem bodies_perm (h : ∀ name f, f.isDeclaration = false →
    (v.get? name = some f ↔ u.get? name = some f)) : v.bodies.Perm u.bodies := by
  rw [bodies_eq, bodies_eq]
  refine (List.perm_ext_iff_of_nodup v.nodup_bodyEntries u.nodup_bodyEntries).mpr ?_ |>.map _
  rintro ⟨name, f⟩
  rw [mem_bodyEntries, mem_bodyEntries]
  exact and_congr_left fun hf => h name f hf

theorem bodies_insert (hf : f.isDeclaration = false)
    (h : ∀ f', u.get? f.name = some f' → f'.isDeclaration = true) :
    (u.insert f).bodies.Perm (f :: u.bodies) := by
  have hnew : (f.name, f) ∉ u.bodyEntries := by
    rw [mem_bodyEntries, hf]
    rintro ⟨hget, _⟩
    cases hf.symm.trans (h f hget)
  rw [bodies_eq, bodies_eq, ← List.map_cons (f := Prod.snd) (a := (f.name, f))]
  refine (List.perm_ext_iff_of_nodup (u.insert f).nodup_bodyEntries
    (List.nodup_cons.mpr ⟨hnew, u.nodup_bodyEntries⟩)).mpr ?_ |>.map _
  rintro ⟨name, f'⟩
  rw [mem_bodyEntries, get?_insert, List.mem_cons, mem_bodyEntries, Prod.mk.injEq]
  split
  next he =>
    subst he
    constructor
    · rintro ⟨⟨⟩, _⟩
      exact .inl ⟨rfl, rfl⟩
    · rintro (⟨_, rfl⟩ | ⟨hget, hbody⟩)
      · exact ⟨rfl, hf⟩
      · cases hbody.symm.trans (h f' hget)
  next hne =>
    exact ⟨.inr, fun h => h.resolve_left fun he => hne he.1.symm⟩

end CodeUnit

def CodeUnit.Within (u v : CodeUnit) : Prop :=
  ∀ name f, u.get? name = some f → ∃ f', v.get? name = some f' ∧
    f'.signature.sameShape f.signature = true

theorem Func.verify_within {f : Func} {u v : CodeUnit} (hv : f.verify u = .ok ())
    (h : u.Within v) : f.verify v = .ok () := by
  refine verify_of_calls hv ?_
  rintro callee args returns ⟨s, hs, hreturns, hargs⟩
  unfold calleeSignature? at hs
  split at hs
  next he =>
    refine ⟨s, ?_, hreturns, hargs⟩
    unfold calleeSignature?
    rw [if_pos he, hs]
  next hne =>
    obtain ⟨f₁, hf₁, rfl⟩ := Option.map_eq_some_iff.mp hs
    obtain ⟨f₂, hf₂, hshape⟩ := h callee f₁ hf₁
    obtain ⟨_, hreturns', hparams'⟩ := Signature.sameShape_iff.mp hshape
    refine ⟨f₂.signature, ?_, hreturns'.trans hreturns, hparams' ▸ hargs⟩
    unfold calleeSignature?
    rw [if_neg hne, hf₂]
    rfl

theorem Signature.bare_eq_of_sameShape {s t : Signature} (h : s.sameShape t = true) :
    s.bare = t.bare :=
  bare_eq_iff.mpr (sameShape_iff.mp h)

namespace Generator

variable {g h : Generator} {s : Signature} {name : String} {f : Func} {u : CodeUnit}

def Admits (g : Generator) (s : Signature) : Prop :=
  ∀ f, g.unit.get? s.name = some f → f.signature.sameShape s = true

theorem Admits.workUnit (hs : g.Admits s) (name : String) : (g.workUnit s).get? name =
    (g.unit.get? name).or (if s.name = name then some { signature := s } else none) := by
  by_cases hne : s.name = name
  · subst hne
    obtain ⟨f, hf, hcase⟩ := redeclare_get? g.unit s
    rw [Generator.workUnit, hf, if_pos rfl]
    rcases hcase with ⟨hu, _⟩ | rfl
    · rw [hu]
      rfl
    · cases hu : g.unit.get? s.name with
      | none => rfl
      | some f' =>
        change (redeclare g.unit s).1.get? s.name = _ at hf
        rw [redeclare, dropStale, hu] at hf
        simp only [hs f' hu, if_true, CodeUnit.declare, CodeUnit.contains_eq, hu,
          Option.isSome_some] at hf
        rw [← hf]
        rfl
  · rw [if_neg hne, Option.or_none]
    exact redeclare_get?_of_ne hne

theorem Admits.declared (hs : g.Admits s) (hu : g.registry.Declares (g.workUnit s) u)
    (hf : u.get? name = some f) :
    g.unit.get? name = some f ∨ s.name = name ∧ f = { signature := s } ∨
      ∃ s', g.registry.signature? name = some s' ∧ f = { signature := s' } := by
  rcases hu.get? name with he | ⟨_, s', hs', he⟩
  · rw [he, hs.workUnit] at hf
    cases hunit : g.unit.get? name with
    | some f' =>
      rw [hunit] at hf
      exact .inl hf
    | none =>
      rw [hunit, Option.none_or] at hf
      split at hf
      next hname => exact .inr (.inl ⟨hname, (Option.some.inj hf).symm⟩)
      next => cases hf
  · exact .inr (.inr ⟨s', hs', Option.some.inj (hf.symm.trans he)⟩)

theorem Admits.kept (hs : g.Admits s) (hu : g.registry.Declares (g.workUnit s) u)
    (hf : g.unit.get? name = some f) : u.get? name = some f := by
  have hwork : (g.workUnit s).get? name = some f := by rw [hs.workUnit, hf, Option.some_or]
  rcases hu.get? name with he | ⟨hnone, _⟩
  · rw [he, hwork]
  · cases hwork.symm.trans hnone

theorem Admits.within (hs : g.Admits s) (hu : g.registry.Declares (g.workUnit s) u)
    (hf : f.signature = s) : g.unit.Within (u.insert f) := by
  intro name c hc
  rw [CodeUnit.get?_insert]
  split
  next he =>
    subst he
    refine ⟨f, rfl, Signature.sameShape_symm ?_⟩
    subst hf
    exact hs c hc
  next => exact ⟨c, hs.kept hu hc, Signature.sameShape_refl _⟩

theorem Admits.bodies (hs : g.Admits s) (hu : g.registry.Declares (g.workUnit s) u) :
    u.bodies.Perm g.unit.bodies := by
  refine CodeUnit.bodies_perm fun name f hbody => ⟨fun hf => ?_, hs.kept hu⟩
  rcases hs.declared hu hf with hf | ⟨_, rfl⟩ | ⟨_, _, rfl⟩
  · exact hf
  · cases hbody
  · cases hbody

end Generator

structure Coherent (protos : List Prototype) : Prop where
  unreserved : ∀ p ∈ protos, Unreserved p.name
  shapes : ∀ p ∈ protos, ∀ q ∈ protos, p.name = q.name → p.signature.sameShape q.signature = true

inductive Registry.Vouches (r : Registry) (used : List String) (name : String) (f : Func) : Prop
  | known {known : Registered} : r.get? name = some known →
      f.signature.sameShape known.proto.signature = true →
      (f.isDeclaration = false → known.isDefined = true) → Vouches r used name f
  | used : name ∈ used → Vouches r used name f

structure Generator.Orderly (protos : List Prototype) (used : List String) (g : Generator) :
    Prop where
  tidy : g.Tidy
  off : g.options.allowRedefinition = false
  reserved : ∀ name ∈ used, ¬ Unreserved name
  registry : ∀ name known, g.registry.get? name = some known → known.proto ∈ protos
  unit : ∀ name f, g.unit.get? name = some f → g.registry.Vouches used name f
  verified : ∀ f ∈ g.unit.bodies, f.verify g.unit = .ok ()

namespace Generator.Orderly

variable {protos : List Prototype} {used : List String} {g h : Generator} {p : Prototype}

theorem proto_name (hg : g.Orderly protos used) {name : String} {known : Registered}
    (hk : g.registry.get? name = some known) : known.proto.name = name :=
  hg.tidy.registry name _ (by rw [Registry.signature?, hk]; rfl)

theorem signature? (hg : g.Orderly protos used) {name : String} (hname : Unreserved name) {f : Func}
    (hf : g.unit.get? name = some f) :
    (g.registry.signature? name).map Signature.bare = some f.signature.bare := by
  cases hg.unit name f hf with
  | known hk hshape _ =>
    rw [Registry.signature?, hk]
    exact congrArg some (Signature.bare_eq_of_sameShape hshape).symm
  | used hused => exact absurd hname (hg.reserved name hused)

theorem admits (hg : g.Orderly protos used) (hc : Coherent protos) (hp : p ∈ protos) :
    g.Admits p.signature := by
  intro f hf
  cases hg.unit _ f hf with
  | known hk hshape _ =>
    refine Signature.sameShape_trans hshape (hc.shapes _ (hg.registry _ _ hk) p hp ?_)
    exact hg.proto_name hk
  | used hused => exact absurd (hc.unreserved p hp) (hg.reserved _ hused)

theorem get?_fresh (hg : g.Orderly protos used) (hc : Coherent protos) {name : String}
    (hname : ¬ Unreserved name) (hfresh : name ∉ used) : g.unit.get? name = none := by
  cases hf : g.unit.get? name with
  | none => rfl
  | some f =>
    cases hg.unit name f hf with
    | known hk _ _ =>
      exact absurd (hg.proto_name hk ▸ hc.unreserved _ (hg.registry _ _ hk)) hname
    | used hused => exact absurd hused hfresh

theorem resolve_workUnit (hg : g.Orderly protos used) {s : Signature} (hs : g.Admits s)
    {name : String} (hname : Unreserved name) :
    (g.registry.resolve (g.workUnit s) name).1.map Signature.bare =
      if s.name = name then some s.bare else (g.registry.signature? name).map Signature.bare := by
  rw [Registry.resolve_fst, hs.workUnit]
  cases hf : g.unit.get? name with
  | some f =>
    change some f.signature.bare = _
    split
    next he =>
      subst he
      exact congrArg some (Signature.bare_eq_of_sameShape (hs f hf))
    next => exact (hg.signature? hname hf).symm
  | none =>
    rw [Option.none_or]
    split
    · rfl
    · rfl

theorem build (hg : g.Orderly protos used) (hh : h.Orderly protos used)
    (hregistry : h.registry = g.registry) (hoptions : h.options = g.options)
    (hs : g.Admits p.signature) (hs' : h.Admits p.signature) {body : List Stmt}
    (hbody : ∀ stmt ∈ body, stmt.Spelled Unreserved) {result : Option Expr}
    (hresult : ∀ e ∈ result, e.Spelled Unreserved) :
    (∃ e, (g.build p body result).result = .error e ∧ (h.build p body result).result = .error e) ∨
    ∃ f u v, g.Makes p body result f u ∧ h.Makes p body result f v := by
  have hbeside : (g.workStart p.signature).Beside Unreserved g.registry
      (h.workStart p.signature) := by
    refine ⟨fun callee hcallee => ?_, rfl, rfl⟩
    have hleft := hg.resolve_workUnit hs hcallee
    have hright := hh.resolve_workUnit hs' hcallee
    rw [hregistry] at hright
    exact hright.trans hleft.symm
  have henv : (⟨h.registry, h.options.unsignedCompare⟩ : LowerEnv) =
      ⟨g.registry, g.options.unsignedCompare⟩ := by
    rw [hregistry, hoptions]
  have hagreed := placeless_lowerBody ⟨g.registry, g.options.unsignedCompare⟩
    hg.tidy.registry p.signature hbody hresult _ _ hbeside
  cases hl : lowerBody ⟨g.registry, g.options.unsignedCompare⟩ p.signature body result
      (g.workStart p.signature) with
  | error e work =>
    rw [hl] at hagreed
    generalize hl' : lowerBody ⟨g.registry, g.options.unsignedCompare⟩ p.signature body result
      (h.workStart p.signature) = r at hagreed
    cases hagreed with
    | error => exact .inl ⟨e, build_refused hl, build_refused (henv ▸ hl')⟩
  | ok u work =>
    rw [hl] at hagreed
    generalize hl' : lowerBody ⟨g.registry, g.options.unsignedCompare⟩ p.signature body result
      (h.workStart p.signature) = r at hagreed
    cases hagreed with
    | @ok _ _ _ work' _ hwork =>
      have hmakes' : h.Makes p body result work'.builder.func work'.unit :=
        makes_lowered hh.tidy.registry (henv ▸ hl')
      rw [hwork.builder] at hmakes'
      exact .inr ⟨_, _, _, makes_lowered hg.tidy.registry hl, hmakes'⟩

end Generator.Orderly

namespace Registry

variable {r : Registry} {used used' : List String} {name : String} {f : Func} {p : Prototype}

theorem Vouches.mono (hb : r.Vouches used name f) (h : used ⊆ used') : r.Vouches used' name f := by
  cases hb with
  | known hk hshape hbody => exact .known hk hshape hbody
  | used hmem => exact .used (h hmem)

theorem vouches_declared {s : Signature} (hs : r.signature? name = some s) :
    r.Vouches used name { signature := s } := by
  obtain ⟨known, hk, rfl⟩ := Option.map_eq_some_iff.mp hs
  exact .known hk (Signature.sameShape_refl _) nofun

theorem vouches_inserted (hshape : f.signature.sameShape p.signature = true) {isDefined : Bool}
    (hbody : f.isDeclaration = false → isDefined = true) :
    Vouches (Table.insert r p.name ⟨p, isDefined⟩) used p.name f := by
  have hk : (Table.insert r p.name ⟨p, isDefined⟩).get? p.name = some ⟨p, isDefined⟩ := by simp
  exact .known hk hshape hbody

theorem Vouches.insert (hb : r.Vouches used name f)
    (hshape : ∀ known, r.get? p.name = some known →
      known.proto.signature.sameShape p.signature = true) {isDefined : Bool}
    (hdefined : r.isDefined p.name = true → isDefined = true) :
    Vouches (Table.insert r p.name ⟨p, isDefined⟩) used name f := by
  cases hb with
  | used hmem => exact .used hmem
  | @known known hk hsame hbody =>
    by_cases he : p.name = name
    · subst he
      refine vouches_inserted (Signature.sameShape_trans hsame (hshape known hk)) ?_
      intro h
      refine hdefined ?_
      rw [Registry.isDefined, hk]
      exact hbody h
    · exact .known (by simpa [he] using hk) hsame hbody

end Registry

namespace Generator

variable {protos : List Prototype} {used used' : List String} {g : Generator} {p : Prototype}

def Taken (g : Generator) (used : List String) (name : String) : Prop :=
  g.registry.isDefined name = true ∨ name ∈ used

structure Enters (g : Generator) (protos : List Prototype) (used used' : List String)
    (p : Prototype) (r : Registry) : Prop where
  keyed : r.Keyed
  reserved : ∀ name ∈ used', ¬ Unreserved name
  registry : ∀ name known, r.get? name = some known → known.proto ∈ protos
  vouches : ∀ name f, g.registry.Vouches used name f → r.Vouches used' name f
  own : ∀ f : Func, f.signature = p.signature → r.Vouches used' p.name f
  taken : ∀ name, g.Taken used name ∨ name = p.name → r.isDefined name = true ∨ name ∈ used'

structure Reaches (protos : List Prototype) (used used' : List String) (g g' : Generator)
    (r : Registry) (placed : Option Func) : Prop where
  orderly : g'.Orderly protos used'
  registry : g'.registry = r
  options : g'.options = g.options
  layout : g'.unit.layout = g.unit.layout
  bodies : g'.unit.bodies.Perm (placed.toList ++ g.unit.bodies)
  taken : ∀ name, g.Taken used name → g'.Taken used' name
  fresh : ∀ f ∈ placed, ¬ g.Taken used f.name ∧ g'.Taken used' f.name

namespace Orderly

theorem unmoved (hg : g.Orderly protos used) (hused : used ⊆ used')
    (hreserved : ∀ name ∈ used', ¬ Unreserved name) :
    Reaches protos used used' g g g.registry none where
  orderly := ⟨hg.tidy, hg.off, hreserved, hg.registry,
    fun name f hf => (hg.unit name f hf).mono hused, hg.verified⟩
  registry := rfl
  options := rfl
  layout := rfl
  bodies := .refl _
  taken := fun _ h => h.imp id (hused ·)
  fresh := nofun

theorem sameShape (hg : g.Orderly protos used) (hc : Coherent protos) (hp : p ∈ protos)
    {known : Registered} (hk : g.registry.get? p.name = some known) :
    known.proto.signature.sameShape p.signature = true :=
  hc.shapes _ (hg.registry _ _ hk) p hp (hg.proto_name hk)

theorem registry_insert (hg : g.Orderly protos used) (hp : p ∈ protos) {isDefined : Bool}
    {name : String} {known : Registered}
    (hk : (Table.insert g.registry p.name ⟨p, isDefined⟩).get? name = some known) :
    known.proto ∈ protos := by
  rw [Table.get?_insert] at hk
  split at hk
  next =>
    cases hk
    exact hp
  next => exact hg.registry name known hk

theorem prototype (hg : g.Orderly protos used) (hc : Coherent protos) (hp : p ∈ protos) :
    Reaches protos used used g
      { g with unit := g.workUnit p.signature, registry := g.registry.declare p }
      (g.registry.declare p) none := by
  have hs := hg.admits hc hp
  have hback {name : String} {f : Func} (hb : g.registry.Vouches used name f) :
      (g.registry.declare p).Vouches used name f :=
    hb.insert (fun _ => hg.sameShape hc hp) id
  have hbodies := hs.bodies .refl
  refine ⟨⟨hg.tidy.declare p, hg.off, hg.reserved, fun _ _ => hg.registry_insert hp, ?_, ?_⟩,
    rfl, rfl, g.workUnit_layout _, hbodies, ?_, nofun⟩
  · intro name f hf
    rcases hs.declared .refl hf with hf | ⟨hname, rfl⟩ | ⟨s, hs', rfl⟩
    · exact hback (hg.unit name f hf)
    · subst hname
      exact Registry.vouches_inserted (Signature.sameShape_refl _) nofun
    · exact hback (Registry.vouches_declared hs')
  · intro f hf
    refine Func.verify_within (hg.verified f (hbodies.mem_iff.mp hf)) ?_
    exact fun name c hcall => ⟨c, hs.kept .refl hcall, Signature.sameShape_refl _⟩
  · refine fun name h => h.imp (fun h => ?_) id
    rw [Registry.declare, Registry.isDefined_insert]
    split
    next he => rwa [he]
    next => exact h

theorem isDeclaration (hg : g.Orderly protos used) {name : String} {f : Func}
    (hfree : ¬ g.Taken used name) (hf : g.unit.get? name = some f) : f.isDeclaration = true := by
  cases hbody : f.isDeclaration with
  | true => rfl
  | false =>
    refine absurd ?_ hfree
    cases hg.unit name f hf with
    | known hk _ hdefined => exact .inl (by rw [Registry.isDefined, hk]; exact hdefined hbody)
    | used hused => exact .inr hused

theorem built (hg : g.Orderly protos used) (hs : g.Admits p.signature)
    (hfree : ¬ g.Taken used p.name) {r : Registry} (he : g.Enters protos used used' p r)
    {body : List Stmt} {result : Option Expr} {f : Func} {u : CodeUnit}
    (hb : g.Builds p body result f u) :
    Reaches protos used used' g { g with unit := u.insert (g.optimized f), registry := r } r
      (some (g.optimized f)) := by
  have hi : f.Improves (g.optimized f) := hb.improves g.options.level
  have hsignature : (g.optimized f).signature = p.signature := hb.signature_optimized
  have hname : (g.optimized f).name = p.name := hb.name_optimized
  have hv := hi.verify hb.verified
  have hplace : ∀ c, u.get? (g.optimized f).name = some c → c.isDeclaration = true := by
    intro c hc
    rw [hname] at hc
    rcases hs.declared hb.declares hc with hc | ⟨_, rfl⟩ | ⟨_, _, rfl⟩
    · exact hg.isDeclaration hfree hc
    · rfl
    · rfl
  have hbodies : (u.insert (g.optimized f)).bodies.Perm (g.optimized f :: g.unit.bodies) :=
    (CodeUnit.bodies_insert (Func.isDeclaration_of_verify hv) hplace).trans
      ((hs.bodies hb.declares).cons _)
  refine ⟨⟨hg.tidy.insert hb he.keyed _, hg.off, he.reserved, he.registry, ?_, ?_⟩, rfl, rfl,
    hb.declares.layout.trans (g.workUnit_layout _), hbodies,
    fun name h => he.taken name (.inl h), ?_⟩
  · intro name c hc
    change (u.insert (g.optimized f)).get? name = some c at hc
    rw [CodeUnit.get?_insert] at hc
    split at hc
    next hsame =>
      cases hc
      rw [← hsame, hname]
      exact he.own _ hsignature
    next =>
      rcases hs.declared hb.declares hc with hc | ⟨hsame, rfl⟩ | ⟨s, hs', rfl⟩
      · exact he.vouches name c (hg.unit name c hc)
      · subst hsame
        exact he.own _ rfl
      · exact he.vouches name _ (Registry.vouches_declared hs')
  · intro c hc
    rcases List.mem_cons.mp (hbodies.mem_iff.mp hc) with rfl | hc
    · exact Func.verify_insert hv rfl
    · exact Func.verify_within (hg.verified c hc) (hs.within hb.declares hsignature)
  · rintro c ⟨⟩
    rw [hname]
    exact ⟨hfree, he.taken _ (.inr rfl)⟩

theorem function (hg : g.Orderly protos used) (hc : Coherent protos) (hp : p ∈ protos)
    (hnew : g.registry.isDefined p.name = false) {body : List Stmt} {result : Option Expr}
    {f : Func} {u : CodeUnit} (hb : g.Builds p body result f u) :
    Reaches protos used used g
      { g with unit := u.insert (g.optimized f), registry := g.registry.define p }
      (g.registry.define p) (some (g.optimized f)) := by
  refine hg.built (hg.admits hc hp) ?_ ⟨hg.tidy.registry.insert p _, hg.reserved,
    fun _ _ => hg.registry_insert hp, ?_, ?_, ?_⟩ hb
  · rintro (h | h)
    · cases hnew.symm.trans h
    · exact hg.reserved _ h (hc.unreserved p hp)
  · exact fun name f hf => hf.insert (fun _ => hg.sameShape hc hp) fun _ => rfl
  · intro c hsignature
    refine Registry.vouches_inserted ?_ fun _ => rfl
    rw [hsignature]
    exact Signature.sameShape_refl _
  · intro name h
    rw [Registry.isDefined_insert]
    split
    next => exact .inl rfl
    next hne => exact h.resolve_right (Ne.symm hne)

theorem expression (hg : g.Orderly protos used) (hc : Coherent protos)
    (hname : ¬ Unreserved p.name) (hfresh : p.name ∉ used) {body : List Stmt}
    {result : Option Expr} {f : Func} {u : CodeUnit} (hb : g.Builds p body result f u) :
    Reaches protos used (p.name :: used) g { g with unit := u.insert (g.optimized f) } g.registry
      (some (g.optimized f)) := by
  have hs : g.Admits p.signature := by
    intro c hcall
    cases (hg.get?_fresh hc hname hfresh).symm.trans hcall
  refine hg.built hs ?_ ⟨hg.tidy.registry, List.forall_mem_cons.mpr ⟨hname, hg.reserved⟩,
    hg.registry, ?_, fun c _ => .used List.mem_cons_self, ?_⟩ hb
  · rintro (h | h)
    · obtain ⟨known, hk⟩ := Registry.exists_signature? h
      obtain ⟨known, hk, _⟩ := Option.map_eq_some_iff.mp hk
      exact hname (hg.proto_name hk ▸ hc.unreserved _ (hg.registry _ _ hk))
    · exact hfresh h
  · exact fun name f hf => hf.mono (List.subset_cons_self _ _)
  · rintro name ((h | h) | rfl)
    · exact .inl h
    · exact .inr (List.mem_cons_of_mem _ h)
    · exact .inr List.mem_cons_self

end Orderly

end Generator

end FormCompiler
