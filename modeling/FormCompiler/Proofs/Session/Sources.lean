import FormCompiler.Proofs.Session.Callers

namespace FormCompiler

namespace Registry

variable (r : Registry) (p : Prototype) (isDefined : Bool) (name : String)

theorem isDefined_insert :
    Registry.isDefined (Table.insert r p.name ⟨p, isDefined⟩) name =
      if p.name = name then isDefined else r.isDefined name := by
  unfold Registry.isDefined
  rw [Table.get?_insert]
  by_cases h : p.name = name
  · rw [if_pos h, if_pos h]
  · rw [if_neg h, if_neg h]

theorem signature?_insert :
    signature? (Table.insert r p.name ⟨p, isDefined⟩) name =
      if p.name = name then some p.signature else r.signature? name := by
  unfold signature?
  rw [Table.get?_insert]
  split <;> rfl

theorem exists_signature? {r : Registry} {name : String} (h : r.isDefined name = true) :
    ∃ known, r.signature? name = some known := by
  unfold Registry.isDefined at h
  unfold signature?
  cases hr : r.get? name with
  | none => rw [hr] at h; cases h
  | some known => exact ⟨_, rfl⟩

end Registry

namespace Session

def history (s : Session) : List Source → List Session
  | [] => [s]
  | source :: sources =>
    (s.visits (.ofStream (.ofSource source))).map Prod.fst ++
      history (s.run (.ofSource source)).session sources

structure Balanced (s : Session) : Prop where
  settled : s.Settled
  off : s.generator.options.allowRedefinition = false
  defined : ∀ name, Unreserved name →
    (s.generator.registry.isDefined name = true ↔ s.code.get? name ≠ none)
  shape : ∀ name f known, Unreserved name → s.code.get? name = some f →
    s.generator.registry.signature? name = some known → known.sameShape f.signature = true

def Retains (s t : Session) : Prop :=
  ∀ name f, Unreserved name → s.code.get? name = some f → t.code.get? name = some f

theorem Retains.refl (s : Session) : s.Retains s := fun _ _ _ hf => hf

theorem Retains.trans {s t u : Session} (hst : s.Retains t) (htu : t.Retains u) : s.Retains u :=
  fun name f hname hf => htu name f hname (hst name f hname hf)

theorem balanced_start (o : Options) (ho : o.allowRedefinition = false) : (start o).Balanced where
  settled :=
    .start (.ofDepth o.depth) ⟨o.level, o.unsignedCompare, o.allowRedefinition⟩ o.printCode {}
  off := ho
  defined := fun _ _ => ⟨fun h => (by cases h), fun h => absurd rfl h⟩
  shape := fun _ _ _ _ hf => (by cases hf)

variable {s s' : Session} {p : Parser}

namespace Balanced

theorem unmoved (h : s.Balanced) (hs : s.Unmoved s') : s'.Balanced ∧ s.Retains s' := by
  have hcode : s'.code = s.code := congrArg (·.program.code) hs.engine
  refine ⟨⟨h.settled.unmoved hs, hs.generator ▸ h.off, ?_, ?_⟩, fun _ _ _ hf => hcode ▸ hf⟩
  · rw [hcode, hs.generator]
    exact h.defined
  · rw [hcode, hs.generator]
    exact h.shape

theorem sameShape_of_check (h : s.Balanced) {proto : Prototype} {notes : List Note}
    (hc : s.generator.checkRedefinition proto false = .ok notes)
    (hd : s.generator.registry.isDefined proto.name = true) : ∃ known,
      s.generator.registry.signature? proto.name = some known ∧
      known.sameShape proto.signature = true := by
  rw [Generator.checkRedefinition_eq, hd, h.off] at hc
  simp only [Bool.true_eq_false, true_and, false_or] at hc
  split at hc
  next hsame => exact (Option.any_eq_true _ _).mp hsame
  next => cases hc

theorem prototype (h : s.Balanced) {proto : Prototype} {notes : List Note}
    (hc : s.generator.checkRedefinition proto false = .ok notes)
    (hs : s.Commits s' (s.generator.registry.declare proto) []) :
    s'.Balanced ∧ s.Retains s' := by
  have hcode : s'.code = s.code := congrArg (·.program.code) hs.engine
  have hregistry : s'.generator.registry = s.generator.registry.declare proto := by
    rw [hs.generator]
    rfl
  refine ⟨⟨h.settled.commits (h.settled.ready.registry.insert proto _) hs,
    by rw [hs.generator]; exact h.off, ?_, ?_⟩, fun _ _ _ hf => hcode ▸ hf⟩
  · intro name hname
    rw [hcode, ← h.defined name hname, hregistry, Registry.declare, Registry.isDefined_insert]
    split
    next he => rw [he]
    next => exact Iff.rfl
  · intro name f known hname hf hknown
    rw [hcode] at hf
    rw [hregistry, Registry.declare, Registry.signature?_insert] at hknown
    split at hknown
    next he =>
      subst he
      cases hknown
      have hd := (h.defined _ hname).mpr (by rw [hf]; exact Option.some_ne_none f)
      obtain ⟨old, hold, hshape⟩ := h.sameShape_of_check hc hd
      exact Signature.sameShape_trans (Signature.sameShape_symm hshape)
        (h.shape _ f old hname hf hold)
    next => exact h.shape name f known hname hf hknown

theorem function (h : s.Balanced) {proto : Prototype} {body : List Stmt} {result : Option Expr}
    {notes : List Note} {f : Func} {u : CodeUnit}
    (hc : s.generator.checkRedefinition proto true = .ok notes) (hname : Unreserved proto.name)
    (hb : s.generator.Builds proto body result f u)
    (hs : s.Commits s' (s.generator.registry.define proto) [s.generator.optimized f]) :
    s'.Balanced ∧ s.Retains s' := by
  have hcode : ∀ name, s'.code.get? name =
      if proto.name = name then some (s.generator.optimized f) else s.code.get? name := by
    intro name
    rw [hs.code_get?, hb.name_optimized]
  have hregistry : s'.generator.registry = s.generator.registry.define proto := by
    rw [hs.generator]
    rfl
  have hfresh : s.code.get? proto.name = none := by
    have hd : s.generator.registry.isDefined proto.name = false := by
      rw [Generator.checkRedefinition_eq, h.off] at hc
      simp only [Bool.true_eq_false, false_and, or_false] at hc
      split at hc
      next hd => exact hd
      next => cases hc
    by_contra hne
    rw [(h.defined _ hname).mpr hne] at hd
    cases hd
  refine ⟨⟨h.settled.commits (h.settled.ready.registry.insert proto _) hs,
    by rw [hs.generator]; exact h.off, ?_, ?_⟩, ?_⟩
  · intro name hname'
    rw [hregistry, Registry.define, Registry.isDefined_insert, hcode]
    split
    next => simp
    next => exact h.defined name hname'
  · intro name g known hname' hg hknown
    rw [hcode] at hg
    rw [hregistry, Registry.define, Registry.signature?_insert] at hknown
    split at hg
    next he =>
      rw [if_pos he] at hknown
      cases hg
      cases hknown
      rw [hb.signature_optimized]
      exact Signature.sameShape_refl _
    next hne =>
      rw [if_neg hne] at hknown
      exact h.shape name g known hname' hg hknown
  · intro name g _ hg
    rw [hcode, if_neg]
    · exact hg
    · rintro rfl
      rw [hfresh] at hg
      cases hg

theorem expression (h : s.Balanced) {e : Expr} {counter : Nat} {f : Func} {u : CodeUnit}
    (hb : s.generator.Builds (Anonymous.wrap e counter).proto [] (some e) f u)
    (hs : s.Commits s' s.generator.registry [s.generator.optimized f]) :
    s'.Balanced ∧ s.Retains s' := by
  have hcode : ∀ name, Unreserved name → s'.code.get? name = s.code.get? name := by
    intro name hname
    rw [hs.code_get?, hb.name_optimized]
    exact if_neg fun he => hname counter he.symm
  have hregistry : s'.generator.registry = s.generator.registry := by
    rw [hs.generator]
    rfl
  refine ⟨⟨h.settled.commits h.settled.ready.registry hs, by rw [hs.generator]; exact h.off,
    ?_, ?_⟩, fun name f hname hf => (hcode name hname).trans hf⟩
  · intro name hname
    rw [hcode name hname, hregistry]
    exact h.defined name hname
  · intro name f known hname hf hknown
    rw [hcode name hname] at hf
    rw [hregistry] at hknown
    exact h.shape name f known hname hf hknown

theorem turn (h : s.Balanced) (herrors : p.errors = []) (hspelled : p.cursor.Spelled Unreserved) :
    (s.turn p).session.Balanced ∧ s.Retains (s.turn p).session := by
  have hreading := Parser.reading_spelled herrors hspelled
  have hunmoved : s.Unmoved s.countForm := ⟨rfl, rfl⟩
  have hcount := (h.unmoved hunmoved).1
  rw [turn_eq]
  generalize p.reading = reading at hreading ⊢
  cases hreading with
  | nothing => exact ⟨h, .refl s⟩
  | ending => exact ⟨h, .refl s⟩
  | broken => exact h.unmoved ⟨rfl, rfl⟩
  | @declaration d hd =>
    have hdeclared := hcount.settled.declared d
    simp only
    generalize (s.countForm.declare d).result = accepted at hdeclared
    cases hdeclared with
    | refused _ hs => exact hcount.unmoved hs
    | recorded _ hs => exact hcount.unmoved hs
    | prototype hc hs => exact hcount.prototype hc hs
    | function hc hb hs =>
      cases hd with
      | function hname _ _ => exact hcount.function hc hname hb hs
  | @expression e _ =>
    have hevaluated := hcount.settled.evaluated (.wrap e p.counter)
    simp only
    generalize s.countForm.answer? (.wrap e p.counter) = answer at hevaluated
    cases hevaluated with
    | refused _ hs => exact hcount.unmoved hs
    | called hb hs => exact hcount.expression hb hs

end Balanced

theorem Retains.of_pairwise {t : Session} {ts : List Session} (h : s.Retains t)
    (hts : (t :: ts).Pairwise Retains) : ∀ u ∈ t :: ts, s.Retains u :=
  List.forall_mem_cons.mpr ⟨h, fun _ hu => h.trans (List.rel_of_pairwise_cons hts hu)⟩

theorem exists_visits_eq (s : Session) (p : Parser) : ∃ vs, s.visits p = (s, p) :: vs := by
  rw [visits]
  exact ⟨_, rfl⟩

theorem exists_history_eq (s : Session) (sources : List Source) :
    ∃ ts, s.history sources = s :: ts := by
  cases sources with
  | nil => exact ⟨[], rfl⟩
  | cons source sources =>
    obtain ⟨vs, hvs⟩ := s.exists_visits_eq (.ofStream (.ofSource source))
    rw [history, hvs]
    exact ⟨_, rfl⟩

/-- The sessions of one source are balanced, and each retains what those before it had. -/
theorem Balanced.visits (h : s.Balanced) (herrors : p.errors = [])
    (hspelled : p.cursor.Spelled Unreserved) (seen : Array Event) :
    (∀ t ∈ (s.visits p).map Prod.fst ++ [(s.turns p seen).1], t.Balanced) ∧
      ((s.visits p).map Prod.fst ++ [(s.turns p seen).1]).Pairwise Retains := by
  induction s, p using Session.visits.induct generalizing seen with
  | case1 s p _ =>
    rename_i ih
    obtain ⟨hnext, hretains⟩ := h.turn herrors hspelled
    by_cases hgo : s.GoesOn p
    · obtain ⟨hall, hpairs⟩ := ih hgo hnext (errors_turn s p) (spelled_turn s hspelled)
        (seen ++ (s.turn p).events)
      rw [visits_of_goesOn hgo, turns_of_goesOn hgo, List.map_cons, List.cons_append]
      refine ⟨List.forall_mem_cons.mpr ⟨h, hall⟩, List.pairwise_cons.mpr ⟨?_, hpairs⟩⟩
      obtain ⟨vs, hvs⟩ := exists_visits_eq (s.turn p).session (s.turn p).parser
      rw [hvs] at hpairs ⊢
      exact hretains.of_pairwise hpairs
    · rw [visits_of_not_goesOn hgo, turns_of_not_goesOn hgo]
      refine ⟨List.forall_mem_cons.mpr ⟨h, List.forall_mem_singleton.mpr hnext⟩, ?_⟩
      exact List.pairwise_pair.mpr hretains

theorem Balanced.history (h : s.Balanced) (sources : List Source) :
    (∀ t ∈ s.history sources, t.Balanced) ∧ (s.history sources).Pairwise Retains := by
  induction sources generalizing s with
  | nil => exact ⟨List.forall_mem_singleton.mpr h, List.pairwise_singleton _ _⟩
  | cons source sources ih =>
    have hspelled := ((TokenStream.spelled_ofSource source).mono fun _ hw => hw.unreserved).cursor
    obtain ⟨hall, hpairs⟩ := h.visits rfl hspelled #[]
    obtain ⟨hfirst, hlast⟩ := List.forall_mem_append.mp hall
    obtain ⟨hpairs, -, hcross⟩ := List.pairwise_append.mp hpairs
    obtain ⟨hall', hpairs'⟩ := ih (List.forall_mem_singleton.mp hlast)
    refine ⟨List.forall_mem_append.mpr ⟨hfirst, hall'⟩,
      List.pairwise_append.mpr ⟨hpairs, hpairs', fun t ht => ?_⟩⟩
    have hretains : t.Retains (s.run (.ofSource source)).session :=
      hcross t ht _ (List.mem_singleton_self _)
    obtain ⟨ts, hts⟩ := exists_history_eq (s.run (.ofSource source)).session sources
    rw [hts]
    exact hretains.of_pairwise (hts ▸ hpairs')

/-- Where redefinition is not allowed, a name other than that of a wrapped expression is known to
have a body just if one is committed under it, which is then of the shape by which the name is
known; and what is committed is neither replaced nor removed. -/
theorem history_balanced (o : Options) (ho : o.allowRedefinition = false) (sources : List Source) :
    (∀ s ∈ (start o).history sources, ∀ name, Unreserved name →
      (s.generator.registry.isDefined name = true ↔ ∃ f, s.code.get? name = some f) ∧
      ∀ f, s.code.get? name = some f → ∃ known,
        s.generator.registry.signature? name = some known ∧ known.sameShape f.signature = true) ∧
    ((start o).history sources).Pairwise fun s t => ∀ name, Unreserved name →
      ∀ f, s.code.get? name = some f → t.code.get? name = some f := by
  obtain ⟨hall, hpairs⟩ := (balanced_start o ho).history sources
  refine ⟨fun s hs name hname => ?_, hpairs.imp fun hst name hname f => hst name f hname⟩
  have h := hall s hs
  refine ⟨(h.defined name hname).trans Option.ne_none_iff_exists', fun f hf => ?_⟩
  have hd := (h.defined name hname).mpr (by rw [hf]; exact Option.some_ne_none f)
  obtain ⟨known, hknown⟩ := Registry.exists_signature? hd
  exact ⟨known, hknown, h.shape name f known hname hf hknown⟩

def again : List Source :=
  [.ofText "int f(int x) \x7b return x + 1; \x7d f(1);",
   .ofText "int f(int y); double f(int x) \x7b return 2.5; \x7d f(2);"]

theorem history_balanced_again : ∃ s ∈ (start {}).history again, s.stats.failed = 1 ∧
    ∃ f known, s.code.get? "f" = some f ∧ s.generator.registry.signature? "f" = some known ∧
      known ≠ f.signature ∧ known.sameShape f.signature = true := by
  have hrun : ∃ s ∈ (start {}).history again, s.stats.failed = 1 ∧ ∃ f ∈ s.code.get? "f",
      s.generator.registry.signature? "f" ≠ some f.signature := by decide +kernel
  obtain ⟨s, hs, hfailed, f, hf, hne⟩ := hrun
  have hname : Unreserved "f" :=
    IsWord.unreserved (List.all_eq_true.mp (show "f".toList.all isWordChar = true by decide))
  obtain ⟨known, hknown, hshape⟩ := ((history_balanced {} rfl again).1 s hs "f" hname).2 f hf
  refine ⟨s, hs, hfailed, f, known, hf, hknown, ?_, hshape⟩
  rintro rfl
  exact hne hknown

end Session

end FormCompiler
