import FormCompiler.Proofs.Pass.Reports
import FormCompiler.Proofs.Pass.Simplify

namespace FormCompiler

theorem Func.replaceUses_comm (f : Func) {v w : Nat} (h : v ≠ w) (a b : Const) :
    (f.replaceUses v (.const a)).replaceUses w (.const b) =
      (f.replaceUses w (.const b)).replaceUses v (.const a) := by
  simp only [replaceUses, mapOperands_mapOperands]
  congr 1
  funext o
  by_cases hv : o = .value v
  · subst hv
    simp [Operand.replace, h]
  · by_cases hw : o = .value w
    · subst hw
      simp [Operand.replace, hv]
    · simp [Operand.replace, hv, hw]

namespace ConstantFolding

def entries : List (Nat × Const) → List (Nat × Const)
  | [] => []
  | e :: es => e :: (entries es).filter fun e' => e'.1 != e.1

def substitute (es : List (Nat × Const)) (f : Func) : Func :=
  es.foldl (fun g e => g.replaceUses e.1 (.const e.2))
    (f.filterInstructions fun i => i.op.fold?.isNone)

structure Arrangement where
  order : Nat → List (Nat × Const) → List (Nat × Const)
  perm : ∀ n es, (order n es).Perm es

namespace Arrangement

def listed (a : Arrangement) (n : Nat) (f : Func) : List (Nat × Const) :=
  a.order n (entries (known f))

/-- From round `n` on, folding makes `t` out of `f` and folds the values `ids`. -/
inductive Folds (a : Arrangement) : Nat → Func → List Nat → Transformed → Prop
  | stop {n : Nat} {f : Func} : a.listed n f = [] → Folds a n f [] ⟨substitute [] f, false⟩
  | again {n : Nat} {f : Func} {ids : List Nat} {t : Transformed} : a.listed n f ≠ [] →
      Folds a (n + 1) (substitute (a.listed n f) f) ids t →
      Folds a n f ((a.listed n f).map Prod.fst ++ ids) ⟨t.func, true⟩

end Arrangement

variable {f : Func} {a : Arrangement} {n : Nat} {es es' : List (Nat × Const)} {e : Nat × Const}

theorem mem_of_mem_entries (h : e ∈ entries es) : e ∈ es := by
  induction es with
  | nil => cases h
  | cons e' es ih =>
    rcases List.mem_cons.mp h with rfl | h
    · exact List.mem_cons_self
    · exact List.mem_cons_of_mem _ (ih (List.mem_filter.mp h).1)

theorem entries_eq_nil : entries es = [] ↔ es = [] := by
  cases es <;> simp [entries]

theorem nodup_entries (es : List (Nat × Const)) : ((entries es).map Prod.fst).Nodup := by
  induction es with
  | nil => exact List.nodup_nil
  | cons e es ih =>
    refine List.nodup_cons.mpr ⟨?_, ih.sublist (List.filter_sublist.map _)⟩
    intro h
    obtain ⟨e', he', hsame⟩ := List.mem_map.mp h
    simpa [hsame] using (List.mem_filter.mp he').2

theorem lookup_filter_ne (es : List (Nat × Const)) {v w : Nat} (h : v ≠ w) :
    (es.filter fun e => e.1 != w).lookup v = es.lookup v := by
  induction es with
  | nil => rfl
  | cons e es ih =>
    obtain ⟨u, c⟩ := e
    rw [List.filter_cons]
    by_cases hu : u = w
    · have hne : (v == u) = false := beq_false_of_ne (hu ▸ h)
      rw [if_neg (by simpa using hu), ih, List.lookup_cons, hne]
    · rw [if_pos (by simpa using hu), List.lookup_cons, List.lookup_cons, ih]

theorem lookup_entries (es : List (Nat × Const)) (v : Nat) :
    (entries es).lookup v = es.lookup v := by
  induction es with
  | nil => rfl
  | cons e es ih =>
    obtain ⟨u, c⟩ := e
    rw [entries, List.lookup_cons, List.lookup_cons]
    split
    next => rfl
    next hne => rw [lookup_filter_ne _ (by simpa using hne), ih]

theorem replace_cons (e : Nat × Const) (es : List (Nat × Const)) (o : Operand) :
    replace (e :: es) o = replace es (Operand.replace e.1 (.const e.2) o) := by
  obtain ⟨w, c⟩ := e
  cases o with
  | value v =>
    by_cases hv : v = w
    · subst hv
      rw [Operand.replace, if_pos rfl]
      simp only [replace, List.lookup_cons_self]
    · have hne : Operand.value v ≠ .value w := fun h => hv (Operand.value.inj h)
      rw [Operand.replace, if_neg hne]
      simp only [replace, List.lookup_cons, beq_false_of_ne hv]
  | const c | param index => rfl

theorem replace_entries (es : List (Nat × Const)) : replace (entries es) = replace es := by
  funext o
  cases o with
  | value v => simp only [replace, lookup_entries]
  | const c | param index => rfl

theorem settle_const (es : List (Nat × Const)) (o : Operand) :
    ControlFlow.settle (es.map fun e => (e.1, .const e.2)) o = replace es o := by
  induction es generalizing o with
  | nil => rw [replace_nil]; rfl
  | cons e es ih => rw [List.map_cons, ControlFlow.settle_cons, ih, replace_cons]

theorem foldl_replaceUses_const (es : List (Nat × Const)) (f : Func) :
    es.foldl (fun g e => g.replaceUses e.1 (.const e.2)) f = f.mapOperands (replace es) := by
  have hsettle := ControlFlow.foldl_replaceUses_eq (es.map fun e => (e.1, Operand.const e.2)) f
  rw [List.foldl_map] at hsettle
  rw [hsettle, funext (settle_const es)]

theorem substitute_perm (h : es.Perm es') (hn : (es.map Prod.fst).Nodup) (f : Func) :
    substitute es f = substitute es' f := by
  refine h.foldl_eq' ?_ _
  intro e he e' he' g
  by_cases hsame : e.1 = e'.1
  · rw [List.inj_on_of_nodup_map hn he he' hsame]
  · -- a constant that has been put in is no use of the other value
    exact g.replaceUses_comm hsame e.2 e'.2

namespace Arrangement

theorem substitute_listed (a : Arrangement) (n : Nat) (f : Func) :
    substitute (a.listed n f) f = (round f).func := by
  have hperm := a.perm n (entries (known f))
  have hn : ((a.listed n f).map Prod.fst).Nodup :=
    (hperm.map Prod.fst).nodup_iff.mpr (nodup_entries _)
  calc substitute (a.listed n f) f = substitute (entries (known f)) f := substitute_perm hperm hn f
    _ = (f.filterInstructions _).mapOperands (replace (entries (known f))) :=
      foldl_replaceUses_const _ _
    _ = (round f).func := by rw [replace_entries]; rfl

theorem listed_eq_nil : a.listed n f = [] ↔ (round f).changed = false := by
  rw [listed, ← List.perm_nil, round_changed, ← entries_eq_nil, ← List.perm_nil]
  exact ⟨(a.perm n _).symm.trans, (a.perm n _).trans⟩

theorem mem_listed (h : e ∈ a.listed n f) : e ∈ known f :=
  mem_of_mem_entries ((a.perm n _).mem_iff.mp h)

variable {ids ids' : List Nat} {t t' : Transformed}

theorem Folds.eq_run (h : a.Folds n f ids t) : t = run f := by
  induction h with
  | @stop n f hnil =>
    have hunchanged := listed_eq_nil.mp hnil
    have hround := a.substitute_listed n f
    rw [hnil] at hround
    have hrun : run f = round f := Transformation.exhaust_of_unchanged hunchanged
    rw [hrun, hround, ← hunchanged]
  | @again n f ids t hsome _ ih =>
    have hchanged : (round f).changed = true :=
      eq_true_of_ne_false fun h => hsome (listed_eq_nil.mpr h)
    rw [a.substitute_listed] at ih
    rw [ih]
    exact (Transformation.exhaust_of_changed lightens_round hchanged).symm

theorem Folds.unique (h : a.Folds n f ids t) (h' : a.Folds n f ids' t') : ids = ids' := by
  induction h generalizing ids' t' with
  | stop hnil =>
    cases h' with
    | stop => rfl
    | again hsome => exact absurd hnil hsome
  | again hsome _ ih =>
    cases h' with
    | stop hnil => exact absurd hnil hsome
    | again _ h' => rw [ih h']

theorem exists_folds (a : Arrangement) (n : Nat) (f : Func) : ∃ ids t, a.Folds n f ids t := by
  have hrun := Transformation.settles_exhaust lightens_round f
  generalize (Transformation.exhaust round f).func = g at hrun
  induction hrun generalizing n with
  | stop hunchanged => exact ⟨_, _, .stop (listed_eq_nil.mpr hunchanged)⟩
  | @again f g hchanged _ ih =>
    obtain ⟨ids, t, hfolds⟩ := ih (n + 1)
    rw [← a.substitute_listed n] at hfolds
    refine ⟨_, _, .again ?_ hfolds⟩
    intro hnil
    cases hchanged.symm.trans (listed_eq_nil.mp hnil)

end Arrangement

theorem of_mem_uses_round {v : Nat} (h : .value v ∈ (round f).func.uses) :
    .value v ∈ f.uses ∧ (known f).lookup v = none := by
  rw [round_func] at h
  obtain ⟨c, hc, ho⟩ := List.mem_flatMap.mp h
  obtain ⟨b, hb, rfl⟩ := Func.mem_blocks_pruned.mp hc
  obtain ⟨o, ho, hreplace⟩ := Func.operands_pruned ho
  cases o with
  | value w =>
    simp only [replace] at hreplace
    split at hreplace
    next => cases hreplace
    next hnone =>
      cases hreplace
      exact ⟨List.mem_flatMap.mpr ⟨b, hb, ho⟩, hnone⟩
  | const c | param index => cases hreplace

namespace Arrangement

variable {ids : List Nat} {t : Transformed}

theorem Folds.unused {v : Nat} (h : a.Folds n f ids t) (hv : v ∈ ids ∨ .value v ∉ f.uses) :
    .value v ∉ t.func.uses := by
  induction h with
  | @stop n f hnil =>
    have hround := a.substitute_listed n f
    rw [hnil] at hround
    rw [hround]
    exact fun huse => (hv.resolve_left List.not_mem_nil) (of_mem_uses_round huse).1
  | @again n f ids t hsome _ ih =>
    refine ih ?_
    rw [a.substitute_listed]
    by_cases hlater : v ∈ ids
    · exact .inl hlater
    · right
      intro huse
      obtain ⟨hbefore, hnone⟩ := of_mem_uses_round huse
      rcases hv with hv | hv
      · obtain ⟨e, he, rfl⟩ := List.mem_map.mp ((List.mem_append.mp hv).resolve_right hlater)
        exact lookup_ne_none (mem_listed he) hnone
      · exact hv hbefore

/-- In whatever order the values of each round are replaced, folding comes to one end, and uses none
of the values it has folded. -/
theorem run_in_order (a : Arrangement) (f : Func) : ∃ folded : List Nat,
    (∀ ids t, a.Folds 0 f ids t ↔ ids = folded ∧ t = run f) ∧
      ∀ v ∈ folded, .value v ∉ (run f).func.uses := by
  obtain ⟨folded, t, h⟩ := a.exists_folds 0 f
  have hrun := h.eq_run
  subst hrun
  refine ⟨folded, ?_, fun v hv => h.unused (.inl hv)⟩
  intro ids t
  constructor
  · exact fun h' => ⟨h'.unique h, h'.eq_run⟩
  · rintro ⟨rfl, rfl⟩
    exact h

def backward : Arrangement := ⟨fun _ es => es.reverse, fun _ es => es.reverse_perm⟩

end Arrangement

end ConstantFolding

namespace Func

def sums : Func :=
  let b := ((Builder.start ⟨"sums", [("p0", .i1)], .i32⟩).appendBlock "then").2
  let b := (b.appendBlock "join").2
  let b := (b.emit (.compute (.int .add (.const (.i32 1)) (.const (.i32 2))))).2
  let b := (b.emit (.compute (.int .add (.const (.i32 3)) (.const (.i32 0))))).2
  let b := ((b.terminate (.condBr (.param 0) 1 2)).moveTo 1).terminate (.br 2)
  let b := ((b.moveTo 2).emit (.phi .i32 [(.value 0, 0), (.value 1, 1)])).2
  (b.terminate (.ret (some (.value 2)))).func

end Func

namespace ConstantFolding.Arrangement

theorem run_in_order_sums : ∃ t, backward.Folds 0 .sums [0, 1, 2] t ∧ t = run .sums ∧
    ∀ v ∈ [0, 1, 2], .value v ∉ t.func.uses := by
  have hfirst : backward.listed 0 .sums = [(0, .i32 3), (1, .i32 3)] := by decide +kernel
  have hsecond : backward.listed 1 (substitute (backward.listed 0 .sums) .sums) =
      [(2, .i32 3)] := by decide +kernel
  have hthird : backward.listed 2 (substitute (backward.listed 1 (substitute
      (backward.listed 0 .sums) .sums)) (substitute (backward.listed 0 .sums) .sums)) = [] := by
    decide +kernel
  have hfolds := Folds.again (by rw [hfirst]; exact List.cons_ne_nil _ _)
    (.again (by rw [hsecond]; exact List.cons_ne_nil _ _) (.stop hthird))
  rw [hsecond, hfirst] at hfolds
  obtain ⟨folded, hone, hunused⟩ := backward.run_in_order .sums
  obtain ⟨rfl, hrun⟩ := (hone _ _).mp hfolds
  exact ⟨_, hfolds, hrun, hrun ▸ hunused⟩

end ConstantFolding.Arrangement

end FormCompiler
