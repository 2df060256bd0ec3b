import FormCompiler.Pass.Basic

namespace FormCompiler.Transformation

/-- `g` is what `f` has become after the first round of `r` that changes nothing. -/
inductive Settles (r : Transformation) : Func → Func → Prop
  | stop {f : Func} : (r f).changed = false → Settles r f (r f).func
  | again {f g : Func} : (r f).changed = true → Settles r (r f).func g → Settles r f g

def Lightens (r : Transformation) : Prop :=
  ∀ f, (r f).changed = true → (r f).func.weight < f.weight

variable {r : Transformation} {f g h : Func}

theorem settles_exhaust (hr : r.Lightens) (f : Func) : r.Settles f (r.exhaust f).func := by
  fun_induction exhaust r f with
  | case1 f g hg ih => exact .again hg.1 ih
  | case2 f g hg =>
    refine .stop (Bool.eq_false_iff.mpr ?_)
    intro hchanged
    exact hg ⟨hchanged, hr f hchanged⟩

theorem Settles.unique (hg : r.Settles f g) (hh : r.Settles f h) : g = h := by
  induction hg with
  | stop hs =>
    cases hh with
    | stop => rfl
    | again ha => cases hs.symm.trans ha
  | again ha _ ih =>
    cases hh with
    | stop hs => cases hs.symm.trans ha
    | again _ hh => exact ih hh

theorem Settles.keeps {P : Func → Prop} (hr : ∀ f, P f → P (r f).func) (hg : r.Settles f g)
    (hf : P f) : P g := by
  induction hg with
  | stop _ => exact hr _ hf
  | again _ _ ih => exact ih (hr _ hf)

theorem Settles.exists_last (hg : r.Settles f g) : ∃ h, (r h).changed = false ∧ g = (r h).func := by
  induction hg with
  | stop hs => exact ⟨_, hs, rfl⟩
  | again _ _ ih => exact ih

inductive Stage (r : Transformation) (f : Func) : Func → Prop
  | start : Stage r f f
  | again {g : Func} : Stage r f g → (r g).changed = true → Stage r f (r g).func

theorem Settles.exists_stage (hg : r.Settles f g) : ∃ h, r.Stage f h ∧ g = (r h).func := by
  have hstage : ∀ f' g, r.Settles f' g → r.Stage f f' → ∃ h, r.Stage f h ∧ g = (r h).func := by
    intro f' g hg
    induction hg with
    | stop _ => exact fun hf => ⟨_, hf, rfl⟩
    | again hc _ ih => exact fun hf => ih (hf.again hc)
  exact hstage f g hg .start

structure Eases (r : Transformation) : Prop where
  le : ∀ f, (r f).func.weight ≤ f.weight
  lt : r.Lightens

theorem Eases.andThen {s : Transformation} (hr : r.Eases) (hs : s.Eases) :
    Eases (r.andThen s) where
  le := fun f => Nat.le_trans (hs.le _) (hr.le f)
  lt := by
    intro f hc
    rcases Bool.or_eq_true_iff.mp hc with hc | hc
    · exact Nat.lt_of_le_of_lt (hs.le _) (hr.lt f hc)
    · exact Nat.lt_of_lt_of_le (hs.lt _ hc) (hr.le f)

theorem Eases.exhaust (hr : r.Eases) : Eases r.exhaust := by
  have hboth : ∀ f, (r.exhaust f).func.weight ≤ f.weight ∧
      ((r.exhaust f).changed = true → (r.exhaust f).func.weight < f.weight) := by
    intro f
    fun_induction Transformation.exhaust r f with
    | case1 f g hg ih =>
      exact ⟨Nat.le_trans ih.1 (Nat.le_of_lt hg.2), fun _ => Nat.lt_of_le_of_lt ih.1 hg.2⟩
    | case2 f g hg => exact ⟨hr.le f, hr.lt f⟩
  exact ⟨fun f => (hboth f).1, fun f => (hboth f).2⟩

end FormCompiler.Transformation
