import FormCompiler.Proofs.Lowering.Careful

namespace FormCompiler

theorem Entries.insert_of_not_mem {α : Type} {key : String} {value : α}
    {es : List (String × α)} (h : key ∉ keys es) : insert key value es = es ++ [(key, value)] := by
  induction es with
  | nil => rfl
  | cons e rest ih =>
    obtain ⟨k, v⟩ := e
    have hk : k ≠ key := by
      rintro rfl
      exact h List.mem_cons_self
    rw [insert, if_neg hk, ih fun hrest => h (List.mem_cons_of_mem _ hrest)]
    rfl

structure Registry.Redeclares (r : Registry) (u u' : CodeUnit) : Prop where
  name : u'.name = u.name
  layout : u'.layout = u.layout
  entries : ∃ added : List Signature, (∀ s ∈ added, ∃ known, r.signature? known = some s) ∧
    u'.funcs.entries = u.funcs.entries ++ added.map fun s => (s.name, { signature := s })

namespace Registry.Redeclares

variable {r : Registry} {u u' u'' : CodeUnit}

theorem refl : r.Redeclares u u :=
  ⟨rfl, rfl, [], fun _ hs => absurd hs List.not_mem_nil, (List.append_nil _).symm⟩

theorem trans (h : r.Redeclares u u') (h' : r.Redeclares u' u'') : r.Redeclares u u'' := by
  obtain ⟨added, hknown, hentries⟩ := h.entries
  obtain ⟨added', hknown', hentries'⟩ := h'.entries
  refine ⟨h'.name.trans h.name, h'.layout.trans h.layout, added ++ added', ?_, ?_⟩
  · intro s hs
    exact (List.mem_append.mp hs).elim (hknown s) (hknown' s)
  · rw [hentries', hentries, List.map_append, List.append_assoc]

theorem declare {s : Signature} {known : String} (hs : r.signature? known = some s) :
    r.Redeclares u (u.declare s) := by
  unfold CodeUnit.declare
  split
  next => exact refl
  next hc =>
    refine ⟨rfl, rfl, [s], fun s' hs' => ⟨known, by rw [List.mem_singleton.mp hs', hs]⟩, ?_⟩
    refine Entries.insert_of_not_mem (Entries.find?_eq_none.mp ?_)
    exact Option.not_isSome_iff_eq_none.mp hc

theorem resolve (r : Registry) (u : CodeUnit) (name : String) :
    r.Redeclares u (r.resolve u name).2.1 := by
  unfold Registry.resolve
  split
  next => exact refl
  next =>
    split
    next s hs => exact declare hs
    next => exact refl

theorem get?_of_some (h : r.Redeclares u u') {name : String} {f : Func}
    (hf : u.get? name = some f) : u'.get? name = some f := by
  obtain ⟨added, _, hentries⟩ := h.entries
  refine Entries.find?_of_mem u'.funcs.nodup ?_
  rw [hentries]
  exact List.mem_append_left _ (Entries.mem_of_find? hf)

theorem get?_of_none (h : r.Redeclares u u') {name : String} {f : Func}
    (hu : u.get? name = none) (hf : u'.get? name = some f) :
    ∃ known s, r.signature? known = some s ∧ s.name = name ∧ f = { signature := s } := by
  obtain ⟨added, hknown, hentries⟩ := h.entries
  have hmem := Entries.mem_of_find? hf
  rw [hentries] at hmem
  rcases List.mem_append.mp hmem with hold | hnew
  · cases hu.symm.trans (Entries.find?_of_mem u.funcs.nodup hold)
  · obtain ⟨s, hs, he⟩ := List.mem_map.mp hnew
    obtain ⟨known, hr⟩ := hknown s hs
    cases he
    exact ⟨known, s, hr, rfl, rfl⟩

end Registry.Redeclares

structure Lowering.Adds (r : Registry) (s s' : Lowering) : Prop where
  unit : r.Redeclares s.unit s'.unit
  signature : s'.builder.func.signature = s.builder.func.signature

theorem Lowering.Adds.refl {r : Registry} {s : Lowering} : s.Adds r s := ⟨.refl, rfl⟩

theorem Lowering.Adds.trans {r : Registry} {s s' s'' : Lowering} (h : s.Adds r s')
    (h' : s'.Adds r s'') : s.Adds r s'' :=
  ⟨h.unit.trans h'.unit, h'.signature.trans h.signature⟩

namespace Lower

variable {α β : Type} {r : Registry} {env : LowerEnv}

def after : EStateM.Result LowerError Lowering α → Lowering
  | .ok _ s => s
  | .error _ s => s

def Adds (r : Registry) (action : Lower α) : Prop :=
  ∀ s : Lowering, s.Adds r (after (action s))

theorem Adds.of_ok {action : Lower α} (h : Adds r action) {a : α} {s s' : Lowering}
    (ha : action s = .ok a s') : s.Adds r s' := by
  have hs := h s
  rwa [ha] at hs

theorem Adds.of_error {action : Lower α} (h : Adds r action) {e : LowerError} {s s' : Lowering}
    (ha : action s = .error e s') : s.Adds r s' := by
  have hs := h s
  rwa [ha] at hs

theorem Adds.bind {action : Lower α} {f : α → Lower β} (h : Adds r action)
    (hf : ∀ a, Adds r (f a)) : Adds r (action >>= f) := by
  intro s
  simp only [Bind.bind, EStateM.bind]
  cases ha : action s with
  | ok a s' => exact (h.of_ok ha).trans (hf a s')
  | error e s' => exact h.of_error ha

theorem Adds.pure (a : α) : Adds r (Pure.pure a) := fun _ => .refl

theorem Adds.throw (e : LowerError) : Adds r (throw e : Lower α) := fun _ => .refl

theorem adds_get : Adds r (get : Lower Lowering) := fun _ => .refl

theorem adds_note (n : Note) : Adds r (note n) := fun _ => ⟨.refl, rfl⟩

theorem adds_emit (op : Operation) : Adds r (emit op) := fun _ => ⟨.refl, rfl⟩

theorem adds_compute (c : Computation) : Adds r (compute c) := adds_emit _

theorem adds_terminate (t : Terminator) : Adds r (terminate t) := fun _ => ⟨.refl, rfl⟩

theorem adds_appendBlock (label : String) : Adds r (appendBlock label) := fun _ => ⟨.refl, rfl⟩

theorem adds_moveTo (id : Nat) : Adds r (moveTo id) := fun _ => ⟨.refl, rfl⟩

theorem adds_currentBlock : Adds r currentBlock := fun _ => .refl

theorem adds_typeOf (o : Operand) : Adds r (typeOf o) := fun _ => .refl

theorem adds_assign (name : String) (o : Operand) : Adds r (assign name o) :=
  fun _ => ⟨.refl, rfl⟩

theorem adds_meant (name : String) (span : Span) : Adds r (meant name span) := by
  refine adds_get.bind fun s => ?_
  split
  · exact .pure _
  · exact .throw _

theorem adds_signature? (env : LowerEnv) (name : String) :
    Adds env.registry (signature? env name) :=
  fun s => ⟨.resolve env.registry s.unit name, rfl⟩

theorem adds_call {callee : String} {arity : Nat} {span : Span}
    {args : List NativeType → Lower (List Operand)}
    (hargs : ∀ types, Adds env.registry (args types)) :
    Adds env.registry (call env callee arity span args) := by
  refine (adds_signature? env callee).bind fun found => ?_
  cases found with
  | none => exact .throw _
  | some signature =>
    simp only
    split
    · exact .throw _
    · exact (hargs _).bind fun values => adds_emit _

theorem adds_rules (env : LowerEnv) :
    Rules (fun action _ => Adds env.registry action) Eq (fun _ => True) env env where
  nowhere := rfl
  unsignedCompare := rfl
  pure := .pure
  bind h hf := h.bind hf
  throw _ := .throw _
  note n _ := adds_note n
  compute := adds_compute
  phi _ _ := adds_emit _
  terminate := adds_terminate
  appendBlock := adds_appendBlock
  moveTo := adds_moveTo
  currentBlock := adds_currentBlock
  typeOf := adds_typeOf
  assign := adds_assign
  meant name span _ _ := adds_meant name span
  call _ _ hargs := adds_call hargs

/-- Lowering a body only adds declarations to the unit, however far it comes. -/
theorem adds_lowerBody (env : LowerEnv) (signature : Signature) (body : List Stmt)
    (result : Option Expr) : Adds env.registry (lowerBody env signature body result) :=
  (adds_rules env).lowerBody_self signature body result

end Lower

end FormCompiler
