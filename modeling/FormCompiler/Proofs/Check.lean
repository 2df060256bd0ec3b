namespace FormCompiler

variable {ε α : Type} {check : α → Except ε Unit} {xs : List α}

theorem forM_cons_eq {x : α} :
    (x :: xs).forM check = (check x >>= fun _ => xs.forM check) := rfl

theorem forM_eq_ok : xs.forM check = .ok () ↔ ∀ x ∈ xs, check x = .ok () := by
  induction xs with
  | nil => exact ⟨fun _ _ h => absurd h List.not_mem_nil, fun _ => rfl⟩
  | cons x xs ih =>
    rw [forM_cons_eq, List.forall_mem_cons, ← ih]
    cases hx : check x with
    | ok u => exact ⟨fun h => ⟨rfl, h⟩, fun h => h.2⟩
    | error e => exact ⟨fun h => (by cases h), fun h => (by cases h.1)⟩

theorem exists_of_forM_eq_error {e : ε} (h : xs.forM check = .error e) :
    ∃ x ∈ xs, check x = .error e := by
  induction xs with
  | nil => cases h
  | cons x xs ih =>
    rw [forM_cons_eq] at h
    cases hx : check x with
    | ok u =>
      rw [hx] at h
      obtain ⟨y, hy, he⟩ := ih h
      exact ⟨y, List.mem_cons_of_mem x hy, he⟩
    | error e' =>
      rw [hx] at h
      cases h
      exact ⟨x, List.mem_cons_self, hx⟩

theorem bind_eq_ok {β : Type} {action : Except ε α} {f : α → Except ε β} {b : β} :
    (action >>= f) = .ok b ↔ ∃ a, action = .ok a ∧ f a = .ok b := by
  cases action with
  | ok a => exact ⟨fun h => ⟨a, rfl, h⟩, fun ⟨_, ha, h⟩ => by cases ha; exact h⟩
  | error e => exact ⟨fun h => (by cases h), fun ⟨_, ha, _⟩ => by cases ha⟩

theorem bind_eq_error {β : Type} {action : Except ε α} {f : α → Except ε β} {e : ε} :
    (action >>= f) = .error e ↔ action = .error e ∨ ∃ a, action = .ok a ∧ f a = .error e := by
  cases action with
  | ok a =>
    change f a = .error e ↔ _
    simp
  | error e' =>
    change Except.error e' = .error e ↔ _
    simp

theorem mapError_ok {ε' : Type} (fault : ε → ε') (a : α) :
    (Except.ok a).mapError fault = .ok a := rfl

theorem mapError_error {ε' : Type} (fault : ε → ε') (e : ε) :
    (Except.error e : Except ε α).mapError fault = .error (fault e) := rfl

theorem mapError_eq_ok {ε' : Type} {fault : ε → ε'} {r : Except ε α} {a : α} :
    r.mapError fault = .ok a ↔ r = .ok a := by
  cases r with
  | ok a' => rw [mapError_ok, Except.ok.injEq, Except.ok.injEq]
  | error e => simp [mapError_error]

end FormCompiler
