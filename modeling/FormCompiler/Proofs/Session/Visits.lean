import FormCompiler.Proofs.Parser.Words
import FormCompiler.Proofs.Session.Levels
import FormCompiler.Proofs.Session.Steps

namespace FormCompiler

theorem Parser.parsed_of_reading {p : Parser} {d : Declaration} (h : p.reading = .declaration d) :
    d.Parsed := by
  unfold reading at h
  cases hnext : p.next.result with
  | none =>
    simp only [hnext] at h
    split at h <;> cases h
  | some form =>
    simp only [hnext] at h
    split at h
    · cases h
    · split at h
      · cases form with
        | declaration d' =>
          cases h
          exact ⟨p, hnext⟩
        | anonymous a => cases h
        | expression e => cases h
      · cases h

namespace Session

variable {s s' : Session} {p : Parser}

theorem Commits.code_get? {registry : Registry} {f : Func} (h : s.Commits s' registry [f])
    (name : String) :
    s'.code.get? name = if f.name = name then some f else s.code.get? name := by
  rw [code, h.engine]
  exact Table.get?_insert _ _ _ _

@[simp] theorem visits_zero : (s.visits p)[0]? = some (s, p) := by
  rw [visits]
  rfl

/-- What holds of the first turn, and of each turn if it holds of the one before, holds of all. -/
theorem visits_induction {P : Nat → Session → Parser → Prop} (hzero : P 0 s p)
    (hsucc : ∀ i s' p', (s.visits p)[i]? = some (s', p') → P i s' p' →
      P (i + 1) (s'.turn p').session (s'.turn p').parser)
    {i : Nat} {s' : Session} {p' : Parser} (hv : (s.visits p)[i]? = some (s', p')) :
    P i s' p' := by
  induction hn : p.remaining using Nat.strongRecOn generalizing s p i P with
  | ind n ih =>
    subst hn
    by_cases hgoes : s.GoesOn p
    · have hvisits := visits_of_goesOn hgoes
      cases i with
      | zero =>
        rw [visits_zero] at hv
        cases hv
        exact hzero
      | succ i =>
        rw [hvisits, List.getElem?_cons_succ] at hv
        refine ih _ hgoes.2 (P := fun i => P (i + 1)) (hsucc 0 s p visits_zero hzero) ?_ hv rfl
        intro i s' p' hv
        exact hsucc (i + 1) s' p' (by rw [hvisits, List.getElem?_cons_succ]; exact hv)
    · rw [visits_of_not_goesOn hgoes] at hv
      cases i with
      | zero =>
        cases hv
        exact hzero
      | succ i => cases hv

theorem errors_turn (s : Session) (p : Parser) : (s.turn p).parser.errors = [] := by
  rw [turn_eq]
  cases p.reading with
  | declaration d =>
    simp only
    split <;> rfl
  | _ => rfl

theorem cursor_turn (s : Session) (p : Parser) :
    (s.turn p).parser.cursor = p.afterwards.cursor := by
  rw [turn_eq]
  cases p.reading with
  | declaration d =>
    simp only
    split <;> rfl
  | _ => rfl

theorem spelled_turn (s : Session) {W : String → Prop} (h : p.cursor.Spelled W) :
    (s.turn p).parser.cursor.Spelled W := by
  rw [cursor_turn]
  exact Parser.afterwards_spelled h

theorem verdict_eq_ended : s.verdict p = .ended ↔ p.reading = .ending := by
  unfold verdict
  cases p.reading <;> simp

theorem goesOn_iff (s : Session) (h : p.errors = []) : s.GoesOn p ↔ s.verdict p ≠ .ended := by
  have hremaining : (s.turn p).parser.remaining = p.afterwards.remaining := by
    unfold Parser.remaining
    rw [cursor_turn]
  unfold GoesOn
  rw [hremaining, ne_eq, verdict_eq_ended]
  constructor
  · rintro ⟨hended, _⟩ hr
    rw [turn_eq, hr] at hended
    cases hended
  · intro hr
    refine ⟨?_, Parser.remaining_afterwards_lt h hr⟩
    rw [turn_eq]
    cases hreading : p.reading with
    | ending => exact absurd hreading hr
    | _ => rfl

theorem turns_of_goesOn (h : s.GoesOn p) (seen : Array Event) :
    s.turns p seen = (s.turn p).session.turns (s.turn p).parser (seen ++ (s.turn p).events) := by
  rw [turns]
  exact dif_pos h

theorem turns_of_not_goesOn (h : ¬ s.GoesOn p) (seen : Array Event) :
    s.turns p seen = ((s.turn p).session, (s.turn p).parser, seen ++ (s.turn p).events) := by
  rw [turns]
  exact dif_neg h

theorem turn_extend (s : Session) {q : Parser} {more : List Token} (hmore : more ≠ [])
    (hleft : more <:+ (q.extend more).afterwards.cursor.stream.pending) :
    ∃ (v : Verdict) (t : Session) (q₁ : Parser), q₁.errors = [] ∧ ∀ more,
      s.verdict (q.extend more) = v ∧ (s.turn (q.extend more)).session = t ∧
        (s.turn (q.extend more)).parser = q₁.extend more := by
  obtain ⟨reading, q₁, hread⟩ := Parser.reading_extend hmore hleft
  have herrors : q₁.errors = [] := (congrArg Parser.errors (hread more).2).symm
  simp only [verdict, turn_eq, (hread _).1, (hread _).2]
  cases reading with
  | nothing => exact ⟨.skipped, s, q₁, herrors, fun _ => ⟨rfl, rfl, rfl⟩⟩
  | broken => exact ⟨.refused, s.countForm.countFailed, q₁, herrors, fun _ => ⟨rfl, rfl, rfl⟩⟩
  | ending => exact ⟨.ended, s, q₁, herrors, fun _ => ⟨rfl, rfl, rfl⟩⟩
  | faulty =>
    exact ⟨.refused, s.countForm.countFailed, q₁.reject, herrors, fun _ => ⟨rfl, rfl, rfl⟩⟩
  | declaration d =>
    simp only
    cases (s.countForm.declare d).result with
    | true => exact ⟨.declared true, _, q₁, herrors, fun _ => ⟨rfl, rfl, rfl⟩⟩
    | false => exact ⟨.declared false, _, q₁.reject, herrors, fun _ => ⟨rfl, rfl, rfl⟩⟩
  | expression a =>
    exact ⟨.evaluated (s.countForm.answer? a), _, q₁.countAnonymous, herrors,
      fun _ => ⟨rfl, rfl, rfl⟩⟩

inductive Reads : Session → Parser → List Verdict → Session → Parser → Prop
  | nil {s : Session} {p : Parser} : Reads s p [] s p
  | cons {s s' : Session} {p p' : Parser} {vs : List Verdict} : s.GoesOn p →
      Reads (s.turn p).session (s.turn p).parser vs s' p' → Reads s p (s.verdict p :: vs) s' p'

theorem exists_reads {v : Session × Parser} (hv : v ∈ s.visits p) :
    ∃ vs, Reads s p vs v.1 v.2 := by
  induction s, p using Session.visits.induct with
  | case1 s p u =>
    rename_i ih
    by_cases hgo : s.GoesOn p
    · rw [visits_of_goesOn hgo] at hv
      rcases List.mem_cons.mp hv with rfl | hv
      · exact ⟨[], .nil⟩
      · obtain ⟨vs, hvs⟩ := ih hgo hv
        exact ⟨_, .cons hgo hvs⟩
    · rw [visits_of_not_goesOn hgo] at hv
      rw [List.mem_singleton.mp hv]
      exact ⟨[], .nil⟩

namespace Reads

variable {vs : List Verdict} {p' : Parser}

theorem verdicts (h : Reads s p vs s' p') : s.verdicts p = vs ++ s'.verdicts p' := by
  induction h with
  | nil => rfl
  | cons hgo _ ih =>
    rw [List.cons_append, ← ih, Session.verdicts, visits_of_goesOn hgo]
    rfl

theorem turns (h : Reads s p vs s' p') (seen : Array Event) :
    ∃ seen', s.turns p seen = s'.turns p' seen' := by
  induction h generalizing seen with
  | nil => exact ⟨seen, rfl⟩
  | cons hgo _ ih =>
    rw [turns_of_goesOn hgo]
    exact ih _

theorem suffix (h : Reads s p vs s' p') : p'.cursor.stream.pending <:+ p.cursor.stream.pending := by
  induction h with
  | nil => exact List.suffix_refl _
  | cons _ _ ih =>
    rw [cursor_turn] at ih
    exact ih.trans (Parser.leads_afterwards _).after.suffix

theorem extend {q : Parser} {more : List Token} (h : Reads s (q.extend more) vs s' p')
    (herrors : q.errors = []) (hmore : more ≠ []) (hleft : more <:+ p'.cursor.stream.pending) :
    ∃ q' : Parser, q'.errors = [] ∧ p' = q'.extend more ∧
      ∀ more, Reads s (q.extend more) vs s' (q'.extend more) := by
  generalize hp : q.extend more = p at h
  induction h generalizing q with
  | nil => exact ⟨q, herrors, hp.symm, fun _ => .nil⟩
  | @cons s s' p p' vs hgo hrest ih =>
    subst hp
    have hafter : more <:+ (q.extend more).afterwards.cursor.stream.pending := by
      have hsuffix := hrest.suffix
      rw [cursor_turn] at hsuffix
      exact hleft.trans hsuffix
    obtain ⟨v, t, q₁, herrors₁, hturn⟩ := turn_extend s hmore hafter
    rw [(hturn more).2.1, (hturn more).2.2] at ih
    obtain ⟨q', herrors', hp', hreads⟩ := ih herrors₁ hleft rfl
    refine ⟨q', herrors', hp', fun more' => ?_⟩
    obtain ⟨hv, hs, hp⟩ := hturn more'
    rw [(hturn more).1, ← hv]
    refine .cons ?_ ?_
    · rw [goesOn_iff s (show (q.extend more').errors = [] from herrors), hv, ← (hturn more).1]
      exact (goesOn_iff s (show (q.extend more).errors = [] from herrors)).mp hgo
    · rw [hs, hp]
      exact hreads more'

end Reads

end Session

end FormCompiler
