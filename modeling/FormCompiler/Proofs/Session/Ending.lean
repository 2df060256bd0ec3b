import FormCompiler.Proofs.Parser.Ending
import FormCompiler.Proofs.Session.Visits

namespace FormCompiler

namespace Session

variable {s : Session} {p q : Parser}

theorem verdict_beside (s : Session) (h : p.Beside q) : s.verdict p = s.verdict q := by
  unfold verdict
  rw [h.reading]

theorem turn_beside (s : Session) (h : p.Beside q) :
    (s.turn p).session = (s.turn q).session ∧ (s.turn p).parser.Beside (s.turn q).parser := by
  rw [turn_eq, turn_eq, h.reading]
  cases q.reading with
  | declaration d =>
    refine ⟨rfl, ?_⟩
    simp only
    split
    · exact h.afterwards
    · exact h.afterwards.reject
  | faulty => exact ⟨rfl, h.afterwards.reject⟩
  | expression a => exact ⟨rfl, h.afterwards.countAnonymous⟩
  | _ => exact ⟨rfl, h.afterwards⟩

theorem goesOn_beside (s : Session) (h : p.Beside q) (hnone : p.errors = []) :
    s.GoesOn p ↔ s.GoesOn q := by
  rw [goesOn_iff s hnone, goesOn_iff s (h.errors ▸ hnone), verdict_beside s h]

theorem turns_beside (h : p.Beside q) (hnone : p.errors = []) (seen seen' : Array Event) :
    (s.turns p seen).1 = (s.turns q seen').1 ∧ s.verdicts p = s.verdicts q := by
  induction hn : p.remaining using Nat.strongRecOn generalizing s p q seen seen' with
  | ind n ih =>
    subst hn
    obtain ⟨hsession, hparser⟩ := turn_beside s h
    by_cases hgoes : s.GoesOn p
    · have hgoes' := (goesOn_beside s h hnone).mp hgoes
      obtain ⟨hsame, hverdicts⟩ := ih _ hgoes.2 (s := (s.turn p).session) hparser (errors_turn s p)
        (seen ++ (s.turn p).events) (seen' ++ (s.turn q).events) rfl
      rw [turns_of_goesOn hgoes, turns_of_goesOn hgoes', hsame, hsession]
      refine ⟨rfl, ?_⟩
      unfold Session.verdicts at hverdicts ⊢
      rw [visits_of_goesOn hgoes, visits_of_goesOn hgoes', List.map_cons, List.map_cons, hverdicts,
        hsession, verdict_beside s h]
    · have hgoes' := (goesOn_beside s h hnone).not.mp hgoes
      rw [turns_of_not_goesOn hgoes, turns_of_not_goesOn hgoes', hsession]
      refine ⟨rfl, ?_⟩
      unfold Session.verdicts
      rw [visits_of_not_goesOn hgoes, visits_of_not_goesOn hgoes', List.map_singleton,
        List.map_singleton, verdict_beside s h]

theorem noted_beside (h : p.Beside q) (hp : p.Silent) (hq : q.Silent) : noted p = noted q := by
  unfold noted
  rw [h.notes hp hq, h.next.2.errors]

theorem silent_turn (s : Session) (h : p.Silent) : (s.turn p).parser.Silent := by
  unfold Parser.Silent
  rw [cursor_turn]
  exact h.next

theorem events_beside (h : p.Beside q) (hnone : p.errors = []) (hp : p.Silent) (hq : q.Silent)
    (seen : Array Event) : (s.turns p seen).2.2 = (s.turns q seen).2.2 := by
  induction hn : p.remaining using Nat.strongRecOn generalizing s p q seen with
  | ind n ih =>
    subst hn
    obtain ⟨hsession, hparser⟩ := turn_beside s h
    have hevents : (s.turn p).events = (s.turn q).events := by
      rw [turn_eq, turn_eq, h.reading, noted_beside h hp hq]
      cases q.reading <;> rfl
    by_cases hgoes : s.GoesOn p
    · have hgoes' := (goesOn_beside s h hnone).mp hgoes
      rw [turns_of_goesOn hgoes, turns_of_goesOn hgoes', ← hsession, ← hevents]
      exact ih _ hgoes.2 hparser (errors_turn s p) (silent_turn s hp) (silent_turn s hq) _ rfl
    · have hgoes' := (goesOn_beside s h hnone).not.mp hgoes
      rw [turns_of_not_goesOn hgoes, turns_of_not_goesOn hgoes', hevents]

end Session

def Parser.after (p : Parser) : Nat → Parser
  | 0 => p
  | n + 1 => p.next.parser.after n

theorem Parser.Beside.after {p q : Parser} (h : p.Beside q) (n : Nat) :
    (p.after n).Beside (q.after n) := by
  induction n generalizing p q with
  | zero => exact h
  | succ n ih => exact ih h.next.2

structure TokenStream.Alike (s s' : TokenStream) : Prop where
  next : ∀ n,
    ((Parser.ofStream s).after n).next.result = ((Parser.ofStream s').after n).next.result ∧
    ((Parser.ofStream s).after n).errors = ((Parser.ofStream s').after n).errors
  forms : (Parser.ofStream s).forms.result = (Parser.ofStream s').forms.result ∧
    (Parser.ofStream s).forms.parser.errors = (Parser.ofStream s').forms.parser.errors
  session : ∀ t : Session, (t.run s).session = (t.run s').session
  output : ∀ t : Session,
    (t.run s).events.filter Event.isOutput = (t.run s').events.filter Event.isOutput
  events : s.audible = false → s'.audible = false →
    ∀ t : Session, (t.run s).events = (t.run s').events

/-- Nothing after the first end matters, and no token is taken in place of an end before the next
form begins. -/
theorem TokenStream.alike_of_agree {s s' : TokenStream} (h : s.Agree s') :
    s.Alike s' ∧ ∀ p : Parser, p.cursor.advance.Walks p.next.parser.cursor := by
  have hbeside : (Parser.ofStream s).Beside (Parser.ofStream s') := .ofStream h
  have hturns : ∀ t : Session, (t.run s).session = (t.run s').session := fun t =>
    (Session.turns_beside hbeside rfl #[] #[]).1
  refine ⟨⟨fun n => ?_, ?_, hturns, fun t => ?_, fun hs hs' t => ?_⟩, Parser.walks_next⟩
  · exact ⟨(hbeside.after n).next.1, (hbeside.after n).errors⟩
  · exact ⟨hbeside.forms.1, hbeside.forms.2.errors⟩
  · rw [Session.run_output, Session.run_output, (Session.turns_beside hbeside rfl #[] #[]).2]
  · have hsession := hturns t
    have hevents := Session.events_beside (s := t) hbeside rfl hs hs' #[]
    unfold Session.run at hsession ⊢
    simp only at hsession ⊢
    rw [hsession, hevents]

theorem TokenStream.alike_queued :
    let source : Source := .ofText "int f("
    (ofSource source).ending ≠ (queued source).ending ∧ (ofSource source).Alike (queued source) ∧
      ∀ p : Parser, p.cursor.advance.Walks p.next.parser.cursor := by
  intro source
  exact ⟨by decide, alike_of_agree (agree_queued source)⟩

end FormCompiler
