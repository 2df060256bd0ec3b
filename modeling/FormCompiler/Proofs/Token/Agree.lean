import Mathlib.Data.List.GetD
import FormCompiler.Cursor
import FormCompiler.Proofs.Token.Lexer
import FormCompiler.Token.Queue

namespace FormCompiler

namespace TokenStream

def nth (s : TokenStream) : Nat → Token
  | 0 => s.next.1
  | n + 1 => s.next.2.nth n

structure AgreeTo (n : Nat) (s s' : TokenStream) : Prop where
  same : ∀ i ≤ n, s.nth i = s'.nth i
  before : ∀ i < n, (s.nth i).kind ≠ .eof
  ending : (s.nth n).kind = .eof
  after : ∀ i > n, (s.nth i).kind = .eof ∧ (s'.nth i).kind = .eof

def Agree (s s' : TokenStream) : Prop := ∃ n, AgreeTo n s s'

def Spent (s : TokenStream) : Prop := ∀ n, (s.nth n).kind = .eof

variable {s s' : TokenStream}

theorem Agree.next (h : s.Agree s') : s.next.1 = s'.next.1 :=
  h.elim fun _ hagree => hagree.same 0 (Nat.zero_le _)

theorem Agree.tail (h : s.Agree s') (hmore : s.next.1.kind ≠ .eof) : s.next.2.Agree s'.next.2 := by
  obtain ⟨n, hagree⟩ := h
  cases n with
  | zero => exact absurd hagree.ending hmore
  | succ n =>
    exact ⟨n, fun i hle => hagree.same (i + 1) (Nat.succ_le_succ hle),
      fun i hless => hagree.before (i + 1) (Nat.succ_lt_succ hless), hagree.ending,
      fun i hlater => hagree.after (i + 1) (Nat.succ_lt_succ hlater)⟩

theorem Agree.spent (h : s.Agree s') (hdone : s.next.1.kind = .eof) :
    s.next.2.Spent ∧ s'.next.2.Spent := by
  obtain ⟨n, hagree⟩ := h
  cases n with
  | zero =>
    exact ⟨fun i => (hagree.after (i + 1) (Nat.succ_pos _)).1,
      fun i => (hagree.after (i + 1) (Nat.succ_pos _)).2⟩
  | succ n => exact absurd hdone (hagree.before 0 (Nat.succ_pos _))

theorem Spent.next (h : s.Spent) : s.next.1.kind = .eof := h 0

theorem Spent.tail (h : s.Spent) : s.next.2.Spent := fun n => h (n + 1)

theorem nth_eq (s : TokenStream) (n : Nat) : s.nth n = s.pending.getD n ⟨.eof, s.ending⟩ := by
  obtain ⟨pending, ending, closing, audible⟩ := s
  induction n generalizing pending with
  | zero => cases pending <;> rfl
  | succ n ih => cases pending <;> exact ih _

/-- Streams with the same tokens, an end as the last of them, agree wherever their ends stand
afterwards. -/
theorem agree_of_pending {us : List Token} {t : Token} (h : s.pending = us ++ [t])
    (h' : s'.pending = us ++ [t]) (hbefore : ∀ u ∈ us, u.kind ≠ .eof) (hending : t.kind = .eof) :
    s.Agree s' := by
  refine ⟨us.length, fun i hle => ?_, fun i hless => ?_, ?_, fun i hlater => ?_⟩
  · have hinside : i < (us ++ [t]).length := by
      rw [List.length_append]
      exact Nat.lt_succ_of_le hle
    rw [nth_eq, nth_eq, h, h']
    exact (List.getD_eq_getElem _ _ hinside).trans (List.getD_eq_getElem _ _ hinside).symm
  · rw [nth_eq, h, List.getD_append _ _ _ _ hless, List.getD_eq_getElem _ _ hless]
    exact hbefore _ (List.getElem_mem hless)
  · rw [nth_eq, h]
    simpa using hending
  · have hpast : (us ++ [t]).length ≤ i := by
      rw [List.length_append]
      exact hlater
    rw [nth_eq, nth_eq, h, h', List.getD_eq_default _ _ hpast, List.getD_eq_default _ _ hpast]
    exact ⟨rfl, rfl⟩

theorem agree_queued (source : Source) : (ofSource source).Agree (queued source) := by
  obtain ⟨us, hsplit, hbefore⟩ := (lexes_tokenize source.chars).ended
  exact agree_of_pending hsplit hsplit hbefore rfl

end TokenStream

namespace Cursor

structure Meets (c d : Cursor) : Prop where
  current : c.current = d.current
  going : c.kind ≠ .eof → c.stream.Agree d.stream
  done : c.kind = .eof → c.stream.Spent ∧ d.stream.Spent

inductive Walks (c : Cursor) : Cursor → Prop
  | refl : Walks c c
  | advance {d : Cursor} : Walks c d → d.kind ≠ .eof → Walks c d.advance

variable {c d e : Cursor}

theorem Meets.kind (h : c.Meets d) : c.kind = d.kind := congrArg Token.kind h.current

theorem Meets.advance (h : c.Meets d) (hmore : c.kind ≠ .eof) : c.advance.Meets d.advance where
  current := (h.going hmore).next
  going := (h.going hmore).tail
  done := (h.going hmore).spent

theorem Walks.trans (hd : c.Walks d) (he : d.Walks e) : c.Walks e := by
  induction he with
  | refl => exact hd
  | advance _ hmore ih => exact ih.advance hmore

theorem Walks.after (hmore : c.kind ≠ .eof) (h : c.advance.Walks d) : c.Walks d :=
  Walks.trans (.advance .refl hmore) h

end Cursor

end FormCompiler
