import Mathlib.Data.List.Basic
import FormCompiler.Proofs.Token.Tokenizer

namespace FormCompiler

namespace Position

def endOf (cs : List Char) : Position where
  line := 1 + cs.count '\n'
  column := 1 + (cs.reverse.takeWhile fun c => c != '\n').length
  offset := cs.length

@[simp] theorem offset_endOf (cs : List Char) : (endOf cs).offset = cs.length := rfl

theorem endOf_concat (cs : List Char) (c : Char) : endOf (cs ++ [c]) = (endOf cs).after c := by
  by_cases h : c = '\n'
  · subst h
    simp [endOf, after, Nat.add_assoc]
  · simp [endOf, after, h, Nat.add_comm]

theorem endOf_append (cs ds : List Char) : endOf (cs ++ ds) = (endOf cs).afterAll ds := by
  induction ds generalizing cs with
  | nil => simp
  | cons d ds ih =>
    rw [afterAll_cons, ← endOf_concat, ← ih, List.append_assoc, List.singleton_append]

theorem afterAll_first (cs : List Char) : first.afterAll cs = endOf cs := (endOf_append [] cs).symm

end Position

namespace Kind

theorem spelling_ofWord (word : String) : (ofWord word).spelling = word := by
  unfold ofWord
  split <;> rfl

theorem ofWord_ne_eof (word : String) : ofWord word ≠ .eof := by
  unfold ofWord
  split <;> simp

theorem spelling_ofPunctuation {c : Char} {kind : Kind} (h : ofPunctuation? c = some kind) :
    kind.spelling.toList = [c] ∧ kind ≠ .eof := by
  unfold ofPunctuation? at h
  split at h <;> cases h <;> exact ⟨by decide, by simp⟩

end Kind

namespace Scanned

theorem spelling_token (c : Char) (cs : List Char) :
    (token c cs).kind.spelling.toList = (token c cs).lexeme ∧ (token c cs).kind ≠ .eof := by
  unfold token
  split
  · case h_1 kind known => exact Kind.spelling_ofPunctuation known
  · split
    · exact ⟨by simp [word, Kind.spelling_ofWord], Kind.ofWord_ne_eof _⟩
    · split
      · unfold numeral
        split <;> exact ⟨by simp [Kind.spelling], by simp⟩
      · exact ⟨by simp [Kind.spelling], by simp⟩

end Scanned

inductive Lexes : List Char → List Char → List Token → Prop
  | done : Lexes front [] [⟨.eof, .point (.endOf front)⟩]
  | blank : Text.isBlank c = true → Lexes (front ++ [c]) cs ts → Lexes front (c :: cs) ts
  | token : kind ≠ .eof → kind.spelling.toList ≠ [] →
      Lexes (front ++ kind.spelling.toList) cs ts →
      Lexes front (kind.spelling.toList ++ cs)
        (⟨kind, ⟨.endOf front, .endOf (front ++ kind.spelling.toList)⟩⟩ :: ts)

theorem lexes_read (front cs : List Char) : Lexes front cs (Token.read (.endOf front) cs) := by
  generalize hfront : Position.endOf front = p
  fun_induction Token.read p cs generalizing front with
  | case1 p => exact hfront ▸ .done
  | case2 p c cs hblank ih =>
    refine .blank hblank (ih _ ?_)
    rw [Position.endOf_concat, hfront]
  | case3 p c cs hvisible s stop ih =>
    obtain ⟨hspelled, hgoing⟩ := Scanned.spelling_token c cs
    have hplace : Position.endOf (front ++ s.lexeme) = stop := by
      rw [Position.endOf_append, hfront]
    have hne : s.lexeme ≠ [] := Scanned.lexeme_ne_nil c cs
    rw [← Scanned.lexeme_append_rest c cs, ← hplace, ← hfront]
    rw [← hspelled] at hplace hne ⊢
    exact .token hgoing hne (hplace ▸ ih _ hplace)

theorem lexes_tokenize (cs : List Char) : Lexes [] cs (tokenize cs) := lexes_read [] cs

namespace Span

def Covers (s : Span) (k : Nat) : Prop := s.start.offset ≤ k ∧ k < s.stop.offset

def slice (s : Span) (cs : List Char) : List Char := (cs.drop s.start.offset).take s.size

structure In (cs : List Char) (s : Span) : Prop where
  start : s.start = .endOf (cs.take s.start.offset)
  stop : s.stop = .endOf (cs.take s.stop.offset)

theorem in_between (front mid later : List Char) :
    Span.In (front ++ mid ++ later) ⟨.endOf front, .endOf (front ++ mid)⟩ where
  start := by rw [Position.offset_endOf, List.append_assoc, List.take_left]
  stop := by rw [Position.offset_endOf, List.take_left]

theorem slice_between (front mid later : List Char) :
    Span.slice ⟨.endOf front, .endOf (front ++ mid)⟩ (front ++ mid ++ later) = mid := by
  simp [slice, size, Position.endOf]

end Span

namespace Lexes

variable {front cs : List Char} {ts : List Token}

theorem start_le (h : Lexes front cs ts) : ∀ t ∈ ts, front.length ≤ t.span.start.offset := by
  induction h with
  | done => simp [Span.point, Position.endOf]
  | blank _ _ ih => exact fun t hmem => Nat.le_of_succ_le (by simpa using ih t hmem)
  | token _ _ _ ih =>
    refine List.forall_mem_cons.mpr ⟨Nat.le_refl _, fun t hmem => ?_⟩
    have := ih t hmem
    rw [List.length_append] at this
    omega

theorem ordered (h : Lexes front cs ts) :
    ts.Pairwise fun t u => t.span.stop.offset ≤ u.span.start.offset := by
  induction h with
  | done => exact List.pairwise_singleton _ _
  | blank _ _ ih => exact ih
  | token _ _ hrest ih => exact .cons hrest.start_le ih

theorem spelled (h : Lexes front cs ts) :
    ∀ t ∈ ts, t.span.In (front ++ cs) ∧ t.span.slice (front ++ cs) = t.kind.spelling.toList ∧
      (t.kind ≠ .eof → t.kind.spelling.toList ≠ []) := by
  induction h with
  | @done front =>
    refine List.forall_mem_singleton.mpr ⟨?_, ?_, by simp⟩
    · simpa [Span.point] using Span.in_between front [] []
    · simpa [Span.point, Kind.spelling] using Span.slice_between front [] []
  | blank _ _ ih => simpa only [List.append_assoc, List.singleton_append] using ih
  | @token kind front cs ts hgoing hne _ ih =>
    rw [← List.append_assoc]
    exact List.forall_mem_cons.mpr
      ⟨⟨Span.in_between _ _ _, Span.slice_between _ _ _, fun _ => hne⟩, ih⟩

theorem blank_outside (h : Lexes front cs ts) {k : Nat} {c : Char} (hpassed : front.length ≤ k)
    (hk : (front ++ cs)[k]? = some c) (houtside : ∀ t ∈ ts, ¬t.span.Covers k) :
    Text.isBlank c = true := by
  induction h with
  | done =>
    rw [List.getElem?_append_right hpassed] at hk
    cases hk
  | @blank d front cs ts hblank _ ih =>
    rcases Nat.eq_or_lt_of_le hpassed with rfl | hless
    · rw [List.getElem?_append_right (Nat.le_refl _), Nat.sub_self] at hk
      cases hk
      exact hblank
    · exact ih (by simpa [Nat.succ_le_iff] using hless) (by simpa using hk) houtside
  | @token kind front cs ts _ _ _ ih =>
    rw [← List.append_assoc] at hk
    refine ih ?_ hk fun t hmem => houtside t (List.mem_cons_of_mem _ hmem)
    by_contra hless
    exact houtside _ List.mem_cons_self ⟨hpassed, Nat.lt_of_not_le hless⟩

theorem ended (h : Lexes front cs ts) :
    ∃ us, ts = us ++ [⟨.eof, .point (.endOf (front ++ cs))⟩] ∧ ∀ t ∈ us, t.kind ≠ .eof := by
  induction h with
  | done => exact ⟨[], by simp, by simp⟩
  | blank _ _ ih => simpa only [List.append_assoc, List.singleton_append] using ih
  | @token kind front cs ts hgoing _ _ ih =>
    obtain ⟨us, rfl, hbefore⟩ := ih
    rw [← List.append_assoc]
    exact ⟨_ :: us, rfl, List.forall_mem_cons.mpr ⟨hgoing, hbefore⟩⟩

end Lexes

structure Lossless (cs : List Char) (ts : List Token) : Prop where
  /-- The spans follow one another and share no character. -/
  ordered : ts.Pairwise fun t u => t.span.stop.offset ≤ u.span.start.offset
  outside : ∀ k c, cs[k]? = some c → (∀ t ∈ ts, ¬t.span.Covers k) → Text.isBlank c = true
  spelled : ∀ t ∈ ts, t.kind ≠ .eof →
    t.span.start.offset < t.span.stop.offset ∧ t.span.slice cs = t.kind.spelling.toList
  ended : ∃ us, ts = us ++ [⟨.eof, .point (.endOf cs)⟩] ∧ ∀ t ∈ us, t.kind ≠ .eof
  /-- These are the tokens that reading gives one after another, and the end once it is reached. -/
  calls : ∀ closing n, (Tokenizer.ofSource ⟨cs, closing⟩).nth n =
    ts.getD n ⟨.eof, .point (.endOf cs)⟩
  placed : ∀ t ∈ ts, t.span.In cs

theorem lossless_tokenize (cs : List Char) : Lossless cs (tokenize cs) where
  ordered := (lexes_tokenize cs).ordered
  outside _ _ hk := (lexes_tokenize cs).blank_outside (Nat.zero_le _) hk
  spelled t hmem hgoing := by
    obtain ⟨-, hspelling, hne⟩ := (lexes_tokenize cs).spelled t hmem
    refine ⟨?_, hspelling⟩
    by_contra hempty
    apply hne hgoing
    rw [← hspelling, Span.slice, Span.size, Nat.sub_eq_zero_of_le (Nat.le_of_not_lt hempty)]
    rfl
  ended := (lexes_tokenize cs).ended
  calls closing n := by rw [Tokenizer.nth_ofSource, Position.afterAll_first]
  placed t hmem := ((lexes_tokenize cs).spelled t hmem).1

end FormCompiler
