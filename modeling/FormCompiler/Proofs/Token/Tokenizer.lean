import Mathlib.Data.List.Basic
import FormCompiler.Token.Tokenizer

namespace FormCompiler

namespace Tokenizer

def standing (p : Position) (cs : List Char) : Tokenizer := ⟨cs.tail, cs.head?, true, p⟩

variable {p : Position} {c : Char} {cs : List Char}

@[simp] theorem nextChar_standing : (standing p (c :: cs)).nextChar = standing (p.after c) cs := rfl

theorem takeWhile_standing (q : Char → Bool) (p : Position) (cs : List Char) :
    (standing p cs).takeWhile q =
      (cs.takeWhile q, standing (p.afterAll (cs.takeWhile q)) (cs.dropWhile q)) := by
  induction cs generalizing p with
  | nil =>
    rw [takeWhile]
    rfl
  | cons c cs ih =>
    rw [takeWhile]
    split
    · case h_1 none => cases none
    · case h_2 d hne =>
      cases hne
      rw [nextChar_standing, ih]
      cases h : q c <;> simp [h]

theorem scanNumeral_dotted (p : Position) (cs : List Char) :
    (standing p cs).scanNumeral true =
      (cs.takeWhile Char.isDigit, true,
        standing (p.afterAll (cs.takeWhile Char.isDigit)) (cs.dropWhile Char.isDigit)) := by
  induction cs generalizing p with
  | nil =>
    rw [scanNumeral]
    rfl
  | cons c cs ih =>
    rw [scanNumeral]
    split
    · case h_1 none => cases none
    · case h_2 d hne =>
      cases hne
      rw [nextChar_standing, ih]
      by_cases hpoint : c = '.'
      · subst hpoint
        rfl
      · cases h : c.isDigit <;> simp [h, hpoint]

def scanned (dotted : Bool) (lexeme rest : List Char) : Scanned :=
  ⟨if dotted then .float (String.ofList lexeme) else .int (String.ofList lexeme), lexeme, rest⟩

theorem numeral_digit {dotted : Bool} {lexeme rest : List Char} (hdigit : c.isDigit = true)
    (h : Scanned.numeral cs = scanned dotted lexeme rest) :
    Scanned.numeral (c :: cs) = scanned dotted (c :: lexeme) rest := by
  unfold Scanned.numeral at h ⊢
  rw [List.dropWhile_cons_of_pos hdigit, List.takeWhile_cons_of_pos hdigit]
  generalize cs.dropWhile Char.isDigit = later at h ⊢
  split at h
  · obtain ⟨hkind, rfl, rfl⟩ := Scanned.mk.inj h
    cases dotted
    · cases hkind
    · rfl
  · obtain ⟨hkind, rfl, rfl⟩ := Scanned.mk.inj h
    cases dotted
    · rfl
    · cases hkind

theorem scanNumeral_standing (p : Position) (cs : List Char) :
    ∃ dotted lexeme rest, Scanned.numeral cs = scanned dotted lexeme rest ∧
      (standing p cs).scanNumeral false = (lexeme, dotted, standing (p.afterAll lexeme) rest) := by
  induction cs generalizing p with
  | nil =>
    rw [scanNumeral]
    exact ⟨false, [], [], rfl, rfl⟩
  | cons c cs ih =>
    rw [scanNumeral]
    split
    · case h_1 none => cases none
    · case h_2 d hne =>
      cases hne
      rw [nextChar_standing]
      by_cases hpoint : c = '.'
      · subst hpoint
        exact ⟨true, _, _, rfl, by rw [scanNumeral_dotted]; rfl⟩
      · obtain ⟨dotted, lexeme, rest, hnumeral, hscan⟩ := ih (p.after c)
        by_cases hdigit : c.isDigit
        · exact ⟨dotted, c :: lexeme, rest, numeral_digit hdigit hnumeral,
            by simp [hpoint, hdigit, hscan]⟩
        · refine ⟨false, [], c :: cs, ?_, by simp [hpoint, hdigit]⟩
          simp [Scanned.numeral, scanned, hdigit, hpoint]

theorem scan_standing (p : Position) (c : Char) (cs : List Char) :
    (standing p (c :: cs)).scan c =
      ((Scanned.token c cs).kind,
        standing (p.afterAll (Scanned.token c cs).lexeme) (Scanned.token c cs).rest) := by
  unfold scan Scanned.token
  cases Kind.ofPunctuation? c with
  | some kind => rfl
  | none =>
    dsimp only
    split
    · rw [takeWhile_standing]
      rfl
    · split
      · obtain ⟨dotted, lexeme, rest, hnumeral, hscan⟩ := scanNumeral_standing p (c :: cs)
        rw [hscan, hnumeral]
        rfl
      · rfl

theorem nextToken_blank (hblank : Text.isBlank c = true) :
    (standing p (c :: cs)).nextToken = (standing (p.after c) cs).nextToken := by
  have hsame : ((standing p (c :: cs)).takeWhile Text.isBlank).2 =
      ((standing (p.after c) cs).takeWhile Text.isBlank).2 := by
    simp [takeWhile_standing, hblank]
  rw [nextToken, nextToken, hsame]

theorem nextToken_of_current {t u : Tokenizer} (hpassed : (t.takeWhile Text.isBlank).2 = u)
    (h : u.current = some c) :
    t.nextToken = (⟨(u.scan c).1, ⟨u.place, (u.scan c).2.place⟩⟩, (u.scan c).2) := by
  rw [nextToken, hpassed]
  simp only [h]

theorem nextToken_visible (hvisible : ¬Text.isBlank c) :
    (standing p (c :: cs)).nextToken =
      (⟨(Scanned.token c cs).kind, ⟨p, p.afterAll (Scanned.token c cs).lexeme⟩⟩,
        standing (p.afterAll (Scanned.token c cs).lexeme) (Scanned.token c cs).rest) := by
  have hsame : ((standing p (c :: cs)).takeWhile Text.isBlank).2 = standing p (c :: cs) := by
    simp [takeWhile_standing, hvisible]
  rw [nextToken_of_current hsame rfl, scan_standing]
  rfl

theorem nextToken_end (p : Position) :
    (standing p []).nextToken = (⟨.eof, .point p⟩, standing p []) := by
  rw [nextToken, takeWhile_standing]
  rfl

theorem nth_end (p : Position) (n : Nat) : (standing p []).nth n = ⟨.eof, .point p⟩ := by
  induction n with
  | zero => rw [nth, nextToken_end]
  | succ n ih => rw [nth, nextToken_end, ih]

theorem nth_standing (p : Position) (cs : List Char) (n : Nat) :
    (standing p cs).nth n = (Token.read p cs).getD n ⟨.eof, .point (p.afterAll cs)⟩ := by
  fun_induction Token.read p cs generalizing n with
  | case1 p => cases n <;> simp [nth_end]
  | case2 p c cs hblank ih =>
    rw [Position.afterAll_cons, ← ih]
    cases n <;> rw [nth, nth, nextToken_blank hblank]
  | case3 p c cs hvisible s stop ih =>
    cases n with
    | zero => rw [nth, nextToken_visible hvisible, List.getD_cons_zero]
    | succ n =>
      rw [nth, nextToken_visible hvisible, List.getD_cons_succ]
      refine (ih n).trans ?_
      rw [← Position.afterAll_append, Scanned.lexeme_append_rest]

theorem nextToken_ofSource (source : Source) :
    (ofSource source).nextToken = (standing .first source.chars).nextToken := by
  have hsame : ((ofSource source).takeWhile Text.isBlank).2 =
      ((standing .first source.chars).takeWhile Text.isBlank).2 := by
    rw [takeWhile]
    rfl
  rw [nextToken, nextToken, hsame]

theorem nth_ofSource (source : Source) (n : Nat) :
    (ofSource source).nth n =
      (tokenize source.chars).getD n ⟨.eof, .point (Position.first.afterAll source.chars)⟩ := by
  rw [tokenize, ← nth_standing]
  cases n <;> rw [nth, nth, nextToken_ofSource]

end Tokenizer

end FormCompiler
