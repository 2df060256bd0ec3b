import FormCompiler.Proofs.Token.Lexer

namespace FormCompiler

def Kind.Closes (kind : Kind) : Prop := kind = .semicolon ∨ kind = .closeBrace

theorem Kind.Closes.ne_eof {kind : Kind} (h : kind.Closes) : kind ≠ .eof := by
  rcases h with rfl | rfl <;> simp

theorem Kind.not_closes_ofWord (word : String) : ¬ (Kind.ofWord word).Closes := by
  unfold Kind.ofWord Closes
  split <;> simp

theorem takeWhile_append_cases (p : Char → Bool) (xs v : List Char) :
    (xs.dropWhile p = [] ∧ xs.takeWhile p = xs ∧ (xs ++ v).takeWhile p = xs ++ v.takeWhile p) ∨
      (xs.dropWhile p ≠ [] ∧ (xs ++ v).takeWhile p = xs.takeWhile p ∧
        (xs ++ v).dropWhile p = xs.dropWhile p ++ v) := by
  induction xs with
  | nil => exact .inl ⟨rfl, rfl, rfl⟩
  | cons x xs ih =>
    cases hx : p x with
    | false =>
      refine .inr ⟨?_, ?_, ?_⟩ <;> simp [hx]
    | true =>
      refine ih.imp ?_ ?_
      · rintro ⟨hdrop, htake, happend⟩
        simp [hx, hdrop, htake, happend]
      · rintro ⟨hdrop, htake, happend⟩
        simp [hx, hdrop, htake, happend]

namespace Scanned

inductive Continues (s s' : Scanned) (v : List Char) : Prop
  | same : s' = ⟨s.kind, s.lexeme, s.rest ++ v⟩ → Continues s s' v
  | grown : s.rest = [] → s.lexeme.length ≤ s'.lexeme.length → ¬ s'.kind.Closes → Continues s s' v

theorem continues_word (xs v : List Char) : Continues (word xs) (word (xs ++ v)) v := by
  rcases takeWhile_append_cases isWordChar xs v with ⟨hdrop, htake, happend⟩ | ⟨_, htake, hdrop⟩
  · refine .grown hdrop ?_ (Kind.not_closes_ofWord _)
    change (xs.takeWhile _).length ≤ ((xs ++ v).takeWhile _).length
    rw [htake, happend, List.length_append]
    omega
  · refine .same ?_
    rw [word, word, htake, hdrop]

theorem numeral_of_point {cs rest : List Char} (h : cs.dropWhile Char.isDigit = '.' :: rest) :
    numeral cs =
      ⟨.float (String.ofList (cs.takeWhile Char.isDigit ++ '.' :: rest.takeWhile Char.isDigit)),
        cs.takeWhile Char.isDigit ++ '.' :: rest.takeWhile Char.isDigit,
        rest.dropWhile Char.isDigit⟩ := by
  simp only [numeral, h]

theorem numeral_of_not_point {cs rest : List Char} (h : cs.dropWhile Char.isDigit = rest)
    (hpoint : rest.head? ≠ some '.') :
    numeral cs =
      ⟨.int (String.ofList (cs.takeWhile Char.isDigit)), cs.takeWhile Char.isDigit, rest⟩ := by
  unfold numeral
  split
  next he =>
    rw [he] at h
    subst h
    exact absurd rfl hpoint
  next => rw [h]

theorem length_takeWhile_le_numeral (cs : List Char) :
    (cs.takeWhile Char.isDigit).length ≤ (numeral cs).lexeme.length := by
  unfold numeral
  split
  · rw [List.length_append]
    exact Nat.le_add_right _ _
  · exact Nat.le_refl _

theorem continues_numeral (xs v : List Char) : Continues (numeral xs) (numeral (xs ++ v)) v := by
  have hkind : ¬ (numeral (xs ++ v)).kind.Closes := by
    unfold numeral Kind.Closes
    split <;> simp
  rcases takeWhile_append_cases Char.isDigit xs v with ⟨hnil, htake, happend⟩ | ⟨hne, htake, hdrop⟩
  · have hs := numeral_of_not_point hnil (by simp)
    have hlexeme := length_takeWhile_le_numeral (xs ++ v)
    rw [happend, List.length_append] at hlexeme
    refine .grown (by rw [hs]) ?_ hkind
    rw [hs, htake]
    exact Nat.le_trans (Nat.le_add_right _ _) hlexeme
  · obtain ⟨d, rest, hrest⟩ := List.exists_cons_of_ne_nil hne
    rw [hrest, List.cons_append] at hdrop
    by_cases hpoint : d = '.'
    · subst hpoint
      rw [numeral_of_point hrest]
      rw [numeral_of_point hdrop, htake] at hkind ⊢
      rcases takeWhile_append_cases Char.isDigit rest v with
        ⟨hnil, hfraction, happend⟩ | ⟨_, hfraction, hlater⟩
      · refine .grown hnil ?_ hkind
        simp only [hfraction, happend, List.length_append, List.length_cons]
        omega
      · refine .same ?_
        rw [hfraction, hlater]
    · have hhead : ∀ later : List Char, (d :: later).head? ≠ some '.' := fun _ he =>
        hpoint (Option.some.inj he)
      refine .same ?_
      rw [numeral_of_not_point hrest (hhead _), numeral_of_not_point hdrop (hhead _), htake]
      rfl

theorem continues_token (c : Char) (cs v : List Char) :
    Continues (token c cs) (token c (cs ++ v)) v := by
  unfold token
  cases Kind.ofPunctuation? c with
  | some kind => exact .same rfl
  | none =>
    simp only
    split
    · exact continues_word (c :: cs) v
    · split
      · exact continues_numeral (c :: cs) v
      · exact .same rfl

end Scanned

namespace Token

theorem read_ne_nil (p : Position) (cs : List Char) : read p cs ≠ [] := by
  fun_induction read p cs with
  | case1 p => exact List.cons_ne_nil _ _
  | case2 p c cs hblank ih => exact ih
  | case3 p c cs hvisible s stop ih => exact List.cons_ne_nil _ _

theorem offset_lt_of_mem_read {p : Position} {cs : List Char} {t : Token} (h : t ∈ read p cs)
    (hgoing : t.kind ≠ .eof) : p.offset < t.span.stop.offset := by
  fun_induction read p cs with
  | case1 p =>
    cases List.mem_singleton.mp h
    exact absurd rfl hgoing
  | case2 p c cs hblank ih =>
    have hlater := ih h
    rw [Position.offset_after] at hlater
    exact Nat.lt_of_succ_lt hlater
  | case3 p c cs hvisible s stop ih =>
    have hplace : p.offset < stop.offset := by
      refine Nat.lt_of_lt_of_eq ?_ (Position.offset_afterAll p s.lexeme).symm
      exact Nat.lt_add_of_pos_right (List.length_pos_iff.mpr (Scanned.lexeme_ne_nil c cs))
    rcases List.mem_cons.mp h with rfl | h
    · exact hplace
    · exact Nat.lt_trans hplace (ih h)

/-- Up to a closing token that lies in a beginning of the text, the tokens of the text are those of
its beginning. -/
theorem read_prefix {p : Position} {u v : List Char} {us rest : List Token} {t : Token}
    (h : read p (u ++ v) = us ++ t :: rest) (hcloses : t.kind.Closes)
    (hinside : t.span.stop.offset ≤ p.offset + u.length) :
    ∃ rest', read p u = us ++ t :: rest' ∧ rest' ≠ [] := by
  induction hn : u.length using Nat.strongRecOn generalizing p u us with
  | ind n ih =>
    subst hn
    cases u with
    | nil =>
      have hmem : t ∈ read p v := by
        rw [List.nil_append] at h
        rw [h]
        exact List.mem_append_right _ List.mem_cons_self
      exact absurd hinside (Nat.not_le_of_lt (offset_lt_of_mem_read hmem hcloses.ne_eof))
    | cons c cs =>
      rw [List.cons_append, read] at h
      rw [read]
      by_cases hblank : Text.isBlank c = true
      · rw [if_pos hblank] at h ⊢
        refine ih cs.length (Nat.lt_succ_self _) h ?_ rfl
        rw [List.length_cons] at hinside
        simp only [Position.offset_after]
        omega
      · rw [if_neg hblank] at h ⊢
        simp only at h ⊢
        have hwhole := congrArg List.length (Scanned.lexeme_append_rest c cs)
        rw [List.length_append] at hwhole
        cases Scanned.continues_token c cs v with
        | same hsame =>
          rw [hsame] at h
          simp only at h
          cases us with
          | nil =>
            obtain ⟨rfl, _⟩ := List.cons.inj h
            exact ⟨_, rfl, read_ne_nil _ _⟩
          | cons x us =>
            obtain ⟨rfl, hlater⟩ := List.cons.inj h
            have hinside' : t.span.stop.offset ≤ (p.afterAll (Scanned.token c cs).lexeme).offset +
                (Scanned.token c cs).rest.length := by
              rw [Position.offset_afterAll]
              omega
            obtain ⟨rest', hread, hne⟩ := ih _ (Scanned.length_rest_lt c cs) hlater hinside' rfl
            exact ⟨rest', congrArg (_ :: ·) hread, hne⟩
        | grown hempty hlonger hother =>
          cases us with
          | nil =>
            obtain ⟨rfl, _⟩ := List.cons.inj h
            exact absurd hcloses hother
          | cons x us =>
            obtain ⟨rfl, hlater⟩ := List.cons.inj h
            have hmem : t ∈ read (p.afterAll (Scanned.token c (cs ++ v)).lexeme)
                (Scanned.token c (cs ++ v)).rest := by
              rw [hlater]
              exact List.mem_append_right _ List.mem_cons_self
            have hpast := offset_lt_of_mem_read hmem hcloses.ne_eof
            rw [hempty, List.length_nil] at hwhole
            simp only [Position.offset_afterAll] at hpast
            omega

end Token

namespace Tokenizer

def past (t : Tokenizer) : Nat → Tokenizer
  | 0 => t
  | n + 1 => t.nextToken.2.past n

theorem past_standing {p : Position} {cs : List Char} {us later : List Token} {t : Token}
    (h : Token.read p cs = us ++ t :: later) (hgoing : t.kind ≠ .eof) :
    (standing p cs).past (us.length + 1) =
      standing t.span.stop (cs.drop (t.span.stop.offset - p.offset)) := by
  fun_induction Token.read p cs generalizing us with
  | case1 p =>
    cases us with
    | nil =>
      cases h
      exact absurd rfl hgoing
    | cons x us => cases us <;> cases h
  | case2 p c cs hblank ih =>
    have hmem : t ∈ Token.read (p.after c) cs := by
      rw [h]
      exact List.mem_append_right us List.mem_cons_self
    have hpast := Token.offset_lt_of_mem_read hmem hgoing
    rw [Position.offset_after] at hpast
    have here : t.span.stop.offset - p.offset = t.span.stop.offset - (p.after c).offset + 1 := by
      rw [Position.offset_after]
      omega
    rw [here, List.drop_succ_cons, ← ih h, Tokenizer.past, nextToken_blank hblank]
    rfl
  | case3 p c cs hvisible s stop =>
    rename_i ih
    have hsplit : (c :: cs).drop s.lexeme.length = s.rest := by
      rw [← Scanned.lexeme_append_rest c cs]
      exact List.drop_left
    have hplace : stop.offset = p.offset + s.lexeme.length := Position.offset_afterAll _ _
    rw [Tokenizer.past, nextToken_visible hvisible]
    cases us with
    | nil =>
      obtain ⟨rfl, _⟩ := List.cons.inj h
      change standing stop s.rest = standing stop ((c :: cs).drop (stop.offset - p.offset))
      rw [hplace, Nat.add_sub_cancel_left, hsplit]
    | cons x us =>
      obtain ⟨rfl, hafter⟩ := List.cons.inj h
      have hmem : t ∈ Token.read stop s.rest := by
        rw [hafter]
        exact List.mem_append_right us List.mem_cons_self
      have hpast := Token.offset_lt_of_mem_read hmem hgoing
      refine (ih hafter).trans ?_
      rw [← hsplit, List.drop_drop]
      congr 2
      omega

theorem rest_past {source : Source} {us later : List Token} {t : Token}
    (h : tokenize source.chars = us ++ t :: later) (hgoing : t.kind ≠ .eof) :
    ((ofSource source).past (us.length + 1)).rest = source.chars.drop (t.span.stop.offset + 1) := by
  have hthere : (ofSource source).past (us.length + 1) =
      (standing .first source.chars).past (us.length + 1) := by
    rw [past, past, nextToken_ofSource]
  rw [hthere, past_standing h hgoing]
  change (source.chars.drop (t.span.stop.offset - 0)).tail = _
  rw [Nat.sub_zero, List.tail_drop]

end Tokenizer

end FormCompiler
