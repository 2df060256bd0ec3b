import FormCompiler.Proofs.Session.Ending
import FormCompiler.Proofs.Token.Prefix

namespace FormCompiler

instance : DecidablePred Kind.Closes := fun kind =>
  inferInstanceAs (Decidable (kind = .semicolon ∨ kind = .closeBrace))

namespace Cursor

theorem Walks.taken {c d : Cursor} (h : c.advance.Walks d) (hd : d.kind ≠ .eof) :
    ∃ us, c.stream.pending = us ++ d.current :: d.stream.pending := by
  induction h with
  | refl => exact ⟨[], pending_of_advance hd⟩
  | @advance d _ hmore ih =>
    obtain ⟨us, hus⟩ := ih hmore
    exact ⟨us ++ [d.current], by rw [hus, pending_of_advance hd, List.append_assoc]; rfl⟩

end Cursor

namespace Parser

variable {p q : Parser} {k n : Nat}

/-- The next `k` forms end on closing tokens that lie within the first `n` characters. -/
def ClosesWithin (p : Parser) (k n : Nat) : Prop :=
  ∀ i < k, (p.after (i + 1)).cursor.kind.Closes ∧ (p.after (i + 1)).cursor.span.stop.offset ≤ n

structure SoFar (p q : Parser) : Prop where
  current : p.cursor.current = q.cursor.current
  symbols : p.symbols = q.symbols
  counter : p.counter = q.counter
  errors : p.errors = q.errors

theorem after_succ (p : Parser) (n : Nat) : p.after (n + 1) = (p.after n).next.parser := by
  induction n generalizing p with
  | zero => rfl
  | succ n ih => exact ih p.next.parser

theorem after_add (p : Parser) (n k : Nat) : p.after (n + k) = (p.after n).after k := by
  induction k with
  | zero => rfl
  | succ k ih => rw [← Nat.add_assoc, after_succ, ih, ← after_succ]

theorem suffix_after (p : Parser) (n : Nat) :
    (p.after n).cursor.stream.pending <:+ p.cursor.stream.pending := by
  induction n with
  | zero => exact List.suffix_refl _
  | succ n ih =>
    rw [after_succ]
    exact (p.after n).walks_next.leads.after.suffix.trans ih

theorem ClosesWithin.walks (h : p.ClosesWithin k n) {i : Nat} (hi : i < k) :
    p.cursor.advance.Walks (p.after (i + 1)).cursor := by
  induction i with
  | zero => exact p.walks_next
  | succ i ih =>
    have hlast := (h i (Nat.lt_of_succ_lt hi)).1.ne_eof
    rw [after_succ p (i + 1)]
    exact (ih (Nat.lt_of_succ_lt hi)).trans (.after hlast (p.after (i + 1)).walks_next)

theorem left_next {more : List Token} (hleft : more <:+ (p.after k).cursor.stream.pending) {i : Nat}
    (hi : i < k) : more <:+ (p.after i).next.parser.cursor.stream.pending := by
  obtain ⟨j, rfl⟩ := Nat.exists_eq_add_of_le hi
  rw [after_add] at hleft
  rw [← after_succ]
  exact hleft.trans (suffix_after _ j)

section Extend

variable {more : List Token} (hmore : more ≠ [])
  (hleft : more <:+ ((p.extend more).after k).cursor.stream.pending) {i : Nat}
include hmore hleft

theorem after_extend (hi : i ≤ k) :
    ∃ q : Parser, ∀ more, (p.extend more).after i = q.extend more := by
  induction i with
  | zero => exact ⟨p, fun _ => rfl⟩
  | succ i ih =>
    obtain ⟨q, hq⟩ := ih (Nat.le_of_succ_le hi)
    have hnext := left_next hleft hi
    rw [hq] at hnext
    obtain ⟨_, q', hq'⟩ := next_extend hmore hnext
    exact ⟨q', fun more => by rw [after_succ, hq more, (hq' more).2]⟩

theorem result_extend (hi : i < k) (more' : List Token) :
    ((p.extend more).after i).next.result = ((p.extend more').after i).next.result := by
  obtain ⟨q, hq⟩ := after_extend hmore hleft (Nat.le_of_lt hi)
  have hnext := left_next hleft hi
  rw [hq] at hnext
  obtain ⟨result, _, hresult⟩ := next_extend hmore hnext
  rw [hq, hq, (hresult more).1, (hresult more').1]

end Extend

theorem SoFar.trans {r : Parser} (h : p.SoFar q) (h' : q.SoFar r) : p.SoFar r :=
  ⟨h.current.trans h'.current, h.symbols.trans h'.symbols, h.counter.trans h'.counter,
    h.errors.trans h'.errors⟩

theorem SoFar.of_beside (h : p.Beside q) (hgoing : p.cursor.kind ≠ .eof) : p.SoFar q := by
  refine ⟨?_, h.symbols, h.counter, h.errors⟩
  cases h.cursor with
  | meets hmet => exact hmet.current
  | spent hdone => exact absurd hdone hgoing

theorem soFar_extend (p : Parser) (more more' : List Token) :
    (p.extend more).SoFar (p.extend more') := ⟨rfl, rfl, rfl, rfl⟩

section Texts

variable {s s' : Source} {v : List Char}

theorem ClosesWithin.tokenize (h : (ofStream (.ofSource s)).ClosesWithin k n) {i : Nat}
    (hi : i < k) : ∃ us, tokenize s.chars =
      us ++ ((ofStream (.ofSource s)).after (i + 1)).cursor.current ::
        ((ofStream (.ofSource s)).after (i + 1)).cursor.stream.pending :=
  (h.walks hi).taken (h i hi).1.ne_eof

theorem ClosesWithin.exists_shared (hs : s.chars = s'.chars ++ v)
    (h : (ofStream (.ofSource s)).ClosesWithin k s'.chars.length) :
    ∃ shared rest rest', rest ≠ [] ∧ FormCompiler.tokenize s.chars = shared ++ rest ∧
      FormCompiler.tokenize s'.chars = shared ++ rest' ∧
      rest <:+ ((ofStream (.ofSource s)).after k).cursor.stream.pending := by
  cases k with
  | zero => exact ⟨[], _, _, Token.read_ne_nil _ _, rfl, rfl, List.suffix_refl _⟩
  | succ k =>
    obtain ⟨us, hus⟩ := h.tokenize (Nat.lt_succ_self k)
    obtain ⟨hcloses, hinside⟩ := h k (Nat.lt_succ_self k)
    have hread := hus
    rw [hs] at hread
    obtain ⟨rest', hrest', _⟩ :=
      Token.read_prefix hread hcloses (hinside.trans_eq (Nat.zero_add _).symm)
    refine ⟨us ++ [_], _, rest', ?_, by rw [hus, List.append_assoc]; rfl,
      hrest'.trans (by rw [List.append_assoc]; rfl), List.suffix_refl _⟩
    intro hnil
    rw [hnil] at hus
    obtain ⟨ws, hws, _⟩ := (lexes_tokenize s.chars).ended
    obtain ⟨_, hlast⟩ := List.append_inj' (hus.symm.trans hws) rfl
    exact hcloses.ne_eof (congrArg Token.kind (List.cons.inj hlast).1)

/-- What comes after the first forms of a text has no part in them: they are read in the same way,
with the same errors and names, from a beginning of the text in which they are closed. -/
theorem after_prefix (hs : s.chars = s'.chars ++ v)
    (h : (ofStream (.ofSource s)).ClosesWithin k s'.chars.length) :
    (∀ i < k, ((ofStream (.ofSource s)).after i).next.result =
      ((ofStream (.ofSource s')).after i).next.result) ∧
    (∀ i ≤ k, ((ofStream (.ofSource s)).after i).SoFar ((ofStream (.ofSource s')).after i)) ∧
    ∀ i < k, ∃ us, let d := ((ofStream (.ofSource s)).after (i + 1)).cursor
      FormCompiler.tokenize s.chars = us ++ d.current :: d.stream.pending ∧
        ((Tokenizer.ofSource s).past (us.length + 1)).rest =
          s.chars.drop (d.current.span.stop.offset + 1) := by
  have hgoing : ∀ i ≤ k, ((ofStream (.ofSource s)).after i).cursor.kind ≠ .eof := by
    intro i hi
    cases i with
    | zero => simp [after, ofStream, Cursor.kind]
    | succ i => exact (h i hi).1.ne_eof
  obtain ⟨shared, rest, rest', hne, hrest, hrest', hleft⟩ := h.exists_shared hs
  obtain ⟨base, hshared⟩ :
      ∃ base, base = ofStream { TokenStream.ofSource s with pending := shared } :=
    ⟨_, rfl⟩
  have hbase : ofStream (.ofSource s) = base.extend rest := by
    rw [hshared, TokenStream.ofSource, hrest]
    rfl
  have hbeside : (base.extend rest').Beside (ofStream (.ofSource s')) := by
    obtain ⟨us, hus, hbefore⟩ := (lexes_tokenize s'.chars).ended
    rw [hshared]
    refine .ofStream (TokenStream.agree_of_pending (t := ⟨.eof, _⟩) ?_ hus hbefore rfl)
    exact hrest'.symm.trans hus
  rw [hbase] at hleft
  have halike : ∀ i ≤ k,
      ((ofStream (.ofSource s)).after i).SoFar ((base.extend rest').after i) := by
    intro i hi
    obtain ⟨q, hq⟩ := after_extend hne hleft hi
    rw [hbase, hq, hq]
    exact soFar_extend q rest rest'
  refine ⟨?_, ?_, ?_⟩
  · intro i hi
    rw [hbase, result_extend hne hleft hi rest']
    exact (hbeside.after i).next.1
  · intro i hi
    refine (halike i hi).trans (.of_beside (hbeside.after i) ?_)
    have hkind := hgoing i hi
    rwa [Cursor.kind, (halike i hi).current] at hkind
  · intro i hi
    obtain ⟨us, hus⟩ := h.tokenize hi
    exact ⟨us, hus, Tokenizer.rest_past hus (h i hi).1.ne_eof⟩

theorem after_prefix_twoForms :
    ((ofStream (.ofSource (.ofText "x; 1; 2"))).after 1).next.result =
      ((ofStream (.ofSource (.ofText "x; 1;"))).after 1).next.result ∧
    ((ofStream (.ofSource (.ofText "x; 1; 2"))).after 2).SoFar
      ((ofStream (.ofSource (.ofText "x; 1;"))).after 2) := by
  have hcloses : (ofStream (.ofSource (.ofText "x; 1; 2"))).ClosesWithin 2 5 := by
    unfold ClosesWithin
    decide +kernel
  have hbeginning : (Source.ofText "x; 1; 2").chars =
      (Source.ofText "x; 1;").chars ++ " 2".toList := by decide +kernel
  obtain ⟨hresult, hsoFar, _⟩ := after_prefix hbeginning hcloses
  exact ⟨hresult 1 (by decide), hsoFar 2 (by decide)⟩

end Texts

end Parser

end FormCompiler
