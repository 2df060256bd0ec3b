import FormCompiler.Proofs.Token.Prefix

namespace FormCompiler

namespace Text

variable {c : Char}

theorem blank_bounds (h : isBlank c = true) : c.toNat < 0x21 ∨ 0x84 < c.toNat := by
  simp [isBlank, blankRanges] at h
  omega

theorem not_isDigit_of_blank (h : isBlank c = true) : c.isDigit = false := by
  have hblank := blank_bounds h
  by_contra hdigit
  have hbounds : 48 ≤ c.toNat ∧ c.toNat ≤ 57 :=
    Char.isDigit_iff_toNat.mp (eq_true_of_ne_false hdigit)
  omega

theorem not_blank_of_isDigit (h : c.isDigit = true) : isBlank c = false := by
  by_contra hblank
  simp [not_isDigit_of_blank (eq_true_of_ne_false hblank)] at h

theorem isLetter_bounds (h : isLetter c = true) :
    65 ≤ c.toNat ∧ c.toNat ≤ 90 ∨ 97 ≤ c.toNat ∧ c.toNat ≤ 122 := by
  have hbounds : (decide (65 ≤ c.val ∧ c.val ≤ 90) ||
      decide (97 ≤ c.val) && decide (c.val ≤ 122)) = true := h
  simpa [UInt32.le_iff_toNat_le] using hbounds

theorem not_isLetter_of_isDigit (h : c.isDigit = true) : isLetter c = false := by
  by_contra hletter
  have hbounds : 48 ≤ c.toNat ∧ c.toNat ≤ 57 := Char.isDigit_iff_toNat.mp h
  have := isLetter_bounds (eq_true_of_ne_false hletter)
  omega

theorem isWordChar_iff : isWordChar c = true ↔ isLetter c = true ∨ c.isDigit = true :=
  Bool.or_eq_true_iff

theorem not_blank_of_isWordChar (h : isWordChar c = true) : isBlank c = false := by
  rcases isWordChar_iff.mp h with hletter | hdigit
  · by_contra hblank
    have := blank_bounds (eq_true_of_ne_false hblank)
    have := isLetter_bounds hletter
    omega
  · exact not_blank_of_isDigit hdigit

end Text

namespace Kind

def keywords : List String :=
  ["int", "float", "double", "include", "return", "if", "else", "for"]

def punctuation : List Char := [';', '=', '(', ')', '{', '}', ',']

/-- The kinds that can be read. A name is a word that starts with a letter and is no keyword, a
numeral has digits and at most one point, and an operator is a character that begins nothing
else. -/
def Valid : Kind → Prop
  | .name text => (∃ c ∈ text.toList.head?, isLetter c = true) ∧
      (∀ c ∈ text.toList, isWordChar c = true) ∧ text ∉ keywords
  | .int text => text.toList ≠ [] ∧ ∀ c ∈ text.toList, c.isDigit = true
  | .float text => text.toList.count '.' = 1 ∧ ∀ c ∈ text.toList, c.isDigit = true ∨ c = '.'
  | .op c => Text.isBlank c = false ∧ isWordChar c = false ∧ c ≠ '.' ∧ c ∉ punctuation
  | .eof => False
  | _ => True

theorem ofPunctuation?_eq_none {c : Char} : ofPunctuation? c = none ↔ c ∉ punctuation := by
  unfold ofPunctuation? punctuation
  split <;> simp_all

theorem valid_ofPunctuation {c : Char} {kind : Kind} (h : ofPunctuation? c = some kind) :
    kind.Valid := by
  unfold ofPunctuation? at h
  split at h <;> cases h <;> trivial

theorem ofWord_of_notMem {word : String} (h : word ∉ keywords) : ofWord word = .name word := by
  unfold ofWord
  split <;> first | rfl | exact absurd (by decide) h

theorem valid_ofWord {word : String} (hfirst : ∃ c ∈ word.toList.head?, isLetter c = true)
    (hall : ∀ c ∈ word.toList, isWordChar c = true) : (ofWord word).Valid := by
  unfold ofWord
  split
  all_goals try trivial
  exact ⟨hfirst, hall, by simp_all [keywords]⟩

end Kind

def EndsNumeral (after : List Char) : Prop := ∀ c ∈ after.head?, c.isDigit = false ∧ c ≠ '.'

theorem endsNumeral_cons {c : Char} (hdigit : c.isDigit = false) (hpoint : c ≠ '.')
    (after : List Char) : EndsNumeral (c :: after) := by
  rintro d ⟨⟩
  exact ⟨hdigit, hpoint⟩

theorem Text.endsNumeral_blank {c : Char} (h : isBlank c = true) (after : List Char) :
    EndsNumeral (c :: after) := by
  refine endsNumeral_cons (not_isDigit_of_blank h) ?_ after
  rintro rfl
  cases h

theorem takeWhile_append_of_ends {p : Char → Bool} {cs after : List Char}
    (hall : ∀ c ∈ cs, p c = true) (hends : ∀ c ∈ after.head?, p c = false) :
    (cs ++ after).takeWhile p = cs ∧ (cs ++ after).dropWhile p = after := by
  rw [List.takeWhile_append_of_pos hall, List.dropWhile_append_of_pos hall]
  cases after with
  | nil => simp
  | cons c after => simp [hends c rfl]

namespace Scanned

variable {c d : Char} {cs ds after : List Char}

theorem token_letter (h : isLetter c = true) (cs : List Char) : token c cs = word (c :: cs) := by
  have halone : Kind.ofPunctuation? c = none := by
    unfold Kind.ofPunctuation?
    split <;> first | rfl | cases h
  simp [token, halone, h]

theorem token_numeral (h : c.isDigit = true ∨ c = '.') (cs : List Char) :
    token c cs = numeral (c :: cs) := by
  rcases h with hdigit | rfl
  · have halone : Kind.ofPunctuation? c = none := by
      unfold Kind.ofPunctuation?
      split <;> first | rfl | cases hdigit
    simp [token, halone, Text.not_isLetter_of_isDigit hdigit, hdigit]
  · rfl

theorem token_word (hfirst : isLetter d = true) (hall : ∀ c ∈ d :: ds, isWordChar c = true)
    (hends : ∀ c ∈ after.head?, isWordChar c = false) :
    token d (ds ++ after) = ⟨.ofWord (String.ofList (d :: ds)), d :: ds, after⟩ := by
  obtain ⟨htaken, hleft⟩ := takeWhile_append_of_ends hall hends
  rw [token_letter hfirst, ← List.cons_append, word, htaken, hleft]

theorem token_digits (hdigits : ∀ c ∈ d :: ds, c.isDigit = true) (hends : EndsNumeral after) :
    token d (ds ++ after) = ⟨.int (String.ofList (d :: ds)), d :: ds, after⟩ := by
  obtain ⟨htaken, hleft⟩ := takeWhile_append_of_ends hdigits fun c hmem => (hends c hmem).1
  rw [token_numeral (.inl (hdigits d List.mem_cons_self)), ← List.cons_append,
    numeral_of_not_point hleft fun hpoint => (hends '.' hpoint).2 rfl, htaken]

theorem token_point {whole fraction : List Char} (hsplit : d :: ds = whole ++ '.' :: fraction)
    (hbefore : ∀ c ∈ whole, c.isDigit = true) (hbehind : ∀ c ∈ fraction, c.isDigit = true)
    (hends : EndsNumeral after) :
    token d (ds ++ after) = ⟨.float (String.ofList (d :: ds)), d :: ds, after⟩ := by
  have hpoint : ∀ c ∈ ('.' :: (fraction ++ after)).head?, c.isDigit = false := by
    rintro c ⟨⟩
    rfl
  obtain ⟨htaken, hleft⟩ := takeWhile_append_of_ends hbefore hpoint
  obtain ⟨htaken', hleft'⟩ := takeWhile_append_of_ends hbehind fun c hmem => (hends c hmem).1
  have hfirst : d.isDigit = true ∨ d = '.' := by
    cases whole with
    | nil => exact .inr (List.cons.inj hsplit).1
    | cons c whole => exact .inl ((List.cons.inj hsplit).1 ▸ hbefore c List.mem_cons_self)
  rw [token_numeral hfirst, ← List.cons_append, hsplit, List.append_assoc, List.cons_append,
    numeral_of_point hleft, htaken, htaken', hleft']

theorem token_op {c : Char} (h : (Kind.op c).Valid) (cs : List Char) :
    token c cs = ⟨.op c, [c], cs⟩ := by
  obtain ⟨-, hnoWord, hnoPoint, halone⟩ := h
  have hneither : (isLetter c || c.isDigit) = false := hnoWord
  obtain ⟨hletter, hdigit⟩ := Bool.or_eq_false_iff.mp hneither
  simp [token, Kind.ofPunctuation?_eq_none.mpr halone, hletter, hdigit, hnoPoint]

def Takes (kind : Kind) (after : List Char) : Prop :=
  ∃ c cs, kind.spelling.toList = c :: cs ∧ Text.isBlank c = false ∧
    token c (cs ++ after) = ⟨kind, c :: cs, after⟩

theorem takes_word {kind : Kind} {text : String} (hknown : Kind.ofWord text = kind)
    (hfirst : ∃ c ∈ text.toList.head?, isLetter c = true)
    (hall : ∀ c ∈ text.toList, isWordChar c = true)
    (hends : ∀ c ∈ after.head?, isWordChar c = false) : Takes kind after := by
  subst hknown
  obtain ⟨c, hmem, hletter⟩ := hfirst
  obtain ⟨cs, hsplit⟩ := List.head?_eq_some_iff.mp hmem
  rw [hsplit] at hall
  have hvisible := Text.not_blank_of_isWordChar (hall c List.mem_cons_self)
  refine ⟨c, cs, by rw [Kind.spelling_ofWord, hsplit], hvisible, ?_⟩
  rw [token_word hletter hall hends, ← hsplit, String.ofList_toList]

theorem takes_int {text : String} (hvalid : (Kind.int text).Valid) (hends : EndsNumeral after) :
    Takes (.int text) after := by
  obtain ⟨hne, hdigits⟩ := hvalid
  obtain ⟨d, ds, hsplit⟩ := List.exists_cons_of_ne_nil hne
  rw [hsplit] at hdigits
  refine ⟨d, ds, hsplit, Text.not_blank_of_isDigit (hdigits d List.mem_cons_self), ?_⟩
  rw [token_digits hdigits hends, ← hsplit, String.ofList_toList]

theorem takes_float {text : String} (hvalid : (Kind.float text).Valid) (hends : EndsNumeral after) :
    Takes (.float text) after := by
  obtain ⟨honce, hall⟩ := hvalid
  have hmem : '.' ∈ text.toList := List.count_pos_iff.mp (honce ▸ Nat.one_pos)
  obtain ⟨whole, fraction, haround⟩ := List.append_of_mem hmem
  rw [haround, List.count_append, List.count_cons_self] at honce
  have hbefore : '.' ∉ whole := List.count_eq_zero.mp (by omega)
  have hbehind : '.' ∉ fraction := List.count_eq_zero.mp (by omega)
  -- Away from the point there are only digits.
  have hdigits : ∀ cs : List Char, cs ⊆ text.toList → '.' ∉ cs → ∀ c ∈ cs, c.isDigit = true :=
    fun cs hsub hwithout c hmem =>
      (hall c (hsub hmem)).resolve_right fun hpoint => hwithout (hpoint ▸ hmem)
  obtain ⟨d, ds, hsplit⟩ := List.exists_cons_of_ne_nil (show text.toList ≠ [] by simp [haround])
  have hvisible : Text.isBlank d = false := by
    rcases hall d (hsplit ▸ List.mem_cons_self) with hdigit | rfl
    · exact Text.not_blank_of_isDigit hdigit
    · rfl
  refine ⟨d, ds, hsplit, hvisible, ?_⟩
  rw [token_point (hsplit ▸ haround) (hdigits whole (by simp [haround]) hbefore)
    (hdigits fraction (by simp [haround]) hbehind) hends, ← hsplit, String.ofList_toList]

theorem takes_sign {kind : Kind} {c : Char} (hspelled : kind.spelling.toList = [c])
    (hvisible : Text.isBlank c = false) (htaken : token c after = ⟨kind, [c], after⟩) :
    Takes kind after := ⟨c, [], hspelled, hvisible, htaken⟩

/-- A kind that can be read is read from its spelling wherever a blank or the end follows. -/
theorem takes_of_valid {kind : Kind} (hvalid : kind.Valid)
    (hends : ∀ c ∈ after.head?, Text.isBlank c = true) : Takes kind after := by
  have hendsWord : ∀ c ∈ after.head?, isWordChar c = false := fun c hmem => by
    by_contra hmore
    have hvisible := Text.not_blank_of_isWordChar (eq_true_of_ne_false hmore)
    exact absurd (hends c hmem) (by simp [hvisible])
  have hendsNumeral : EndsNumeral after :=
    fun c hmem => Text.endsNumeral_blank (hends c hmem) [] c rfl
  have hkeyword (text : String) (hknown : Kind.ofWord text = kind)
      (hfirst : ∃ c ∈ text.toList.head?, isLetter c = true)
      (hall : text.toList.all isWordChar = true) : Takes kind after :=
    takes_word hknown hfirst (List.all_eq_true.mp hall) hendsWord
  cases kind with
  | typeWord word =>
    cases word
    · exact hkeyword "int" rfl ⟨'i', rfl, rfl⟩ rfl
    · exact hkeyword "float" rfl ⟨'f', rfl, rfl⟩ rfl
    · exact hkeyword "double" rfl ⟨'d', rfl, rfl⟩ rfl
  | includeWord => exact hkeyword "include" rfl ⟨'i', rfl, rfl⟩ rfl
  | returnWord => exact hkeyword "return" rfl ⟨'r', rfl, rfl⟩ rfl
  | ifWord => exact hkeyword "if" rfl ⟨'i', rfl, rfl⟩ rfl
  | elseWord => exact hkeyword "else" rfl ⟨'e', rfl, rfl⟩ rfl
  | forWord => exact hkeyword "for" rfl ⟨'f', rfl, rfl⟩ rfl
  | name text => exact takes_word (Kind.ofWord_of_notMem hvalid.2.2) hvalid.1 hvalid.2.1 hendsWord
  | int text => exact takes_int hvalid hendsNumeral
  | float text => exact takes_float hvalid hendsNumeral
  | op c => exact takes_sign (by simp [Kind.spelling]) hvalid.1 (token_op hvalid after)
  | eof => exact hvalid.elim
  | _ => exact takes_sign rfl rfl rfl

theorem valid_numeral (h : c.isDigit = true ∨ c = '.') (cs : List Char) :
    (numeral (c :: cs)).kind.Valid := by
  have hdigits (ds : List Char) : ∀ d ∈ ds.takeWhile Char.isDigit, d.isDigit = true :=
    List.all_eq_true.mp List.all_takeWhile
  have hnoPoint (ds : List Char) : (ds.takeWhile Char.isDigit).count '.' = 0 :=
    List.count_eq_zero.mpr fun hmem => by cases hdigits ds '.' hmem
  unfold numeral
  split
  · case h_1 rest _ =>
    refine ⟨by simp [hnoPoint], fun d hmem => ?_⟩
    rw [String.toList_ofList] at hmem
    rcases List.mem_append.mp hmem with hbefore | hbehind
    · exact .inl (hdigits _ d hbefore)
    · exact (List.mem_cons.mp hbehind).symm.imp_left (hdigits _ d)
  · case h_2 hother =>
    refine ⟨?_, by simpa using hdigits (c :: cs)⟩
    rcases h with hdigit | rfl
    · simp [hdigit]
    · exact absurd rfl (hother cs)

theorem valid_token (hvisible : Text.isBlank c = false) (cs : List Char) :
    (token c cs).kind.Valid := by
  unfold token
  cases hknown : Kind.ofPunctuation? c with
  | some kind => exact Kind.valid_ofPunctuation hknown
  | none =>
    dsimp only
    split
    · case isTrue letter =>
      have hmore : isWordChar c = true := Text.isWordChar_iff.mpr (.inl letter)
      refine Kind.valid_ofWord ⟨c, by simp [hmore], letter⟩ ?_
      rw [String.toList_ofList]
      exact List.all_eq_true.mp List.all_takeWhile
    · case isFalse letter =>
      split
      · case isTrue numeral => exact valid_numeral (by simpa using numeral) cs
      · case isFalse numeral =>
        obtain ⟨hdigit, hpoint⟩ := not_or.mp (mt (Bool.or_eq_true_iff).mpr numeral)
        refine ⟨hvisible, ?_, by simpa using hpoint, Kind.ofPunctuation?_eq_none.mp hknown⟩
        exact eq_false_of_ne_true fun hmore => (Text.isWordChar_iff.mp hmore).elim letter hdigit

end Scanned

namespace Token

def Reads (p : Position) (cs after : List Char) (w : List Token) : Prop :=
  read p (cs ++ after) = w ++ read (p.afterAll cs) after

namespace Reads

variable {p : Position} {c : Char} {cs ds after : List Char} {w w' : List Token}

theorem append (hfront : Reads p cs (ds ++ after) w) (hback : Reads (p.afterAll cs) ds after w') :
    Reads p (cs ++ ds) after (w ++ w') := by
  unfold Reads at *
  rw [List.append_assoc, hfront, hback, List.append_assoc, Position.afterAll_append]

theorem blank (h : Text.isBlank c = true) : Reads p [c] after [] := by
  change read p (c :: after) = read (p.after c) after
  rw [read, if_pos h]

theorem blanks (h : ∀ c ∈ cs, Text.isBlank c = true) : Reads p cs after [] := by
  induction cs generalizing p with
  | nil => rfl
  | cons c cs ih =>
    obtain ⟨hc, hcs⟩ := List.forall_mem_cons.mp h
    exact (blank hc).append (ih hcs)

theorem lexeme {kind : Kind} (h : Text.isBlank c = false)
    (hscanned : Scanned.token c (cs ++ after) = ⟨kind, c :: cs, after⟩) :
    Reads p (c :: cs) after [⟨kind, ⟨p, p.afterAll (c :: cs)⟩⟩] := by
  unfold Reads
  rw [List.cons_append, read, if_neg (by simp [h])]
  simp only [hscanned]
  rfl

end Reads

theorem valid_read (p : Position) (cs : List Char) :
    ∀ t ∈ read p cs, t.kind.Valid ∨ t.kind = .eof := by
  fun_induction read p cs with
  | case1 p => simp
  | case2 p c cs hblank ih => exact ih
  | case3 p c cs hvisible s stop ih =>
    exact List.forall_mem_cons.mpr
      ⟨.inl (Scanned.valid_token (eq_false_of_ne_true hvisible) cs), ih⟩

end Token

/-- The characters spell the kinds one after another, with any blanks around them and at least one
between two of them. -/
inductive Spells : List Kind → List Char → Prop
  | nil : Spells [] []
  | blank {c : Char} {ks : List Kind} {cs : List Char} : Text.isBlank c = true → Spells ks cs →
      Spells ks (c :: cs)
  | last {kind : Kind} : Spells [kind] kind.spelling.toList
  | more {kind : Kind} {c : Char} {ks : List Kind} {cs : List Char} : Text.isBlank c = true →
      Spells ks cs → Spells (kind :: ks) (kind.spelling.toList ++ c :: cs)

namespace Spells

variable {ks : List Kind} {cs : List Char}

theorem blanks {gap : List Char} (h : ∀ c ∈ gap, Text.isBlank c = true) (hspells : Spells ks cs) :
    Spells ks (gap ++ cs) := by
  induction gap with
  | nil => exact hspells
  | cons c gap ih =>
    obtain ⟨hc, hgap⟩ := List.forall_mem_cons.mp h
    exact .blank hc (ih hgap)

theorem intercalate {c : Char} {gap : List Char} (h : ∀ d ∈ c :: gap, Text.isBlank d = true)
    (ks : List Kind) :
    Spells ks (List.intercalate (c :: gap) (ks.map fun kind => kind.spelling.toList)) := by
  obtain ⟨hc, hgap⟩ := List.forall_mem_cons.mp h
  induction ks with
  | nil => exact .nil
  | cons kind ks ih =>
    cases ks with
    | nil => simpa [List.intercalate] using Spells.last
    | cons kind' ks => simpa [List.intercalate] using Spells.more hc (ih.blanks hgap)

theorem kinds_read (hspells : Spells ks cs) (hvalid : ∀ kind ∈ ks, kind.Valid) (p : Position) :
    (Token.read p cs).map Token.kind = ks ++ [.eof] := by
  have hsingle {kind : Kind} {after : List Char} (hvalid : kind.Valid)
      (hends : ∀ c ∈ after.head?, Text.isBlank c = true) (p : Position) :
      (Token.read p (kind.spelling.toList ++ after)).map Token.kind =
        kind :: (Token.read (p.afterAll kind.spelling.toList) after).map Token.kind := by
    obtain ⟨c, cs, hspelled, hvisible, htaken⟩ := Scanned.takes_of_valid hvalid hends
    rw [hspelled, Token.Reads.lexeme hvisible htaken]
    rfl
  induction hspells generalizing p with
  | nil => simp [Token.read]
  | blank hblank _ ih =>
    rw [← ih hvalid (p.after _)]
    exact congrArg _ (Token.Reads.blank hblank)
  | @last kind =>
    have hnone : ∀ c ∈ ([] : List Char).head?, Text.isBlank c = true := by simp
    simpa [Token.read] using hsingle (hvalid kind List.mem_cons_self) hnone p
  | @more kind c ks cs hblank _ ih =>
    obtain ⟨hkind, hks⟩ := List.forall_mem_cons.mp hvalid
    rw [hsingle hkind (by rintro d ⟨⟩; exact hblank), List.cons_append, ← ih hks _]
    exact congrArg _ (congrArg _ (Token.Reads.blank hblank))

end Spells

/-- Just the lists of kinds that can be read are read again however they are spelled, and no other
kind is ever read. -/
theorem tokenize_spelled :
    (∀ ks : List Kind, (∀ kind ∈ ks, kind.Valid) ↔
      ∀ cs, Spells ks cs → (tokenize cs).map Token.kind = ks ++ [.eof]) ∧
    ∀ cs, ∀ t ∈ tokenize cs, t.kind.Valid ∨ t.kind = .eof := by
  refine ⟨fun ks => ⟨fun hvalid cs hspells => hspells.kinds_read hvalid .first, fun hagain => ?_⟩,
    Token.valid_read .first⟩
  have hblank : ∀ c ∈ [' '], Text.isBlank c = true := List.forall_mem_singleton.mpr rfl
  have hspells := Spells.intercalate hblank ks
  obtain ⟨us, hsplit, hbefore⟩ := (lexes_tokenize _).ended
  have hkinds := hagain _ hspells
  rw [hsplit, List.map_append] at hkinds
  have hfound : us.map Token.kind = ks := List.append_inj_left' hkinds rfl
  intro kind hmem
  obtain ⟨t, ht, rfl⟩ := List.mem_map.mp (hfound ▸ hmem)
  have hread : t ∈ tokenize _ := hsplit ▸ List.mem_append_left _ ht
  exact (Token.valid_read .first _ t hread).resolve_right (hbefore t ht)

theorem tokenize_spelled_signs :
    (∀ kind ∈ [Kind.typeWord .double, .name "f1", .openParen, .float ".5", .op 'λ', .int "007"],
      kind.Valid) ∧
    (tokenize ("double".toList ++ '\u00a0' :: ("f1".toList ++ ' ' :: ' ' :: ("(".toList ++ '\n' ::
      (".5".toList ++ '\u3000' :: ("λ".toList ++ '\t' :: "007".toList)))))).map Token.kind =
      [.typeWord .double, .name "f1", .openParen, .float ".5", .op 'λ', .int "007", .eof] := by
  have hvalid : ∀ kind ∈ [Kind.typeWord .double, .name "f1", .openParen, .float ".5", .op 'λ',
      .int "007"], kind.Valid := by
    simp only [List.forall_mem_cons]
    refine ⟨trivial, ⟨⟨'f', rfl, rfl⟩, ?_, by decide⟩, trivial, ⟨rfl, ?_⟩, ?_, ⟨by decide, ?_⟩,
      by simp⟩
    · exact List.all_eq_true.mp (show "f1".toList.all isWordChar = true by decide)
    · exact List.forall_mem_cons.mpr ⟨.inr rfl, List.forall_mem_singleton.mpr (.inl rfl)⟩
    · exact ⟨rfl, rfl, by decide, by decide⟩
    · exact List.all_eq_true.mp (show "007".toList.all Char.isDigit = true by decide)
  refine ⟨hvalid, (tokenize_spelled.1 _).mp hvalid _ ?_⟩
  exact .more rfl (.more rfl (.blank rfl (.more rfl (.more rfl (.more rfl .last)))))

end FormCompiler
