import FormCompiler.Proofs.Parser.Next

namespace FormCompiler

def IsWord (name : String) : Prop := ∀ c ∈ name.toList, isWordChar c = true

namespace Anonymous

theorem nameOf_inj {m n : Nat} (h : nameOf m = nameOf n) : m = n := by
  have hlist := congrArg String.toList h
  simp only [nameOf, String.toList_append] at hlist
  have hdigits := List.append_cancel_left hlist
  have hnumbers := congrArg (fun digits => Nat.ofDigitChars 10 digits 0) hdigits
  simpa [Nat.toString_eq_ofList_toDigits] using hnumbers

theorem not_isWord_nameOf (counter : Nat) : ¬ IsWord (nameOf counter) := by
  intro h
  have hmem : '_' ∈ (nameOf counter).toList := by
    simp only [nameOf, String.toList_append, List.mem_append]
    exact .inl (by decide)
  cases h '_' hmem

end Anonymous

def Unreserved (name : String) : Prop := ∀ counter, name ≠ Anonymous.nameOf counter

theorem not_unreserved_nameOf (counter : Nat) : ¬ Unreserved (Anonymous.nameOf counter) :=
  fun h => h counter rfl

theorem IsWord.unreserved {name : String} (h : IsWord name) : Unreserved name := by
  rintro counter rfl
  exact Anonymous.not_isWord_nameOf counter h

theorem Kind.ofWord_eq_name {word name : String} (h : Kind.ofWord word = .name name) :
    word = name := by
  unfold Kind.ofWord at h
  split at h
  all_goals cases h
  rfl

theorem Scanned.name_eq {c : Char} {cs : List Char} {name : String}
    (h : (Scanned.token c cs).kind = .name name) :
    Scanned.token c cs = Scanned.word (c :: cs) ∧
      name = String.ofList (Scanned.token c cs).lexeme := by
  have hpunctuation : ∀ {k : Kind}, Kind.ofPunctuation? c = some k → k ≠ .name name := by
    intro k hk
    unfold Kind.ofPunctuation? at hk
    split at hk <;> cases hk <;> exact fun he => (by cases he)
  unfold Scanned.token at h ⊢
  split at h
  next hk => exact absurd h (hpunctuation hk)
  next =>
    split at h
    next hletter =>
      simp only [hletter, if_true, true_and]
      exact (Kind.ofWord_eq_name h).symm
    next =>
      split at h
      · unfold Scanned.numeral at h
        split at h <;> cases h
      · cases h

theorem Scanned.isWord_token {c : Char} {cs : List Char} {name : String}
    (h : (Scanned.token c cs).kind = .name name) : IsWord name := by
  obtain ⟨htoken, rfl⟩ := Scanned.name_eq h
  rw [htoken]
  intro d hd
  rw [String.toList_ofList] at hd
  exact List.all_eq_true.mp List.all_takeWhile d hd

structure IsName (name : String) : Prop where
  isWord : IsWord name
  ne_empty : name ≠ ""

theorem Scanned.isName_token {c : Char} {cs : List Char} {name : String}
    (h : (Scanned.token c cs).kind = .name name) : IsName name := by
  refine ⟨Scanned.isWord_token h, ?_⟩
  rw [(Scanned.name_eq h).2]
  intro hempty
  have hlist := congrArg String.toList hempty
  rw [String.toList_ofList] at hlist
  exact Scanned.lexeme_ne_nil c cs hlist

theorem Token.isName_read (p : Position) (cs : List Char) :
    ∀ t ∈ Token.read p cs, ∀ name, t.kind = .name name → IsName name := by
  fun_induction Token.read p cs with
  | case1 p =>
    intro t ht name hname
    rw [List.mem_singleton.mp ht] at hname
    cases hname
  | case2 p c cs _ ih => exact ih
  | case3 p c cs _ s stop ih =>
    refine List.forall_mem_cons.mpr ⟨fun name hname => ?_, ih⟩
    exact Scanned.isName_token hname

namespace TokenStream

def Spelled (W : String → Prop) (stream : TokenStream) : Prop :=
  ∀ t ∈ stream.pending, ∀ name, t.kind = .name name → W name

theorem named_ofSource (source : Source) : (TokenStream.ofSource source).Spelled IsName :=
  Token.isName_read _ _

theorem spelled_ofSource (source : Source) : (TokenStream.ofSource source).Spelled IsWord :=
  fun t ht name hname => (named_ofSource source t ht name hname).isWord

variable {W : String → Prop} {stream : TokenStream}

theorem Spelled.mono {W' : String → Prop} (h : stream.Spelled W) (hW : ∀ name, W name → W' name) :
    stream.Spelled W' :=
  fun t ht name hname => hW name (h t ht name hname)

theorem Spelled.cursor (h : stream.Spelled W) : (Parser.ofStream stream).cursor.Spelled W :=
  List.forall_mem_cons.mpr ⟨fun _ hname => (by cases hname), h⟩

end TokenStream

end FormCompiler
