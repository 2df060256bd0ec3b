import Mathlib.Data.List.Basic
import Mathlib.Logic.Function.Iterate
import FormCompiler.Session
import FormCompiler.Source.Reader
import FormCompiler.Token.Tokenizer

namespace FormCompiler

namespace Text

def utf8 (text : String) : List UInt8 := text.toUTF8.data.toList

theorem utf8_eq (text : String) : utf8 text = text.toList.flatMap String.utf8EncodeChar := by
  have hencoded : text.toUTF8 = (text.toList.flatMap String.utf8EncodeChar).toByteArray :=
    String.utf8Encode_toList.symm
  rw [utf8, hencoded, List.data_toByteArray]

theorem utf8_append (front later : String) : utf8 (front ++ later) = utf8 front ++ utf8 later := by
  simp only [utf8_eq, String.toList_append, List.flatMap_append]

theorem utf8_injective : Function.Injective utf8 := by
  intro text other hsame
  exact String.toByteArray_inj.mp (ByteArray.ext (Array.toList_inj.mp hsame))

theorem utf8_newline : utf8 "\n" = [0x0a] := utf8_eq "\n"

theorem newline_mem_utf8EncodeChar {c : Char} : 0x0a ∈ String.utf8EncodeChar c ↔ c = '\n' := by
  constructor
  · intro hmem
    have hbyte (n : ℕ) : (0x0a : UInt8) = .ofNat n ↔ n % 256 = 10 := by
      rw [← UInt8.toNat_inj, UInt8.toNat_ofNat', eq_comm]
      rfl
    have hcode : c.val.toNat = 10 := by
      simp only [String.utf8EncodeChar] at hmem
      generalize c.val.toNat = v at hmem ⊢
      -- A byte of a longer encoding is 128 or more.
      split_ifs at hmem <;> simp only [List.mem_cons, List.not_mem_nil, or_false, hbyte] at hmem <;>
        omega
    exact Char.ext (UInt32.toNat_inj.mp hcode)
  · rintro rfl
    exact List.mem_singleton_self _

theorem newline_mem_utf8 {text : String} : 0x0a ∈ utf8 text ↔ '\n' ∈ text.toList := by
  simp [utf8_eq, newline_mem_utf8EncodeChar]

end Text

namespace Source

theorem decode?_eq_some {bytes : List UInt8} {cs : List Char} :
    decode? bytes = some cs ↔ ∃ text, bytes = Text.utf8 text ∧ text.toList = cs := by
  unfold decode? String.fromUTF8?
  constructor
  · intro h
    obtain ⟨text, hdecoded, rfl⟩ := Option.map_eq_some_iff.mp h
    split at hdecoded
    · obtain rfl := Option.some.inj hdecoded
      exact ⟨_, rfl, rfl⟩
    · cases hdecoded
  · rintro ⟨text, rfl, rfl⟩
    have hencoded : text.toUTF8.IsValidUTF8 := text.isValidUTF8
    exact congrArg (Option.map String.toList) (dif_pos hencoded)

theorem decode?_utf8 (text : String) : decode? (Text.utf8 text) = some text.toList :=
  decode?_eq_some.mpr ⟨text, rfl, rfl⟩

end Source

/-- The bytes are these lines one after another. A newline ends its line; only the last line may be
without one. -/
inductive Lines : List UInt8 → List (List UInt8) → Prop
  | nil : Lines [] []
  | last {line : List UInt8} : line ≠ [] → 0x0a ∉ line → Lines line [line]
  | cons {line bytes : List UInt8} {lines : List (List UInt8)} : 0x0a ∉ line → Lines bytes lines →
      Lines (line ++ 0x0a :: bytes) ((line ++ [0x0a]) :: lines)

/-- The characters are those of the lines that are texts, up to the first line that is none. -/
def LeadingText (bytes : List UInt8) (cs : List Char) : Prop :=
  ∃ (texts : List String) (others : List (List UInt8)),
    Lines bytes (texts.map Text.utf8 ++ others) ∧
    (∀ line ∈ others.head?, ∀ text, line ≠ Text.utf8 text) ∧ cs = texts.flatMap String.toList

namespace Source

theorem takeLine_append_of_notMem {line : List UInt8} (h : 0x0a ∉ line) (bytes : List UInt8) :
    takeLine (line ++ bytes) = (line ++ (takeLine bytes).1, (takeLine bytes).2) := by
  induction line with
  | nil => rfl
  | cons b line ih =>
    rw [List.cons_append, takeLine, if_neg (Ne.symm (List.ne_of_not_mem_cons h)),
      ih (List.not_mem_of_not_mem_cons h)]
    rfl

end Source

namespace Lines

variable {bytes : List UInt8} {lines : List (List UInt8)}

theorem exists_lines (bytes : List UInt8) : ∃ lines, Lines bytes lines := by
  induction hn : bytes.length using Nat.strongRecOn generalizing bytes with
  | ind n ih =>
    subst hn
    by_cases hnewline : 0x0a ∈ bytes
    · obtain ⟨line, rest, rfl, hnone⟩ := List.eq_append_cons_of_mem hnewline
      obtain ⟨lines, h⟩ := ih rest.length (by simp; omega) rest rfl
      exact ⟨_, .cons hnone h⟩
    · rcases bytes.eq_nil_or_concat with rfl | ⟨_, _, rfl⟩
      · exact ⟨[], .nil⟩
      · exact ⟨_, .last (by simp) hnewline⟩

theorem eq_nil (h : Lines [] lines) : lines = [] := by
  generalize hnone : ([] : List UInt8) = bytes at h
  cases h with
  | nil => rfl
  | last hfilled _ => exact absurd hnone.symm hfilled
  | cons _ _ => simp at hnone

theorem takeLine {b : UInt8} (h : Lines (b :: bytes) lines) :
    ∃ later, lines = (Source.takeLine (b :: bytes)).1 :: later ∧
      Lines (Source.takeLine (b :: bytes)).2 later := by
  generalize hwhole : b :: bytes = all at h ⊢
  cases h with
  | nil => cases hwhole
  | last _ hnone =>
    have htaken := Source.takeLine_append_of_notMem hnone []
    rw [List.append_nil] at htaken
    rw [htaken]
    exact ⟨[], by simp [Source.takeLine], .nil⟩
  | cons hnone hrest =>
    rw [Source.takeLine_append_of_notMem hnone]
    exact ⟨_, rfl, hrest⟩

theorem exists_texts (text : String) :
    ∃ texts : List String, Lines (Text.utf8 text) (texts.map Text.utf8) ∧
      texts.flatMap String.toList = text.toList := by
  induction hn : text.toList.length using Nat.strongRecOn generalizing text with
  | ind n ih =>
    subst hn
    by_cases hnewline : '\n' ∈ text.toList
    · obtain ⟨front, later, hsplit, hnone⟩ := List.eq_append_cons_of_mem hnewline
      have hwhole : text = String.ofList front ++ "\n" ++ String.ofList later :=
        String.toList_injective (by simp [hsplit])
      obtain ⟨texts, hlines, hflat⟩ := ih later.length (by simp [hsplit]; omega)
        (String.ofList later) (by simp)
      refine ⟨(String.ofList front ++ "\n") :: texts, ?_, by simp [hflat, hsplit]⟩
      have hunended : 0x0a ∉ Text.utf8 (String.ofList front) := by
        rwa [Text.newline_mem_utf8, String.toList_ofList]
      rw [hwhole, List.map_cons]
      simpa only [Text.utf8_append, Text.utf8_newline, List.append_assoc, List.singleton_append]
        using Lines.cons hunended hlines
    · obtain rfl | hfilled := eq_or_ne text ""
      · exact ⟨[], .nil, rfl⟩
      · exact ⟨[text],
          .last (Text.utf8_injective.ne hfilled) (mt Text.newline_mem_utf8.mp hnewline),
          List.append_nil _⟩

theorem exists_leading (lines : List (List UInt8)) :
    ∃ (texts : List String) (others : List (List UInt8)), lines = texts.map Text.utf8 ++ others ∧
      ∀ line ∈ others.head?, ∀ text, line ≠ Text.utf8 text := by
  induction lines with
  | nil => exact ⟨[], [], rfl, by simp⟩
  | cons line lines ih =>
    obtain ⟨texts, others, rfl, hstop⟩ := ih
    by_cases htext : ∃ text, line = Text.utf8 text
    · obtain ⟨text, rfl⟩ := htext
      exact ⟨text :: texts, others, rfl, hstop⟩
    · exact ⟨[], _, rfl, by simpa using htext⟩

end Lines

namespace Source

theorem ofBytes_of_lines {bytes : List UInt8} {texts : List String} {others : List (List UInt8)}
    (h : Lines bytes (texts.map Text.utf8 ++ others))
    (hstop : ∀ line ∈ others.head?, ∀ text, line ≠ Text.utf8 text) :
    ofBytes bytes =
      ⟨texts.flatMap String.toList, if others = [] then [] else [unreadable]⟩ := by
  induction texts generalizing bytes with
  | nil =>
    cases bytes with
    | nil =>
      obtain rfl : others = [] := h.eq_nil
      rw [ofBytes]
      rfl
    | cons b bs =>
      obtain ⟨later, rfl, -⟩ := h.takeLine
      have hundecoded : decode? (takeLine (b :: bs)).1 = none := by
        by_contra hdecoded
        obtain ⟨cs, hdecoded⟩ := Option.ne_none_iff_exists'.mp hdecoded
        obtain ⟨text, hsame, -⟩ := decode?_eq_some.mp hdecoded
        exact hstop _ rfl text hsame
      rw [ofBytes, hundecoded]
      rfl
  | cons text texts ih =>
    cases bytes with
    | nil => cases h.eq_nil
    | cons b bs =>
      obtain ⟨later, hsplit, hrest⟩ := h.takeLine
      obtain ⟨hfirst, rfl⟩ := List.cons.inj hsplit
      rw [ofBytes, ← hfirst, decode?_utf8]
      simp only [ih hrest, List.flatMap_cons]

theorem ofBytes_utf8 (text : String) : ofBytes (Text.utf8 text) = ofText text := by
  obtain ⟨texts, hlines, hflat⟩ := Lines.exists_texts text
  rw [← List.append_nil (texts.map Text.utf8)] at hlines
  rw [ofBytes_of_lines hlines (by simp), hflat]
  rfl

theorem leadingText_iff {bytes : List UInt8} {cs : List Char} :
    LeadingText bytes cs ↔ (ofBytes bytes).chars = cs := by
  constructor
  · rintro ⟨texts, others, hlines, hstop, rfl⟩
    rw [ofBytes_of_lines hlines hstop]
  · rintro rfl
    obtain ⟨hlines, hwhole⟩ := Lines.exists_lines bytes
    obtain ⟨texts, others, rfl, hstop⟩ := Lines.exists_leading hlines
    exact ⟨texts, others, hwhole, hstop, by rw [ofBytes_of_lines hwhole hstop]⟩

def next (s : Source) : Given × Source :=
  match s.chars with
  | c :: cs => (⟨some c, []⟩, { s with chars := cs })
  | [] => (⟨none, s.closing⟩, ⟨[], []⟩)

def nth (s : Source) : Nat → Given
  | 0 => s.next.1
  | n + 1 => s.next.2.nth n

theorem nth_eq (s : Source) (n : ℕ) :
    s.nth n = ⟨s.chars[n]?, if n = s.chars.length then s.closing else []⟩ := by
  induction n generalizing s with
  | zero =>
    obtain ⟨chars, closing⟩ := s
    cases chars <;> rfl
  | succ n ih =>
    obtain ⟨chars, closing⟩ := s
    cases chars <;> simp [nth, next, ih]

end Source

namespace TextReader

def remaining (r : TextReader) : Source := ⟨r.chars.drop r.taken, []⟩

variable {r line : TextReader} {notes : List Note}

theorem remaining_of_some {c : Char} (h : r.next = (⟨some c, notes⟩, line)) :
    notes = [] ∧ r.remaining = ⟨c :: line.remaining.chars, []⟩ := by
  unfold next at h
  split at h
  next hdrawn =>
    cases h
    obtain ⟨hinside, rfl⟩ := List.getElem?_eq_some_iff.mp hdrawn
    exact ⟨rfl, congrArg (Source.mk · []) (List.drop_eq_getElem_cons hinside)⟩
  next => cases h

theorem remaining_of_none (h : r.next = (⟨none, notes⟩, line)) :
    notes = [] ∧ line = r ∧ r.remaining = ⟨[], []⟩ := by
  unfold next at h
  split at h
  next => cases h
  next used =>
    cases h
    have hended := List.drop_eq_nil_of_le (List.getElem?_eq_none_iff.mp used)
    exact ⟨rfl, rfl, congrArg (Source.mk · []) hended⟩

theorem next_remaining (r : TextReader) : r.remaining.next = (r.next.1, r.next.2.remaining) := by
  rcases hgiven : r.next with ⟨⟨_ | c, notes⟩, line⟩
  · obtain ⟨rfl, rfl, hused⟩ := remaining_of_none hgiven
    rw [hused]
    rfl
  · obtain ⟨rfl, hleft⟩ := remaining_of_some hgiven
    rw [hleft]
    rfl

theorem nth_eq (r : TextReader) (n : ℕ) : r.nth n = r.remaining.nth n := by
  induction n generalizing r with
  | zero => rw [nth, Source.nth, next_remaining]
  | succ n ih => rw [nth, Source.nth, next_remaining, ih]

end TextReader

def LineReader.remaining (r : LineReader) : Source :=
  if r.exhausted then ⟨[], []⟩
  else ⟨r.line.remaining.chars ++ (Source.ofBytes r.bytes).chars, (Source.ofBytes r.bytes).closing⟩

namespace LineReader

theorem ofBytes_eq_readLine (bytes : List UInt8) :
    Source.ofBytes bytes =
      match readLine bytes with
      | (.ended, _) => ⟨[], []⟩
      | (.unreadable, _) => ⟨[], [Source.unreadable]⟩
      | (.text chars, rest) =>
        ⟨chars ++ (Source.ofBytes rest).chars, (Source.ofBytes rest).closing⟩ := by
  cases bytes with
  | nil =>
    rw [Source.ofBytes]
    rfl
  | cons b bs =>
    rw [Source.ofBytes, readLine, Line.ofBytes]
    cases Source.decode? (Source.takeLine (b :: bs)).1 <;> rfl

theorem next_remaining (r : LineReader) : r.remaining.next = (r.next.1, r.next.2.remaining) := by
  fun_induction LineReader.next r with
  | case1 r hused =>
    rw [remaining, if_pos hused]
    rfl
  | case2 r hunused c notes line hdrawn =>
    obtain ⟨rfl, hleft⟩ := TextReader.remaining_of_some hdrawn
    simp only [remaining, if_neg hunused, hleft]
    rfl
  | case3 r hunused notes line hdrawn chars rest hread ih =>
    obtain ⟨-, -, hused⟩ := TextReader.remaining_of_none hdrawn
    rw [← ih, remaining, remaining, if_neg hunused, if_neg hunused, hused, ofBytes_eq_readLine,
      hread]
    rfl
  | case4 r hunused notes line hdrawn rest hread =>
    obtain ⟨-, -, hused⟩ := TextReader.remaining_of_none hdrawn
    rw [remaining, if_neg hunused, hused, ofBytes_eq_readLine, hread]
    rfl
  | case5 r hunused notes line hdrawn rest hread =>
    obtain ⟨-, -, hused⟩ := TextReader.remaining_of_none hdrawn
    rw [remaining, if_neg hunused, hused, ofBytes_eq_readLine, hread]
    rfl

theorem nth_eq (r : LineReader) (n : ℕ) : r.nth n = r.remaining.nth n := by
  induction n generalizing r with
  | zero => rw [nth, Source.nth, next_remaining]
  | succ n ih => rw [nth, Source.nth, next_remaining, ih]

end LineReader

theorem nth_ofBytes (bytes : List UInt8) (n : ℕ) :
    (LineReader.ofBytes bytes).nth n = (Source.ofBytes bytes).nth n :=
  LineReader.nth_eq _ n

theorem nth_ofText (text : String) (n : ℕ) :
    (TextReader.ofText text).nth n = (Source.ofText text).nth n :=
  TextReader.nth_eq _ n

theorem Tokenizer.current_iterate (t : Tokenizer) (n : ℕ) :
    (Tokenizer.nextChar^[n + 1] t).current = t.rest[n]? := by
  induction n generalizing t with
  | zero => exact List.head?_eq_getElem?
  | succ n ih =>
    rw [Function.iterate_succ_apply, ih]
    exact List.getElem?_tail

/-- The readers deliver their sources. Asked again and again, a reader of bytes gives the characters
of the leading lines that are text and then nothing, and it notes no more than the source does, with
the first nothing it gives. What it gives is what a tokenizer takes in hand. From the bytes of a
text it gives what a reader of the text gives, so the tokens, the places and what a session makes of
them are the same. -/
theorem readers_deliver :
    (∀ bytes, (∃ cs, LeadingText bytes cs) ∧
      ∀ cs, LeadingText bytes cs ↔ ∀ n, ((LineReader.ofBytes bytes).nth n).char = cs[n]?) ∧
    (∀ bytes n, (LineReader.ofBytes bytes).nth n =
        ⟨(Source.ofBytes bytes).chars[n]?,
          if n = (Source.ofBytes bytes).chars.length then (Source.ofBytes bytes).closing else []⟩ ∧
      (Tokenizer.nextChar^[n + 1] (.ofSource (.ofBytes bytes))).current =
        ((LineReader.ofBytes bytes).nth n).char) ∧
    ∀ text : String,
      (∀ n, (LineReader.ofBytes (Text.utf8 text)).nth n = (TextReader.ofText text).nth n ∧
        (TextReader.ofText text).nth n = ⟨text.toList[n]?, []⟩ ∧
        (Tokenizer.nextChar^[n + 1] (.ofSource (.ofText text))).current =
          ((TextReader.ofText text).nth n).char) ∧
      (∀ n, (Tokenizer.ofSource (.ofBytes (Text.utf8 text))).nth n =
        (Tokenizer.ofSource (.ofText text)).nth n) ∧
      Position.first.trail (Source.ofBytes (Text.utf8 text)).chars =
        Position.first.trail text.toList ∧
      ∀ s : Session, s.run (.ofSource (.ofBytes (Text.utf8 text))) =
        s.run (.ofSource (.ofText text)) := by
  refine ⟨fun bytes => ⟨⟨_, Source.leadingText_iff.mpr rfl⟩, fun cs => ?_⟩,
    fun bytes n => ⟨?_, ?_⟩, fun text => ⟨fun n => ⟨?_, ?_, ?_⟩, ?_⟩⟩
  · rw [Source.leadingText_iff, List.ext_getElem?_iff]
    simp only [nth_ofBytes, Source.nth_eq]
  · rw [nth_ofBytes, Source.nth_eq]
  · rw [Tokenizer.current_iterate, nth_ofBytes, Source.nth_eq]
    rfl
  · rw [nth_ofBytes, nth_ofText, Source.ofBytes_utf8]
  · rw [nth_ofText, Source.nth_eq]
    exact congrArg (Given.mk _) (ite_self _)
  · rw [Tokenizer.current_iterate, nth_ofText, Source.nth_eq]
    rfl
  · rw [Source.ofBytes_utf8]
    exact ⟨fun _ => rfl, rfl, fun _ => rfl⟩

end FormCompiler
