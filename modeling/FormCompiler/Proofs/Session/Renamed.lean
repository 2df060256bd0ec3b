import FormCompiler.Proofs.Parser.Renaming
import FormCompiler.Proofs.Session.Abreast

namespace FormCompiler

def TokenStream.kinds (stream : TokenStream) : List Kind := stream.pending.map Token.kind

def Parser.facing (p : Parser) (more : List Token) : Parser :=
  { p with cursor := ⟨p.cursor.current, { p.cursor.stream with pending := more }⟩ }

namespace Session

variable {s : Session} {p : Parser} {stream stream' : TokenStream} {o : Options}

theorem abreast_start (o : Options) : (start o).Abreast (start o) :=
  have hsettled : (start o).Settled :=
    .start (.ofDepth o.depth) ⟨o.level, o.unsignedCompare, o.allowRedefinition⟩ o.printCode {}
  ⟨hsettled, hsettled, ⟨fun _ => rfl, fun _ => rfl⟩, rfl, rfl⟩

theorem abreast_ofStream (hnamed : stream.Spelled IsName) (hkinds : stream'.kinds = stream.kinds) :
    (Parser.ofStream stream).Abreast [] (.ofStream stream') :=
  ⟨⟨rfl, rfl, rfl, hnamed.cursor, .refl _⟩, congrArg (List.cons _) hkinds⟩

theorem verdicts_of_kinds (hnamed : stream.Spelled IsName) (hkinds : stream'.kinds = stream.kinds) :
    (start o).verdicts (.ofStream stream') = (start o).verdicts (.ofStream stream) :=
  (abreast_start o).verdicts (abreast_ofStream hnamed hkinds) (Doubts.heeded_nil _)

theorem Reads.facing {vs : List Verdict} {s₀ : Session} (h : Reads s₀ (.ofStream stream) vs s p)
    (hne : p.cursor.stream.pending ≠ []) : ∃ before : List Token,
      before ++ p.cursor.stream.pending = stream.pending ∧
      ∀ more, Reads s₀ (.ofStream { stream with pending := before ++ more }) vs s
        (p.facing more) := by
  obtain ⟨before, hbefore⟩ : p.cursor.stream.pending <:+ stream.pending := h.suffix
  have hstart : Parser.ofStream stream =
      (Parser.ofStream { stream with pending := before }).extend p.cursor.stream.pending := by
    change _ = Parser.ofStream { stream with pending := before ++ p.cursor.stream.pending }
    rw [hbefore]
  obtain ⟨q, _, hq, hreads⟩ := (hstart ▸ h).extend rfl hne (List.suffix_refl _)
  have hempty : q.cursor.stream.pending = [] :=
    List.append_left_eq_self.mp (congrArg (·.cursor.stream.pending) hq).symm
  have hfacing : ∀ more, q.extend more = p.facing more := by
    intro more
    rw [hq, Parser.extend, Cursor.extend, hempty]
    rfl
  exact ⟨before, hbefore, fun more => hfacing more ▸ hreads more⟩

/-- Where the second text goes on from a place with other tokens, the session over it comes to that
place with the same verdicts. -/
theorem verdicts_facing {vs : List Verdict} (hnamed' : stream'.Spelled IsName)
    (h : Reads (start o) (.ofStream stream) vs s p) (hne : p.cursor.stream.pending ≠ [])
    {before : List Kind} {more : List Token}
    (hkinds : stream.kinds = before ++ p.cursor.stream.kinds)
    (hkinds' : stream'.kinds = before ++ more.map Token.kind) :
    (start o).verdicts (.ofStream stream') = vs ++ s.verdicts (p.facing more) := by
  obtain ⟨tokens, htokens, hfacing⟩ := h.facing hne
  have htokensKinds : tokens.map Token.kind = before := by
    have hall := congrArg (List.map Token.kind) htokens
    rw [List.map_append] at hall
    exact List.append_cancel_right (hall.trans hkinds)
  -- The first text up to the place, and the second one from there on.
  have hspliced : (start o).verdicts (.ofStream { stream with pending := tokens ++ more }) =
      (start o).verdicts (.ofStream stream') := by
    refine verdicts_of_kinds hnamed' ?_
    rw [hkinds', ← htokensKinds]
    exact List.map_append
  rw [← hspliced, (hfacing more).verdicts]

section Renamed

variable {word : TypeWord} {function : String} {params params' : List WrittenParam}
  {before after : List Kind}

theorem verdicts_renamed (hnamed : stream.Spelled IsName) (hnamed' : stream'.Spelled IsName)
    (hv : (s, p) ∈ (start o).visits (.ofStream stream))
    (hform : p.cursor.stream.kinds = prototypeKinds word function params ++ after)
    (hkinds : stream.kinds = before ++ (prototypeKinds word function params ++ after))
    (hkinds' : stream'.kinds = before ++ (prototypeKinds word function params' ++ after))
    (htypes : params'.map Prod.fst = params.map Prod.fst)
    (hnodup : (params.map Prod.snd).Nodup) (hnodup' : (params'.map Prod.snd).Nodup)
    (hrest : (Doubts.after [] (.between p.symbols function params params') (s.verdict p)).heeded
      (s.visits p).tail = true) :
    (start o).verdicts (.ofStream stream') = (start o).verdicts (.ofStream stream) := by
  obtain ⟨vs, hreads⟩ : ∃ vs, Reads (start o) (.ofStream stream) vs s p := exists_reads hv
  obtain ⟨hs, hp⟩ := (abreast_start o).reads (abreast_ofStream hnamed rfl) hreads
  have hne : p.cursor.stream.pending ≠ [] := by
    intro hnil
    rw [TokenStream.kinds, hnil] at hform
    cases hform
  obtain ⟨more, hmore⟩ : ∃ more, stream'.pending.drop before.length = more := ⟨_, rfl⟩
  have hmoreKinds : more.map Token.kind = prototypeKinds word function params' ++ after := by
    rw [← hmore, List.map_drop]
    change stream'.kinds.drop _ = _
    rw [hkinds', List.drop_left]
  have hlevel : p.Level [] (p.facing more) := ⟨hp.errors, hp.errors, rfl, hp.named, .refl _⟩
  have hfacingNamed : (p.facing more).cursor.Spelled IsName :=
    List.forall_mem_cons.mpr ⟨hp.named _ List.mem_cons_self, fun t ht =>
      hnamed' t (List.mem_of_mem_drop (hmore ▸ ht))⟩
  have hnext : Parser.NextAlike (.between p.symbols function params params') p (p.facing more) :=
    Parser.nextAlike_renamed hp.errors hp.errors rfl hp.named hfacingNamed hform hmoreKinds htypes
      hnodup hnodup'
  rw [verdicts_facing hnamed' hreads hne (hform ▸ hkinds) (hmoreKinds ▸ hkinds'), hreads.verdicts]
  exact congrArg _ (hs.verdicts_of_next hlevel hnext hrest)

/-- Where the parameters of a prototype are given other names, the output and the counts remain, as
long as later forms of its function heed the names that the two prototypes leave in doubt. -/
theorem runText_renamed {text text' : String} (hv : (s, p) ∈ visitsOf text o)
    (hform : p.cursor.stream.kinds = prototypeKinds word function params ++ after)
    (hkinds : (TokenStream.ofSource (.ofText text)).kinds =
      before ++ (prototypeKinds word function params ++ after))
    (hkinds' : (TokenStream.ofSource (.ofText text')).kinds =
      before ++ (prototypeKinds word function params' ++ after))
    (htypes : params'.map Prod.fst = params.map Prod.fst)
    (hnodup : (params.map Prod.snd).Nodup) (hnodup' : (params'.map Prod.snd).Nodup)
    (hrest : (Doubts.after [] (.between p.symbols function params params') (s.verdict p)).heeded
      (s.visits p).tail = true) :
    (runText text' o).events.filter Event.isOutput =
        (runText text o).events.filter Event.isOutput ∧
      (runText text' o).session.stats = (runText text o).session.stats := by
  have hverdicts : verdictsOf text' o = verdictsOf text o :=
    verdicts_renamed (TokenStream.named_ofSource _) (TokenStream.named_ofSource _) hv hform hkinds
      hkinds' htypes hnodup hnodup' hrest
  rw [runText_output, runText_output, runText_stats, runText_stats, hverdicts]
  exact ⟨rfl, rfl⟩

end Renamed

def calling (param : String) : String :=
  "int x() \x7b return 5; \x7d int f(int " ++ param ++ ");" ++
    "int f(int y) \x7b return x() + y; \x7d f(2);"

theorem runText_renamed_calling :
    (runText (calling "y") {}).events.filter Event.isOutput =
        (runText (calling "x") {}).events.filter Event.isOutput ∧
      (runText (calling "y") {}).session.stats = (runText (calling "x") {}).session.stats := by
  let before := (TokenStream.ofSource (.ofText (calling "x"))).kinds.take 9
  let after := (TokenStream.ofSource (.ofText (calling "x"))).kinds.drop 16
  have hkinds : (TokenStream.ofSource (.ofText (calling "x"))).kinds =
      before ++ (prototypeKinds .int "f" [(.int, "x")] ++ after) := by decide +kernel
  have hkinds' : (TokenStream.ofSource (.ofText (calling "y"))).kinds =
      before ++ (prototypeKinds .int "f" [(.int, "y")] ++ after) := by decide +kernel
  have hrun : ∃ v ∈ (visitsOf (calling "x") {})[1]?,
      v.2.cursor.stream.kinds = prototypeKinds .int "f" [(.int, "x")] ++ after ∧
      (Doubts.after [] (.between v.2.symbols "f" [(.int, "x")] [(.int, "y")])
        (v.1.verdict v.2)).heeded (v.1.visits v.2).tail = true := by decide +kernel
  obtain ⟨v, hv, hform, hrest⟩ := hrun
  exact runText_renamed (List.mem_of_getElem? hv) hform hkinds hkinds' rfl (by decide) (by decide)
    hrest

def mentioning (param : String) : String :=
  "int f(int " ++ param ++ "); int f(int y) \x7b x; 7; \x7d"

theorem not_runText_renamed : ¬ ∀ (text text' : String) (o : Options) (s : Session) (p : Parser)
    (word : TypeWord) (function : String) (params params' : List WrittenParam)
    (before after : List Kind), (s, p) ∈ visitsOf text o →
    p.cursor.stream.kinds = prototypeKinds word function params ++ after →
    (TokenStream.ofSource (.ofText text)).kinds =
      before ++ (prototypeKinds word function params ++ after) →
    (TokenStream.ofSource (.ofText text')).kinds =
      before ++ (prototypeKinds word function params' ++ after) →
    params'.map Prod.fst = params.map Prod.fst → (params.map Prod.snd).Nodup →
    (params'.map Prod.snd).Nodup →
    (runText text' o).events.filter Event.isOutput =
        (runText text o).events.filter Event.isOutput ∧
      (runText text' o).session.stats = (runText text o).session.stats := by
  intro h
  have hfirst : (start {}, Parser.ofStream (.ofSource (.ofText (mentioning "x")))) ∈
      visitsOf (mentioning "x") {} := by
    rw [visitsOf, visits]
    exact List.mem_cons_self
  have hsame := h (mentioning "x") (mentioning "z") {} _ _ .int "f" [(.int, "x")] [(.int, "z")] []
    ((TokenStream.ofSource (.ofText (mentioning "x"))).kinds.drop 7) hfirst (by decide +kernel)
    (by decide +kernel) (by decide +kernel) rfl (by decide) (by decide)
  have hlength : ((runText (mentioning "z") {}).events.filter Event.isOutput).length ≠
      ((runText (mentioning "x") {}).events.filter Event.isOutput).length := by decide +kernel
  exact hlength (congrArg List.length hsame.1)

end Session

end FormCompiler
