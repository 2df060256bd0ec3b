import FormCompiler.Proofs.Arithmetic.Spelling
import FormCompiler.Proofs.Parser.RoundTrip
import FormCompiler.Proofs.Session.Visits

namespace FormCompiler

namespace Cursor

variable {c : Cursor} {w rest : List Token} {t : Token}

theorem yields_of_pending (hp : c.stream.pending = w ++ t :: rest)
    (hw : ∀ u ∈ w, u.kind ≠ .eof) :
    c.advance.Yields w ⟨t, { c.stream with pending := rest }⟩ := by
  induction w generalizing c with
  | nil =>
    rw [advance_of_pending hp]
    exact .nil
  | cons u w ih =>
    have hadvance := advance_of_pending hp
    have hrest := ih (c := c.advance) (by rw [hadvance]; rfl)
      fun v hv => hw v (List.mem_cons_of_mem _ hv)
    rw [hadvance] at hrest ⊢
    exact .cons (hw u List.mem_cons_self) hrest

end Cursor

namespace Parser

variable {p : Parser} {w rest : List Token} {t : Token} {tree : Expr}

theorem reading_of_derives (h : p.errors = [])
    (hderives : Names.Derives ⟨p.symbols.checkpoint, ""⟩ .comparison false w tree)
    (hp : p.cursor.stream.pending = w ++ t :: rest) (ht : t.kind = .semicolon) :
    p.reading = .expression (.wrap tree.promoted p.counter) ∧
      p.afterwards.cursor = ⟨t, { p.cursor.stream with pending := rest }⟩ := by
  let d : Cursor := ⟨t, { p.cursor.stream with pending := rest }⟩
  have hread : Reader.expr "" ⟨p.symbols.checkpoint, p.cursor.advance⟩ =
      .ok tree.promoted ⟨p.symbols.checkpoint, d⟩ :=
    Reader.expr_of_offers ⟨⟨false, hderives⟩, Cursor.yields_of_pending hp hderives.kind_ne_eof,
      by rw [Cursor.kind, ht]; rfl, fun _ he => by rw [Cursor.kind, ht] at he; cases he⟩
  have hform : Reader.form p.begin = .ok (.expression tree.promoted) ⟨p.symbols.checkpoint, d⟩ :=
    Reader.form_of_expr hread ht
  have hnext := reading_afterwards h
  rw [hform] at hnext
  obtain ⟨hreading, hafter⟩ := Prod.mk.inj hnext
  exact ⟨hreading, by rw [hafter]; rfl⟩

theorem reading_of_eof (h : p.errors = []) (hc : p.cursor.advance.kind = .eof) :
    p.reading = .ending := by
  have hnext := reading_afterwards h
  rw [Reader.form_eof hc] at hnext
  exact (Prod.mk.inj hnext).1

end Parser

namespace Arithmetic

variable {e : Arithmetic} {text : String}

theorem Written.tokenized (h : e.Written text) (names : Names) :
    ∃ w t stop tree, tokenize text.toList = w ++ [t, stop] ∧ t.kind = .semicolon ∧
      stop.kind = .eof ∧ names.Derives .comparison false w tree ∧ e.ReadAs tree := by
  obtain ⟨cs, blanks, hsplit, hspelled, hblank⟩ := h
  have hends : EndsNumeral ((';' :: blanks) ++ []) := endsNumeral_cons rfl (by decide) _
  obtain ⟨w, tree, hreads, hderives, hmeans⟩ := hspelled.reads names .first hends
  let p := Position.first.afterAll cs
  let t : Token := ⟨.semicolon, ⟨p, p.after ';'⟩⟩
  let stop : Token := ⟨.eof, .point ((p.after ';').afterAll blanks)⟩
  have hcloses : Token.Reads p [';'] (blanks ++ []) [t] := .lexeme rfl rfl
  have hall := hreads.append (hcloses.append (.blanks hblank))
  refine ⟨w, t, stop, tree, ?_, rfl, rfl, hderives.comparison, hmeans⟩
  calc tokenize text.toList
      = Token.read .first (cs ++ ';' :: blanks ++ []) := by rw [tokenize, hsplit, List.append_nil]
    _ = w ++ ([t] ++ []) ++ Token.read (Position.first.afterAll (cs ++ ';' :: blanks)) [] := hall
    _ = w ++ [t, stop] := by simp [Token.read, Position.afterAll_append, stop, p]

end Arithmetic

namespace Session

theorem verdicts_written {e : Arithmetic} {text : String} (h : e.Written text) :
    let p : Parser := .ofStream (.ofSource (.ofText text))
    ∃ tree, e.ReadAs tree ∧ p.reading = .expression (.wrap tree 0) ∧
      ∀ s : Session, s.verdicts p = [s.verdict p, .ended] := by
  intro p
  obtain ⟨w, t, stop, tree, htokens, ht, hstop, hderives, hmeans⟩ :=
    h.tokenized ⟨p.symbols.checkpoint, ""⟩
  obtain ⟨hreading, hcursor⟩ := p.reading_of_derives rfl hderives htokens ht
  rw [hmeans.promoted] at hreading
  refine ⟨tree, hmeans, hreading, fun s => ?_⟩
  let q := (s.turn p).parser
  have hq : q.errors = [] := errors_turn s p
  have hlast : q.reading = .ending := by
    apply q.reading_of_eof hq
    rw [cursor_turn, hcursor]
    exact hstop
  have hgo : s.GoesOn p := by
    rw [goesOn_iff s rfl, ne_eq, verdict_eq_ended, hreading]
    nofun
  have hended : (s.turn p).session.verdict q = .ended := verdict_eq_ended.mpr hlast
  have hstops : ¬ (s.turn p).session.GoesOn q := fun h => (goesOn_iff _ hq).mp h hended
  rw [verdicts, visits_of_goesOn hgo, visits_of_not_goesOn hstops, List.map_cons,
    List.map_singleton, hended]

end Session

end FormCompiler
