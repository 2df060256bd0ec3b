import FormCompiler.Proofs.Parser.Abreast

namespace FormCompiler

abbrev WrittenParam := TypeWord × String

namespace WrittenParam

def param (q : WrittenParam) : Param := ⟨.ofWord q.1, q.2⟩

def kinds : List WrittenParam → List Kind
  | [] => []
  | [q] => [.typeWord q.1, .name q.2]
  | q :: q' :: params => .typeWord q.1 :: .name q.2 :: .comma :: kinds (q' :: params)

theorem name_mem_kinds {params : List WrittenParam} {q : WrittenParam} (hq : q ∈ params) :
    .name q.2 ∈ kinds params := by
  induction params with
  | nil => cases hq
  | cons q' params ih =>
    have hfirst : .name q'.2 ∈ kinds (q' :: params) := by
      cases params <;> exact List.mem_cons_of_mem _ List.mem_cons_self
    rcases List.mem_cons.mp hq with rfl | hq
    · exact hfirst
    · have hrest := ih hq
      cases params with
      | nil => cases hq
      | cons q'' params =>
        exact List.mem_cons_of_mem _ (List.mem_cons_of_mem _ (List.mem_cons_of_mem _ hrest))

end WrittenParam

def prototypeKinds (word : TypeWord) (function : String) (params : List WrittenParam) : List Kind :=
  .typeWord word :: .name function :: .openParen ::
    (WrittenParam.kinds params ++ [.closeParen, .semicolon])

namespace SymbolTable

theorem declare_entries {t t' : SymbolTable} (h : t'.entries = t.entries) (scope name : String)
    (type : Ty) : (t'.declare scope name type).entries = (t.declare scope name type).entries :=
  congrArg (Table.insert · (scopedName scope name) type) h

def withParams (t : SymbolTable) (function : String) (params : List WrittenParam) : SymbolTable :=
  params.foldl (fun t q => t.declare function q.2 (.ofWord q.1)) t

theorem withParams_get? {t : SymbolTable} {function : String} {params : List WrittenParam}
    {key : String} (h : ∀ q ∈ params, scopedName function q.2 ≠ key) :
    (t.withParams function params).entries.get? key = t.entries.get? key := by
  induction params generalizing t with
  | nil => rfl
  | cons q params ih =>
    obtain ⟨hq, hparams⟩ := List.forall_mem_cons.mp h
    refine (ih hparams).trans ?_
    change (t.entries.insert _ _).get? key = _
    rw [Table.get?_insert, if_neg hq]

theorem withParams_entries {t t' : SymbolTable} (h : t'.entries = t.entries) (function : String)
    (params : List WrittenParam) :
    (t'.withParams function params).entries = (t.withParams function params).entries := by
  induction params generalizing t t' with
  | nil => exact h
  | cons q params ih => exact ih (declare_entries h function q.2 (.ofWord q.1))

end SymbolTable

def Doubts.between (t : SymbolTable) (function : String) (params params' : List WrittenParam) :
    Doubts :=
  ((params ++ params').map fun q => ⟨function, q.2,
    (t.withParams function params').entries.get? (scopedName function q.2)⟩).filter fun d =>
      d.type? ≠ (t.withParams function params).entries.get? (scopedName function d.name)

theorem SymbolTable.agreeBut_between {t : SymbolTable} {function : String}
    (hfunction : IsName function) {params params' : List WrittenParam}
    (hparams : ∀ q ∈ params ++ params', IsName q.2) :
    (t.withParams function params).AgreeBut (Doubts.between t function params params')
      (t.withParams function params') := by
  refine ⟨fun scope name hs hn hdoubt => ?_, fun d hd => ?_, fun d hd => ?_⟩
  · by_cases hmem : scope = function ∧ ∃ q ∈ params ++ params', q.2 = name
    · obtain ⟨rfl, q, hq, rfl⟩ := hmem
      by_contra hne
      refine hdoubt (List.mem_map.mpr ⟨_, List.mem_filter.mpr
        ⟨List.mem_map.mpr ⟨q, hq, rfl⟩, decide_eq_true hne⟩, rfl⟩)
    · have hkey : ∀ q ∈ params ++ params', scopedName function q.2 ≠ scopedName scope name := by
        intro q hq he
        obtain ⟨rfl, rfl⟩ := scopedName_inj (.inr hfunction) hs (hparams q hq) hn he
        exact hmem ⟨rfl, q, hq, rfl⟩
      rw [withParams_get? fun q hq => hkey q (List.mem_append_left _ hq),
        withParams_get? fun q hq => hkey q (List.mem_append_right _ hq)]
  · obtain ⟨q, _, rfl⟩ := List.mem_map.mp (List.mem_filter.mp hd).1
    rfl
  · obtain ⟨q, hq, rfl⟩ := List.mem_map.mp (List.mem_filter.mp hd).1
    exact ⟨hfunction, hparams q hq⟩

namespace Cursor

variable {c : Cursor} {kind kind' : Kind} {kinds : List Kind}

theorem kind_of_cons (h : c.kinds = kind :: kinds) : c.current.kind = kind := (List.cons.inj h).1

theorem kinds_advance_of_cons (h : c.kinds = kind :: kind' :: kinds) :
    c.advance.kinds = kind' :: kinds := by
  rw [kinds_advance, h]
  rfl

end Cursor

namespace Reader

variable {t : SymbolTable} {c : Cursor} {kind : Kind} {after : List Kind}

theorem params_cons {function : String} {q : WrittenParam} {before : List Param}
    (hc : c.kinds = .typeWord q.1 :: .name q.2 :: kind :: after)
    (hnew : q.2 ∉ before.map Param.name) :
    params function before ⟨t, c⟩ =
      if kind = .comma then params function (before ++ [q.param])
        ⟨t.declare function q.2 (.ofWord q.1), c.advance.advance.advance⟩
      else .ok (before ++ [q.param])
        ⟨t.declare function q.2 (.ofWord q.1), c.advance.advance⟩ := by
  have hc₁ := Cursor.kinds_advance_of_cons hc
  have hc₂ := Cursor.kinds_advance_of_cons hc₁
  have hany : ¬ before.any (·.name == q.2) = true := by
    intro hany
    obtain ⟨other, hother, he⟩ := List.any_eq_true.mp hany
    exact hnew (beq_iff_eq.mp he ▸ List.mem_map_of_mem hother)
  rw [params_eq, token_bind]
  simp only [Cursor.kind_of_cons hc, advance_bind, token_bind, Cursor.kind_of_cons hc₁, if_neg hany,
    declare_bind, Cursor.kind_of_cons hc₂]
  split
  · rfl
  · rfl

theorem params_reads {function : String} {q : WrittenParam} {params : List WrittenParam}
    {before : List Param} (hc : c.kinds = WrittenParam.kinds (q :: params) ++ kind :: after)
    (hkind : kind ≠ .comma)
    (hnodup : (before.map Param.name ++ (q :: params).map Prod.snd).Nodup) :
    ∃ d : Cursor, d.kinds = kind :: after ∧ Reader.params function before ⟨t, c⟩ =
      .ok (before ++ (q :: params).map WrittenParam.param)
        ⟨t.withParams function (q :: params), d⟩ := by
  have hnew : q.2 ∉ before.map Param.name := fun hmem =>
    (List.nodup_append.mp hnodup).2.2 _ hmem _ List.mem_cons_self rfl
  induction params generalizing q before t c with
  | nil =>
    refine ⟨_, Cursor.kinds_advance_of_cons (Cursor.kinds_advance_of_cons hc), ?_⟩
    rw [params_cons hc hnew, if_neg hkind]
    rfl
  | cons q' params ih =>
    have hc₃ := Cursor.kinds_advance_of_cons (Cursor.kinds_advance_of_cons hc)
    have hnext : c.advance.advance.advance.kinds =
        WrittenParam.kinds (q' :: params) ++ kind :: after := by
      cases params with
      | nil => exact Cursor.kinds_advance_of_cons hc₃
      | cons q'' params => exact Cursor.kinds_advance_of_cons hc₃
    have hnodup' : ((before ++ [q.param]).map Param.name ++ (q' :: params).map Prod.snd).Nodup := by
      rw [List.map_append, List.append_assoc]
      exact hnodup
    have hnew' : q'.2 ∉ (before ++ [q.param]).map Param.name := fun hmem =>
      (List.nodup_append.mp hnodup').2.2 _ hmem _ List.mem_cons_self rfl
    obtain ⟨d, hd, hread⟩ := ih (t := t.declare function q.2 (.ofWord q.1)) hnext hnodup' hnew'
    refine ⟨d, hd, ?_⟩
    rw [params_cons hc hnew, if_pos rfl, hread, List.append_assoc]
    rfl

theorem prototype_reads (start : Span) (returns : Ty) (name : String) {params : List WrittenParam}
    (hc : c.kinds = WrittenParam.kinds params ++ .closeParen :: kind :: after)
    (hnodup : (params.map Prod.snd).Nodup) : ∃ (span : Span) (d : Cursor), d.kinds = kind :: after ∧
      prototype start returns name ⟨t, c⟩ =
        .ok ⟨returns, name, params.map WrittenParam.param, span⟩
          ⟨(t.withParams name params).declare "" name returns, d⟩ := by
  have hending : ∀ (ps : List Param) (t : SymbolTable) (d : Cursor),
      d.kinds = .closeParen :: kind :: after → (do
        insist .closeParen .endOfParameters
        let u ← token
        declare "" name returns
        advance
        return (⟨returns, name, ps, start.through u.span⟩ : Prototype)) ⟨t, d⟩ =
      .ok ⟨returns, name, ps, start.through d.current.span⟩
        ⟨t.declare "" name returns, d.advance⟩ := by
    intro ps t d hd
    rw [ok_bind (insist_of_kind (Cursor.kind_of_cons hd))]
    rfl
  rw [prototype_eq, token_bind]
  cases params with
  | nil =>
    refine ⟨start.through c.current.span, c.advance, Cursor.kinds_advance_of_cons hc, ?_⟩
    rw [if_pos (Cursor.kind_of_cons hc), pure_bind]
    exact hending [] t c hc
  | cons q params =>
    have hword : ∃ kinds, c.kinds = .typeWord q.1 :: kinds := by
      cases params with
      | nil => exact ⟨_, hc⟩
      | cons q' params => exact ⟨_, hc⟩
    obtain ⟨kinds, hword⟩ := hword
    have hne : c.current.kind ≠ .closeParen := (Cursor.kind_of_cons hword).trans_ne nofun
    obtain ⟨d, hd, hread⟩ : ∃ d : Cursor, d.kinds = .closeParen :: kind :: after ∧
        Reader.params name [] ⟨t, c⟩ = .ok ((q :: params).map WrittenParam.param)
          ⟨t.withParams name (q :: params), d⟩ := params_reads hc (by simp) hnodup
    refine ⟨start.through d.current.span, d.advance, Cursor.kinds_advance_of_cons hd, ?_⟩
    rw [if_neg hne, ok_bind hread]
    exact hending _ _ d hd

theorem head_reads {word : TypeWord} {name : String}
    (hc : c.kinds = .typeWord word :: .name name :: kind :: after) :
    head ⟨t, c⟩ = .ok (.ofWord word, name) ⟨t, c.advance.advance⟩ := by
  rw [head_eq, token_bind]
  simp only [Cursor.kind_of_cons hc, advance_bind, token_bind,
    Cursor.kind_of_cons (Cursor.kinds_advance_of_cons hc)]
  rfl

def afterPrototype (proto : Prototype) : Kind → Reader Declaration
  | .semicolon => return .prototype proto
  | .openBrace => do
    advance
    let (stmts, result) ← body proto.name
    return .function proto stmts result
  | _ => missing .afterPrototype

theorem global_prototype {word : TypeWord} {function : String} {params : List WrittenParam}
    (hc : c.kinds = .typeWord word :: .name function :: .openParen ::
      (WrittenParam.kinds params ++ .closeParen :: kind :: after))
    (hnodup : (params.map Prod.snd).Nodup) : ∃ (span : Span) (d : Cursor),
      d.kinds = kind :: after ∧ global ⟨t, c⟩ =
        afterPrototype ⟨.ofWord word, function, params.map WrittenParam.param, span⟩ kind
          ⟨(t.withParams function params).declare "" function (.ofWord word), d⟩ := by
  have hc₂ := Cursor.kinds_advance_of_cons (Cursor.kinds_advance_of_cons hc)
  have hc₃ : c.advance.advance.advance.kinds =
      WrittenParam.kinds params ++ .closeParen :: kind :: after := by
    rw [Cursor.kinds_advance, hc₂]
    simp
  obtain ⟨span, d, hd, hread⟩ :=
    prototype_reads (t := t) c.current.span (.ofWord word) function hc₃ hnodup
  refine ⟨span, d, hd, ?_⟩
  rw [global_eq, token_bind, ok_bind (head_reads hc)]
  simp only [token_bind, Cursor.kind_of_cons hc₂, if_true, advance_bind]
  rw [ok_bind hread, token_bind, Cursor.kind_of_cons hd]
  cases kind <;> rfl

theorem global_reads {word : TypeWord} {function : String} {params : List WrittenParam}
    (hc : c.kinds = prototypeKinds word function params ++ after)
    (hnodup : (params.map Prod.snd).Nodup) : ∃ (span : Span) (d : Cursor),
      d.kinds = .semicolon :: after ∧ global ⟨t, c⟩ =
        .ok (.prototype ⟨.ofWord word, function, params.map WrittenParam.param, span⟩)
          ⟨(t.withParams function params).declare "" function (.ofWord word), d⟩ :=
  global_prototype (by simpa [prototypeKinds] using hc) hnodup

theorem form_typeWord {word : TypeWord} {d : Declaration} {u : Place}
    (hword : c.current.kind = .typeWord word) (hread : global ⟨t, c⟩ = .ok d u) :
    form ⟨t, c⟩ = .ok (.declaration d) u := by
  unfold form
  rw [token_bind]
  simp only [hword]
  rw [ok_bind hread]
  rfl

end Reader

theorem Prototype.bare_signature {returns : Ty} {function : String}
    {params params' : List WrittenParam} (htypes : params'.map Prod.fst = params.map Prod.fst)
    (span span' : Span) :
    (Prototype.signature ⟨returns, function, params'.map WrittenParam.param, span'⟩).bare =
      (Prototype.signature ⟨returns, function, params.map WrittenParam.param, span⟩).bare := by
  have htypes : params'.map (fun q => NativeType.ofTy (.ofWord q.1)) =
      params.map fun q => NativeType.ofTy (.ofWord q.1) := by
    have := congrArg (List.map fun word => NativeType.ofTy (.ofWord word)) htypes
    rwa [List.map_map, List.map_map] at this
  refine Signature.bare_eq_iff.mpr ⟨rfl, rfl, ?_⟩
  simp only [Prototype.signature, Signature.paramTypes, List.map_map]
  exact htypes

namespace Parser

variable {p p' : Parser} {word : TypeWord} {function : String} {params params' : List WrittenParam}
  {after : List Kind}

theorem reads_prototype (herrors : p.errors = [])
    (hform : p.cursor.stream.pending.map Token.kind = prototypeKinds word function params ++ after)
    (hnodup : (params.map Prod.snd).Nodup) : ∃ span,
      p.reading = .declaration
        (.prototype ⟨.ofWord word, function, params.map WrittenParam.param, span⟩) ∧
      p.afterwards.cursor.kinds = .semicolon :: after ∧ p.afterwards.symbols =
        (p.symbols.checkpoint.withParams function params).declare "" function (.ofWord word) := by
  have hc : p.cursor.advance.kinds = prototypeKinds word function params ++ after := by
    rw [Cursor.kinds_advance, Cursor.kinds_eq, List.tail_cons, hform]
    exact if_neg (List.cons_ne_nil _ _)
  obtain ⟨span, d, hd, hread⟩ := Reader.global_reads (t := p.symbols.checkpoint) hc hnodup
  have hnext := reading_afterwards herrors
  rw [show p.begin = ⟨p.symbols.checkpoint, p.cursor.advance⟩ from rfl,
    Reader.form_typeWord (Cursor.kind_of_cons hc) hread] at hnext
  obtain ⟨hreading, hafter⟩ := Prod.mk.inj hnext
  rw [hafter]
  exact ⟨span, hreading, hd, rfl⟩

theorem isName_of_mem {name : String} (h : p.cursor.Spelled IsName)
    (hname : .name name ∈ p.cursor.stream.pending.map Token.kind) : IsName name := by
  obtain ⟨t, ht, hkind⟩ := List.mem_map.mp hname
  exact h t (List.mem_cons_of_mem _ ht) name hkind

/-- Two prototypes that differ in the names of their parameters are read alike, and leave these
names in doubt. -/
theorem nextAlike_renamed (herrors : p.errors = []) (herrors' : p'.errors = [])
    (hsymbols : p'.symbols = p.symbols) (hnamed : p.cursor.Spelled IsName)
    (hnamed' : p'.cursor.Spelled IsName)
    (hform : p.cursor.stream.pending.map Token.kind = prototypeKinds word function params ++ after)
    (hform' : p'.cursor.stream.pending.map Token.kind =
      prototypeKinds word function params' ++ after)
    (htypes : params'.map Prod.fst = params.map Prod.fst) (hnodup : (params.map Prod.snd).Nodup)
    (hnodup' : (params'.map Prod.snd).Nodup) :
    NextAlike (Doubts.between p.symbols function params params') p p' := by
  obtain ⟨span, hreading, hkinds, htable⟩ := reads_prototype herrors hform hnodup
  obtain ⟨span', hreading', hkinds', htable'⟩ := reads_prototype herrors' hform' hnodup'
  refine ⟨?_, hkinds'.trans hkinds.symm, fun _ _ => ?_⟩
  · rw [hreading, hreading']
    exact .declaration (.prototype (Prototype.bare_signature htypes span span'))
  · have hfunction : IsName function := by
      refine isName_of_mem hnamed ?_
      rw [hform]
      exact List.mem_cons_of_mem _ List.mem_cons_self
    have hparams : ∀ q ∈ params ++ params', IsName q.2 := by
      have hamong : ∀ {params : List WrittenParam} {q : WrittenParam}, q ∈ params →
          .name q.2 ∈ prototypeKinds word function params ++ after := fun hq =>
        List.mem_append_left _ (List.mem_cons_of_mem _ (List.mem_cons_of_mem _
          (List.mem_cons_of_mem _ (List.mem_append_left _ (WrittenParam.name_mem_kinds hq)))))
      intro q hq
      rcases List.mem_append.mp hq with hq | hq
      · exact isName_of_mem hnamed (hform ▸ hamong hq)
      · exact isName_of_mem hnamed' (hform' ▸ hamong hq)
    have hagree := SymbolTable.agreeBut_between (t := p.symbols) hfunction hparams
    have hagree := hagree.declare_global hfunction (.ofWord word)
    rw [htable, htable', hsymbols]
    have hentries : p.symbols.checkpoint.entries = p.symbols.entries := rfl
    have hparams := SymbolTable.withParams_entries hentries function
    exact hagree.of_entries (SymbolTable.declare_entries (hparams params) _ _ _)
      (SymbolTable.declare_entries (hparams params') _ _ _)

end Parser

end FormCompiler
