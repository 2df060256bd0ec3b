import FormCompiler.Proofs.Parser.Derived
import FormCompiler.Proofs.Parser.Words

namespace FormCompiler

theorem not_mem_colon {name : String} (h : IsName name) : ':' ∉ name.toList :=
  fun hc => (by cases h.isWord ':' hc)

def IsScope (scope : String) : Prop := scope = "" ∨ IsName scope

theorem scopedName_inj {scope scope' name name' : String} (hs : IsScope scope)
    (hs' : IsScope scope') (hn : IsName name) (hn' : IsName name')
    (h : scopedName scope name = scopedName scope' name') : scope = scope' ∧ name = name' := by
  -- The first colon of a key ends its scope.
  have hcut : ∀ {scope : String}, IsName scope → ∀ name : String,
      (scope ++ "::" ++ name).toList.takeWhile (· ≠ ':') = scope.toList ∧
        (scope ++ "::" ++ name).toList.dropWhile (· ≠ ':') = ':' :: ':' :: name.toList := by
    intro scope hscope name
    have hall : ∀ c ∈ scope.toList, (decide (c ≠ ':')) = true := by
      intro c hc
      simp only [ne_eq, decide_eq_true_eq]
      rintro rfl
      exact not_mem_colon hscope hc
    rw [String.toList_append, String.toList_append, List.append_assoc,
      List.takeWhile_append_of_pos hall, List.dropWhile_append_of_pos hall]
    simp
  have hmem : ∀ {scope name : String}, ':' ∈ (scope ++ "::" ++ name).toList := by simp
  unfold scopedName at h
  rcases hs with rfl | hs
  · rcases hs' with rfl | hs'
    · exact ⟨rfl, h⟩
    · rw [if_pos rfl, if_neg hs'.ne_empty] at h
      exact absurd (h ▸ hmem) (not_mem_colon hn)
  · rcases hs' with rfl | hs'
    · rw [if_neg hs.ne_empty, if_pos rfl] at h
      exact absurd (h ▸ hmem) (not_mem_colon hn')
    · rw [if_neg hs.ne_empty, if_neg hs'.ne_empty] at h
      have htake := (hcut hs name).1
      have hdrop := (hcut hs name).2
      rw [h, (hcut hs' name').1] at htake
      rw [h, (hcut hs' name').2] at hdrop
      simp only [List.cons.injEq, true_and] at hdrop
      exact ⟨(String.toList_inj.mp htake).symm, (String.toList_inj.mp hdrop).symm⟩

structure Naming where
  scope : String
  name : String
  type : Ty
  isFunction : Bool
  deriving DecidableEq

namespace Naming

def last? (ns : List Naming) (scope name : String) : Option Naming :=
  ns.reverse.find? fun n => n.scope == scope && n.name == name

def seen? (ns : List Naming) (scope name : String) : Option Naming :=
  (last? ns scope name).or (last? ns "" name)

def type? (ns : List Naming) (scope name : String) : Option Ty := (seen? ns scope name).map type

theorem last?_concat (ns : List Naming) (n : Naming) (scope name : String) :
    last? (ns ++ [n]) scope name =
      if n.scope = scope ∧ n.name = name then some n else last? ns scope name := by
  unfold last?
  rw [List.reverse_concat, List.find?_cons]
  by_cases h : n.scope = scope ∧ n.name = name
  · simp [h]
  · rw [if_neg h, show (n.scope == scope && n.name == name) = false by simpa using h]

theorem last?_eq_some {ns : List Naming} {scope name : String} {n : Naming}
    (h : last? ns scope name = some n) : n ∈ ns ∧ n.scope = scope ∧ n.name = name := by
  have hmem := List.mem_of_find?_eq_some h
  have hfound := List.find?_some h
  simp only [Bool.and_eq_true, beq_iff_eq] at hfound
  exact ⟨List.mem_reverse.mp hmem, hfound⟩

theorem seen?_global (ns : List Naming) (name : String) : seen? ns "" name = last? ns "" name := by
  unfold seen?
  cases last? ns "" name <;> rfl

structure Proper (n : Naming) : Prop where
  scope : IsScope n.scope
  name : IsName n.name

end Naming

def Stmt.namings (scope : String) : Stmt → List Naming
  | .declaration (.variableOf type name _) | .declaration (.variableAs type name _ _) =>
    [⟨scope, name, type, false⟩]
  | .declaration _ | .expression _ => []

def Param.naming (function : String) (q : Param) : Naming := ⟨function, q.name, q.type, false⟩

def Prototype.namings (p : Prototype) : List Naming :=
  p.params.map (Param.naming p.name) ++ [⟨"", p.name, p.returns, true⟩]

def Declaration.namings : Declaration → List Naming
  | .prototype p => p.namings
  | .function p body _ => p.namings ++ body.flatMap (Stmt.namings p.name)
  | .variableOf type name _ | .variableAs type name _ _ => [⟨"", name, type, false⟩]

namespace SymbolTable

def Records (t : SymbolTable) (ns : List Naming) : Prop :=
  ∀ scope name, IsScope scope → IsName name →
    t.entries.get? (scopedName scope name) = (Naming.last? ns scope name).map Naming.type

variable {t : SymbolTable} {ns : List Naming}

theorem Records.lookup? (h : t.Records ns) {scope name : String} (hs : IsScope scope)
    (hn : IsName name) : t.lookup? scope name = Naming.type? ns scope name := by
  have hglobal : t.entries.get? name = _ := h "" name (.inl rfl) hn
  have hlocal := h scope name hs hn
  unfold SymbolTable.lookup? Naming.type?
  split
  next he =>
    subst he
    rw [hglobal, Naming.seen?_global]
  next =>
    rw [hlocal, hglobal]
    unfold Naming.seen?
    cases Naming.last? ns scope name <;> rfl

theorem Records.declare (h : t.Records ns) {n : Naming} (hn : n.Proper) :
    (t.declare n.scope n.name n.type).Records (ns ++ [n]) := by
  intro scope name hs hname
  rw [Naming.last?_concat]
  change (t.entries.insert _ _).get? _ = _
  rw [Table.get?_insert]
  by_cases he : n.scope = scope ∧ n.name = name
  · rw [if_pos he, if_pos (by rw [he.1, he.2])]
    rfl
  · rw [if_neg he, if_neg fun hkey => he (scopedName_inj hn.scope hs hn.name hname hkey)]
    exact h scope name hs hname

theorem Records.of_entries {t' : SymbolTable} (h : t.Records ns) (he : t'.entries = t.entries) :
    t'.Records ns := by
  intro scope name hs hn
  rw [he]
  exact h scope name hs hn

end SymbolTable

inductive Expr.Resolved (look : String → Option Ty) : Expr → Prop
  | int {value : Int64} {span : Span} : Resolved look (.int value span)
  | float {value : Float} {span : Span} : Resolved look (.float value span)
  | var {name : String} {type : Ty} {span : Span} : look name = some type →
      Resolved look (.var name type span)
  | binary {op : BinaryOp} {lhs rhs : Expr} {span : Span} : Resolved look lhs →
      Resolved look rhs → Resolved look (.binary op lhs rhs span)
  | call {callee : String} {args : List Expr} {type : Ty} {span : Span} :
      look callee = some type → (∀ arg ∈ args, Resolved look arg) →
      Resolved look (.call callee args type span)
  | cond {condition whenTrue whenFalse : Expr} {span : Span} : Resolved look condition →
      Resolved look whenTrue → Resolved look whenFalse →
      Resolved look (.cond condition whenTrue whenFalse span)

theorem Expr.Resolved.join {look : String → Option Ty} {lhs rhs : Expr} (hl : lhs.Resolved look)
    (hr : rhs.Resolved look) (op : BinaryOp) : (Expr.join op lhs rhs).Resolved look := by
  refine .binary ?_ hr
  unfold promote
  split
  · split
    · exact .float
    · exact .int
  · exact hl

theorem Expr.Resolved.of_spelled {W : String → Prop} {look look' : String → Option Ty}
    (hlook : ∀ name, W name → look' name = look name) {e : Expr} (h : e.Resolved look)
    (hs : e.Spelled W) : e.Resolved look' := by
  induction h with
  | int => exact .int
  | float => exact .float
  | var ht =>
    cases hs with
    | var hn => exact .var ((hlook _ hn).trans ht)
  | binary _ _ ihl ihr =>
    cases hs with
    | binary hl hr => exact .binary (ihl hl) (ihr hr)
  | call ht _ ih =>
    cases hs with
    | call hn hargs =>
      exact .call ((hlook _ hn).trans ht) fun arg harg => ih arg harg (hargs arg harg)
  | cond _ _ _ ihc iht ihf =>
    cases hs with
    | cond hc ht hf => exact .cond (ihc hc) (iht ht) (ihf hf)

namespace Names

variable {names : Names}

mutual

theorem Derives.resolved {σ : Stratum} {greedy : Bool} {w : List Token} {e : Expr} :
    Derives names σ greedy w e → e.promoted.Resolved names.type?
  | .int .. => .int
  | .float .. => .float
  | .var _ htype => .var htype
  | .call _ htype _ hargs _ => .call htype hargs.resolved
  | .paren _ he _ => he.resolved
  | .cond _ _ hc _ ht _ hf => .cond hc.resolved ht.resolved hf.resolved
  | .binary hl _ hr => Expr.join_promoted _ _ _ ▸ hl.resolved.join hr.resolved _
  | .lift h => h.resolved

theorem DerivesArgs.resolved {w : List Token} {args : List Expr} :
    DerivesArgs names w args → ∀ arg ∈ Expr.promotedArgs args, arg.Resolved names.type?
  | .none => fun _ hnil => (by cases hnil)
  | .some h => h.resolved

theorem DerivesMore.resolved {w : List Token} {args : List Expr} :
    DerivesMore names w args → ∀ arg ∈ Expr.promotedArgs args, arg.Resolved names.type?
  | .last h => List.forall_mem_singleton.mpr h.resolved
  | .more h _ hrest => List.forall_mem_cons.mpr ⟨h.resolved, hrest.resolved⟩

end

end Names

def ResolvedBody (scope : String) : List Naming → List Stmt → Option Expr → Prop
  | ns, [], result => ∀ e ∈ result, e.Resolved (Naming.type? ns scope)
  | ns, .expression e :: body, result =>
    e.Resolved (Naming.type? ns scope) ∧ ResolvedBody scope ns body result
  | ns, .declaration d :: body, result =>
    ResolvedBody scope (ns ++ Stmt.namings scope (.declaration d)) body result

def Declaration.Resolved (ns : List Naming) : Declaration → Prop
  | .function p body result => ResolvedBody p.name (ns ++ p.namings) body result
  | .prototype _ | .variableOf .. | .variableAs .. => True

namespace Reader

variable {α β : Type}

def Ensures (Q : α → SymbolTable → Prop) (m : Reader α) (s : Place) : Prop :=
  ∀ a t, m s = .ok a t → s.cursor.Leads t.cursor ∧ Q a t.symbols

namespace Ensures

variable {P : α → SymbolTable → Prop} {Q : β → SymbolTable → Prop} {m : Reader α}
  {k : α → Reader β} {s : Place}

theorem pure {a : α} (h : P a s.symbols) : Ensures P (Pure.pure a) s := by
  intro b t hb
  cases hb
  exact ⟨.refl, h⟩

theorem throw (e : ParseError) : Ensures P (MonadExcept.throw e : Reader α) s :=
  fun _ _ hb => (by cases hb)

theorem bind (hm : Ensures P m s)
    (hk : ∀ a t, s.cursor.Leads t.cursor → P a t.symbols → Ensures Q (k a) t) :
    Ensures Q (m >>= k) s := by
  intro b u hb
  simp only [Bind.bind, EStateM.bind] at hb
  split at hb
  next a t ht =>
    obtain ⟨hlead, ha⟩ := hm a t ht
    obtain ⟨hlead', hq⟩ := hk a t hlead ha b u hb
    exact ⟨hlead.trans hlead', hq⟩
  next => cases hb

theorem token {k : Token → Reader β} (hk : Ensures Q (k s.cursor.current) s) :
    Ensures Q (token >>= k) s := hk

theorem advance {k : Unit → Reader β} (hk : Ensures Q (k ()) ⟨s.symbols, s.cursor.advance⟩) :
    Ensures Q (advance >>= k) s := fun b t hb => ⟨(hk b t hb).1.after, (hk b t hb).2⟩

theorem declare {scope name : String} {type : Ty} {k : Unit → Reader β}
    (hk : Ensures Q (k ()) ⟨s.symbols.declare scope name type, s.cursor⟩) :
    Ensures Q (declare scope name type >>= k) s := hk

theorem refuse (cause : ParseError.Cause) : Ensures P (refuse cause : Reader α) s :=
  .token (.throw _)

theorem missing (what : Expected) : Ensures P (missing what : Reader α) s := .token (.refuse _)

theorem insist {kind : Kind} {what : Expected} {k : Unit → Reader β}
    (hk : s.cursor.current.kind = kind → Ensures Q (k ()) s) :
    Ensures Q (insist kind what >>= k) s :=
  insist_cases (M := (Ensures Q · s)) (fun _ => token) (missing what) hk

theorem pass {kind : Kind} {what : Expected} {k : Unit → Reader β}
    (hk : s.cursor.current.kind = kind → Ensures Q (k ()) ⟨s.symbols, s.cursor.advance⟩) :
    Ensures Q (pass kind what >>= k) s := by
  unfold Reader.pass
  rw [bind_assoc]
  exact insist fun h => advance (hk h)

end Ensures

def ResolvedBy (symbols : SymbolTable) (scope : String) (e : Expr) (symbols' : SymbolTable) :
    Prop :=
  e.Resolved (symbols.lookup? scope) ∧ symbols' = symbols

theorem resolves_expr (symbols : SymbolTable) (scope : String) (c : Cursor) :
    Ensures (ResolvedBy symbols scope) (expr scope) ⟨symbols, c⟩ := by
  intro e t he
  obtain ⟨hsymbols, w, tree, ⟨⟨greedy, htree⟩, hw, -⟩, rfl⟩ :=
    expr_sound ⟨symbols, scope⟩ c e t he
  exact ⟨hw.leads, htree.resolved, hsymbols⟩

section Declarations

variable {ns : List Naming} {s : Place}

structure Knows (ns : List Naming) (s : Place) : Prop where
  records : s.symbols.Records ns
  named : s.cursor.Spelled IsName

theorem Knows.advance (h : Knows ns s) : Knows ns ⟨s.symbols, s.cursor.advance⟩ :=
  ⟨h.records, h.named.advance⟩

theorem Knows.after {t : Place} (h : Knows ns s) (ht : s.cursor.Leads t.cursor)
    {ns' : List Naming} (hr : t.symbols.Records ns') : Knows ns' t :=
  ⟨hr, ht.spelled h.named⟩

theorem Knows.declare (h : Knows ns s) {n : Naming} (hn : n.Proper) :
    Knows (ns ++ [n]) ⟨s.symbols.declare n.scope n.name n.type, s.cursor⟩ :=
  ⟨h.records.declare hn, h.named⟩

theorem knows_expr (h : Knows ns s) {scope : String} (hs : IsScope scope) :
    Ensures (fun e symbols => e.Resolved (Naming.type? ns scope) ∧ symbols.Records ns)
      (expr scope) s := by
  intro e t he
  obtain ⟨hlead, hresolved, hsymbols⟩ := resolves_expr s.symbols scope s.cursor e t he
  have hspelled := (keeps_expr s h.named).reads e t he
  refine ⟨hlead, hresolved.of_spelled (fun name hn => ?_) hspelled, hsymbols ▸ h.records⟩
  exact (h.records.lookup? hs hn).symm

theorem resolves_head (h : Knows ns s) :
    Ensures (fun r symbols => IsName r.2 ∧ symbols.Records ns) head s := by
  rw [head_eq]
  apply Ensures.token
  cases s.cursor.current.kind with
  | typeWord word =>
    apply Ensures.advance
    apply Ensures.token
    cases hk : s.cursor.advance.current.kind with
    | name name => exact .advance (.pure ⟨h.named.advance.name hk, h.records⟩)
    | _ => exact .missing _
  | _ => exact .missing _

theorem resolves_params {function : String} (hf : IsName function) (before : List Param)
    (h : Knows (ns ++ before.map (Param.naming function)) s) :
    Ensures (fun ps symbols => symbols.Records (ns ++ ps.map (Param.naming function)))
      (params function before) s := by
  -- Every parameter but the last is followed by a comma, which leaves fewer tokens behind it.
  induction hn : s.cursor.size using Nat.strongRecOn generalizing s before with
  | ind n ih =>
    subst hn
    rw [params_eq]
    apply Ensures.token
    cases hk : s.cursor.current.kind with
    | typeWord word =>
      have hless := Cursor.size_advance_lt (c := s.cursor) fun he => (by cases hk.symm.trans he)
      apply Ensures.advance
      apply Ensures.token
      cases hname : s.cursor.advance.current.kind with
      | name name =>
        simp only
        split
        · exact .refuse _
        · have hproper : Naming.Proper ⟨function, name, .ofWord word, false⟩ :=
            ⟨.inr hf, h.named.advance.name hname⟩
          have hnext := h.advance.advance.declare hproper
          let param : Param := ⟨.ofWord word, name⟩
          have hparams : ns ++ before.map (Param.naming function) ++ [param.naming function] =
              ns ++ (before ++ [param]).map (Param.naming function) := by simp
          rw [show Naming.mk function name (.ofWord word) false = param.naming function from rfl,
            hparams] at hnext
          apply Ensures.advance
          apply Ensures.declare
          apply Ensures.token
          simp only
          split
          · apply Ensures.advance
            refine ih _ ?_ _ hnext.advance rfl
            have h₂ := Cursor.size_advance_le s.cursor.advance
            have h₃ := Cursor.size_advance_le s.cursor.advance.advance
            exact Nat.lt_of_le_of_lt (Nat.le_trans h₃ h₂) hless
          · exact .pure hnext.records
      | _ => exact .missing _
    | _ => exact .missing _

theorem resolves_prototype (h : Knows ns s) (start : Span) (returns : Ty) {name : String}
    (hname : IsName name) :
    Ensures (fun p symbols => p.name = name ∧ symbols.Records (ns ++ p.namings))
      (prototype start returns name) s := by
  have hending : ∀ (ps : List Param) (t : Place), Knows (ns ++ ps.map (Param.naming name)) t →
      Ensures (fun (p : Prototype) symbols => p.name = name ∧ symbols.Records (ns ++ p.namings)) (do
        insist .closeParen .endOfParameters
        let t ← token
        declare "" name returns
        advance
        return ⟨returns, name, ps, start.through t.span⟩) t := by
    intro ps t ht
    refine .insist fun _ => ?_
    apply Ensures.token
    have hdeclared := ht.declare (n := ⟨"", name, returns, true⟩) ⟨.inl rfl, hname⟩
    refine .declare (.advance (.pure ⟨rfl, ?_⟩))
    rw [Prototype.namings, ← List.append_assoc]
    exact hdeclared.records
  have hstart : Knows (ns ++ [].map (Param.naming name)) s := by
    rw [List.map_nil, List.append_nil]
    exact h
  rw [prototype_eq]
  apply Ensures.token
  simp only
  split
  · exact hending [] s hstart
  · refine Ensures.bind (resolves_params hname [] hstart) fun ps t ht hps => ?_
    exact hending ps t (h.after ht hps)

theorem resolves_initializer (h : Knows ns s) (type : Ty) (name : String) :
    Ensures (fun _ symbols => symbols.Records ns) (initializer type name) s := by
  intro init t hinit
  have hlead := (keeps_initializer type name h.named).leads
  rw [hinit] at hlead
  exact ⟨hlead, symbols_initializer hinit ▸ h.records⟩

theorem resolves_variableRest (h : Knows ns s) {scope : String} (hs : IsScope scope) (start : Span)
    (type : Ty) {name : String} (hname : IsName name) :
    Ensures (fun d symbols => symbols.Records (ns ++ [⟨scope, name, type, false⟩]) ∧
      ((∃ span, d = .variableOf type name span) ∨ ∃ init span, d = .variableAs type name init span))
      (variableRest scope start type name) s := by
  have hproper : Naming.Proper ⟨scope, name, type, false⟩ := ⟨hs, hname⟩
  rw [variableRest_eq]
  apply Ensures.token
  cases s.cursor.current.kind with
  | semicolon => exact .declare (.pure ⟨(h.declare hproper).records, .inl ⟨_, rfl⟩⟩)
  | equals =>
    apply Ensures.advance
    apply Ensures.declare
    refine Ensures.bind (resolves_initializer (h.advance.declare hproper) type name) ?_
    intro init t _ ht
    refine .insist fun _ => ?_
    exact .token (.pure ⟨ht, .inr ⟨_, _, rfl⟩⟩)
  | _ => exact .missing _

theorem resolves_localVariable (h : Knows ns s) {scope : String} (hs : IsScope scope) :
    Ensures (fun d symbols => symbols.Records (ns ++ Stmt.namings scope (.declaration d)))
      (localVariable scope) s := by
  rw [localVariable_eq]
  apply Ensures.token
  refine Ensures.bind (resolves_head h) ?_
  rintro ⟨type, name⟩ t ht ⟨hname, hrecords⟩
  apply Ensures.token
  split
  · exact .throw _
  · rintro d u hd
    obtain ⟨hlead, hu, ⟨span, rfl⟩ | ⟨init, span, rfl⟩⟩ :=
      resolves_variableRest (h.after ht hrecords) hs _ type hname d u hd
    · exact ⟨hlead, hu⟩
    · exact ⟨hlead, hu⟩

theorem resolves_body {function : String} (hf : IsName function) (h : Knows ns s) :
    Ensures (fun r symbols => symbols.Records (ns ++ r.1.flatMap (Stmt.namings function)) ∧
      ResolvedBody function ns r.1 r.2) (body function) s := by
  -- Every statement is followed by a semicolon, which leaves fewer tokens behind it.
  induction hn : s.cursor.size using Nat.strongRecOn generalizing s ns with
  | ind n ih =>
    subst hn
    have hempty : ∀ {t : Place}, t.symbols.Records ns →
        t.symbols.Records (ns ++ [].flatMap (Stmt.namings function)) := by
      intro t ht
      rw [List.flatMap_nil, List.append_nil]
      exact ht
    have hexpression : Ensures (fun r symbols =>
        symbols.Records (ns ++ r.1.flatMap (Stmt.namings function)) ∧
          ResolvedBody function ns r.1 r.2) (bodyOfExpr function) s := by
      refine Ensures.bind (knows_expr h (.inr hf)) ?_
      rintro e t ht ⟨he, hrecords⟩
      refine .pass fun hsemicolon => ?_
      have hne : t.cursor.kind ≠ .eof := fun he => (by cases hsemicolon.symm.trans he)
      have hless := Nat.lt_of_lt_of_le (Cursor.size_advance_lt hne) ht.size_le
      refine Ensures.bind (ih _ hless (h.after ht hrecords).advance rfl) ?_
      rintro ⟨stmts, result⟩ u _ ⟨hrecords', hbody⟩
      exact .pure ⟨hrecords', he, hbody⟩
    rw [body_eq]
    apply Ensures.token
    cases s.cursor.current.kind with
    | closeBrace => exact .pure ⟨hempty h.records, fun _ h => (by cases h)⟩
    | returnWord =>
      apply Ensures.advance
      refine Ensures.bind (knows_expr h.advance (.inr hf)) ?_
      rintro e t _ ⟨he, hrecords⟩
      refine .pass fun _ => ?_
      refine .insist fun _ => ?_
      refine .pure ⟨hempty (t := t) hrecords, ?_⟩
      exact fun e' he' => Option.mem_some.mp he' ▸ he
    | eof => exact .missing _
    | typeWord word =>
      refine Ensures.bind (resolves_localVariable h (.inr hf)) fun decl t ht hrecords => ?_
      refine .pass fun hsemicolon => ?_
      have hne : t.cursor.kind ≠ .eof := fun he => (by cases hsemicolon.symm.trans he)
      have hless := Nat.lt_of_lt_of_le (Cursor.size_advance_lt hne) ht.size_le
      refine Ensures.bind (ih _ hless (h.after ht hrecords).advance rfl) ?_
      rintro ⟨stmts, result⟩ u _ ⟨hrecords', hbody⟩
      refine .pure ⟨?_, hbody⟩
      rw [List.flatMap_cons, ← List.append_assoc]
      exact hrecords'
    | _ => exact hexpression

theorem resolves_global (h : Knows ns s) :
    Ensures (fun d symbols => symbols.Records (ns ++ d.namings) ∧ d.Resolved ns) global s := by
  rw [global_eq]
  apply Ensures.token
  refine Ensures.bind (resolves_head h) ?_
  rintro ⟨type, name⟩ t ht ⟨hname, hrecords⟩
  have ht := h.after ht hrecords
  apply Ensures.token
  simp only
  split
  · apply Ensures.advance
    refine Ensures.bind (resolves_prototype ht.advance _ type hname) fun proto u hu hproto => ?_
    have hu := ht.advance.after hu hproto.2
    obtain ⟨rfl, _⟩ := hproto
    apply Ensures.token
    cases u.cursor.current.kind with
    | semicolon => exact .pure ⟨hu.records, trivial⟩
    | openBrace =>
      apply Ensures.advance
      refine Ensures.bind (resolves_body hname hu.advance) ?_
      rintro ⟨stmts, result⟩ v _ ⟨hrecords, hbody⟩
      refine .pure ⟨?_, hbody⟩
      rw [Declaration.namings, ← List.append_assoc]
      exact hrecords
    | _ => exact .missing _
  · rintro d u hd
    obtain ⟨hlead, hu, ⟨span, rfl⟩ | ⟨init, span, rfl⟩⟩ :=
      resolves_variableRest ht (.inl rfl) _ type hname d u hd
    · exact ⟨hlead, hu, trivial⟩
    · exact ⟨hlead, hu, trivial⟩

end Declarations

def KnownPiece (ns : List Naming) (symbols : SymbolTable) : Piece → Prop
  | .declaration d => symbols.Records (ns ++ d.namings) ∧ d.Resolved ns
  | .expression e => symbols.Records ns ∧ e.Resolved (Naming.type? ns "")
  | .ending | .skipped => symbols.Records ns

theorem resolves_form {ns : List Naming} {s : Place} (h : Knows ns s) :
    Ensures (fun piece symbols => KnownPiece ns symbols piece) form s := by
  have hexpression : Ensures (fun piece symbols => KnownPiece ns symbols piece) (do
      let e ← expr ""
      insist .semicolon .afterExpression
      return .expression e) s := by
    refine Ensures.bind (knows_expr h (.inl rfl)) ?_
    rintro e t _ ⟨he, hrecords⟩
    exact .insist fun _ => .pure ⟨hrecords, he⟩
  unfold form
  apply Ensures.token
  cases s.cursor.current.kind with
  | eof => exact .pure h.records
  | includeWord =>
    have hskip : Ensures (fun _ symbols => symbols.Records ns) skip s := by
      rintro ⟨⟩ t ht
      have hlead := (steady_skip s).leads
      rw [ht] at hlead
      cases ht
      exact ⟨hlead, h.records⟩
    exact Ensures.bind hskip fun _ _ _ hrecords => .pure hrecords
  | typeWord word => exact Ensures.bind (resolves_global h) fun d _ _ hd => .pure hd
  | _ => exact hexpression

end Reader

namespace Parser

variable {p : Parser} {ns : List Naming}

structure Knows (p : Parser) (ns : List Naming) : Prop where
  errors : p.errors = []
  records : p.symbols.Records ns
  named : p.cursor.Spelled IsName

theorem Knows.begin (h : p.Knows ns) : Reader.Knows ns p.begin :=
  ⟨h.records.of_entries rfl, h.named.advance⟩

/-- What is read next is resolved by the names that are known, and only a declaration brings
more. -/
theorem Knows.reading (h : p.Knows ns) :
    (∀ d, p.reading = .declaration d →
      p.afterwards.symbols.Records (ns ++ d.namings) ∧ d.Resolved ns) ∧
    ∀ a, p.reading = .expression a → a.expr.Resolved (Naming.type? ns "") := by
  have hnext := reading_afterwards h.errors
  have hform := Reader.resolves_form h.begin
  cases hf : Reader.form p.begin with
  | error e t =>
    rw [hf] at hnext
    rw [(Prod.mk.inj hnext).1]
    exact ⟨fun d hd => (by cases hd), fun a ha => (by cases ha)⟩
  | ok piece t =>
    rw [hf] at hnext
    obtain ⟨hreading, hafter⟩ := Prod.mk.inj hnext
    obtain ⟨_, hpiece⟩ := hform piece t hf
    rw [hreading, hafter]
    cases piece with
    | ending => exact ⟨fun d hd => (by cases hd), fun a ha => (by cases ha)⟩
    | skipped => exact ⟨fun d hd => (by cases hd), fun a ha => (by cases ha)⟩
    | declaration d =>
      refine ⟨fun d' hd => ?_, fun a ha => (by cases ha)⟩
      cases hd
      exact hpiece
    | expression e =>
      refine ⟨fun d hd => (by cases hd), fun a ha => ?_⟩
      cases ha
      exact hpiece.2

end Parser

end FormCompiler
