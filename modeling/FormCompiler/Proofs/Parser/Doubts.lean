import FormCompiler.Proofs.Lowering.Abreast
import FormCompiler.Proofs.Parser.Resolved

/-!
Reading from two texts whose tokens are of the same kinds, by tables that differ in some names. As
long as none of these names is looked up, the same is read, but for where it stands.
-/

namespace FormCompiler

structure Doubt where
  scope : String
  name : String
  type? : Option Ty

def Doubt.key (d : Doubt) : String × String := (d.scope, d.name)

abbrev Doubts := List Doubt

namespace Doubts

def keys (doubts : Doubts) : List (String × String) := doubts.map Doubt.key

def without (doubts : Doubts) (scope name : String) : Doubts :=
  doubts.filter (·.key ≠ (scope, name))

/-- In the body of `function` the name has the same type by both tables, even if it is in doubt.
Here `t` is the first table before the function, whose own name is not yet in it. -/
def harmless (doubts : Doubts) (t : SymbolTable) (function name : String) : Bool :=
  name ≠ function ∧ ∀ d ∈ doubts, d.key = (function, name) →
    d.type?.or (t.entries.get? name) = t.lookup? function name

/-- What is left in doubt when tokens of these kinds have been read in a scope. A name after a type
word is declared anew; any other name is looked up there, and must not do harm. -/
def settle? (scope : String) (harmless : String → Bool) : Bool → Doubts → List Kind → Option Doubts
  | _, doubts, [] => some doubts
  | _, doubts, .typeWord _ :: kinds => settle? scope harmless true doubts kinds
  | true, doubts, .name name :: kinds =>
    settle? scope harmless false (doubts.without scope name) kinds
  | false, doubts, .name name :: kinds =>
    if (scope, name) ∈ doubts.keys ∧ ¬ harmless name then none
    else settle? scope harmless false doubts kinds
  | _, doubts, _ :: kinds => settle? scope harmless false doubts kinds

def afterForm? (doubts : Doubts) (t : SymbolTable) : List Kind → Option Doubts
  | .typeWord _ :: .name function :: .openParen :: kinds =>
    settle? function (doubts.harmless t function) false doubts kinds
  | _ => some doubts

variable {scope : String} {harmless : String → Bool} {doubts last : Doubts} {kinds : List Kind}
  {t : SymbolTable}

theorem mem_keys_without {key : String × String} {name : String} :
    key ∈ (doubts.without scope name).keys ↔ key ∈ doubts.keys ∧ key ≠ (scope, name) := by
  simp only [keys, without, List.mem_map, List.mem_filter, decide_eq_true_eq]
  constructor
  · rintro ⟨d, ⟨hd, hne⟩, rfl⟩
    exact ⟨⟨d, hd, rfl⟩, hne⟩
  · rintro ⟨⟨d, hd, rfl⟩, hne⟩
    exact ⟨d, ⟨hd, hne⟩, rfl⟩

theorem settle?_typeWord (word : TypeWord) (name : String) :
    settle? scope harmless false doubts (.typeWord word :: .name name :: kinds) =
      settle? scope harmless false (doubts.without scope name) kinds := rfl

theorem settle?_name {name : String}
    (h : settle? scope harmless false doubts (.name name :: kinds) = some last) :
    ((scope, name) ∈ doubts.keys → harmless name = true) ∧
      settle? scope harmless false doubts kinds = some last := by
  rw [settle?] at h
  split at h
  · cases h
  next hname => exact ⟨fun hmem => by_contra fun hne => hname ⟨hmem, hne⟩, h⟩

theorem settle?_cons {kind : Kind} (hkind : ∀ word, kind ≠ .typeWord word)
    (h : settle? scope harmless false doubts (kind :: kinds) = some last) :
    settle? scope harmless false doubts kinds = some last := by
  cases kind with
  | typeWord word => exact absurd rfl (hkind word)
  | name name => exact (settle?_name h).2
  | _ => exact h

theorem settle?_clear (hdoubts : ∀ name, (scope, name) ∉ doubts.keys) (afterType : Bool) :
    settle? scope harmless afterType doubts kinds = some doubts := by
  induction kinds generalizing afterType with
  | nil => cases afterType <;> rfl
  | cons kind kinds ih =>
    have hwithout : ∀ name, doubts.without scope name = doubts := by
      intro name
      refine List.filter_eq_self.mpr fun d hd => decide_eq_true ?_
      intro he
      exact hdoubts name (he ▸ List.mem_map_of_mem hd)
    cases kind with
    | name name =>
      cases afterType with
      | true =>
        rw [settle?, hwithout]
        exact ih false
      | false =>
        rw [settle?, if_neg fun hmem => hdoubts name hmem.1]
        exact ih false
    | typeWord word => cases afterType <;> exact ih true
    | _ => cases afterType <;> exact ih false

theorem settle?_eof (afterType : Bool) : settle? scope harmless afterType doubts (kinds ++ [.eof]) =
    settle? scope harmless afterType doubts kinds := by
  fun_induction settle? scope harmless afterType doubts kinds with
  | case1 afterType doubts => cases afterType <;> rfl
  | case2 afterType doubts word kinds ih => cases afterType <;> exact ih
  | case3 doubts name kinds ih => exact ih
  | case4 doubts name kinds hname => exact if_pos hname
  | case5 doubts name kinds hname ih => exact (if_neg hname).trans ih
  | case6 afterType doubts kind kinds _ _ _ ih =>
    rw [← ih, List.cons_append]
    cases kind with
    | typeWord word => simp at *
    | name name => cases afterType <;> simp at *
    | _ => cases afterType <;> rfl

theorem afterForm?_eof : afterForm? doubts t (kinds ++ [.eof]) = afterForm? doubts t kinds := by
  unfold afterForm?
  split
  next word function rest he =>
    obtain ⟨rest, rfl, rfl⟩ : ∃ kinds', rest = kinds' ++ [Kind.eof] ∧
        kinds = .typeWord word :: .name function :: .openParen :: kinds' := by
      rcases kinds with _ | ⟨k₁, _ | ⟨k₂, _ | ⟨k₃, kinds⟩⟩⟩
      all_goals simp at he
      obtain ⟨rfl, rfl, rfl, rfl⟩ := he
      exact ⟨kinds, rfl, rfl⟩
    exact settle?_eof false
  next hne =>
    split
    next word function rest =>
      exact absurd rfl (hne word function (rest ++ [.eof]))
    next => rfl

end Doubts

namespace SymbolTable

variable {t t' : SymbolTable} {scope scope' name name' : String}

theorem declare_get?_of_ne (hs : IsScope scope) (hs' : IsScope scope') (hn : IsName name)
    (hn' : IsName name') (hne : (scope', name') ≠ (scope, name)) (type : Ty) :
    (t.declare scope name type).entries.get? (scopedName scope' name') =
      t.entries.get? (scopedName scope' name') := by
  change (t.entries.insert _ _).get? _ = _
  rw [Table.get?_insert, if_neg]
  intro he
  obtain ⟨rfl, rfl⟩ := scopedName_inj hs hs' hn hn' he
  exact hne rfl

theorem lookup?_declare_of_ne (hs : IsScope scope) (hs' : IsScope scope') (hn : IsName name)
    (hn' : IsName name') (hne : name' ≠ name) (type : Ty) :
    (t.declare scope name type).lookup? scope' name' = t.lookup? scope' name' := by
  have hnames : ∀ scope'', (scope'', name') ≠ (scope, name) := fun _ he =>
    hne (Prod.mk.inj he).2
  have hscoped := declare_get?_of_ne (t := t) hs hs' hn hn' (hnames scope') type
  have hglobal := declare_get?_of_ne (t := t) hs (.inl rfl) hn hn' (hnames "") type
  change (t.declare scope name type).entries.get? name' = t.entries.get? name' at hglobal
  unfold lookup?
  rw [hscoped, hglobal]

structure AgreeBut (doubts : Doubts) (t t' : SymbolTable) : Prop where
  types : ∀ scope name, IsScope scope → IsName name → (scope, name) ∉ doubts.keys →
    t'.entries.get? (scopedName scope name) = t.entries.get? (scopedName scope name)
  doubted : ∀ d ∈ doubts, t'.entries.get? (scopedName d.scope d.name) = d.type?
  proper : ∀ d ∈ doubts, IsName d.scope ∧ IsName d.name

namespace AgreeBut

variable {doubts : Doubts}

theorem refl (t : SymbolTable) : t.AgreeBut [] t :=
  ⟨fun _ _ _ _ _ => rfl, nofun, nofun⟩

theorem isName (h : t.AgreeBut doubts t') (hdoubt : (scope, name) ∈ doubts.keys) :
    IsName scope ∧ IsName name := by
  obtain ⟨d, hd, he⟩ := List.mem_map.mp hdoubt
  obtain ⟨rfl, rfl⟩ := Prod.mk.inj he
  exact h.proper d hd

theorem global (h : t.AgreeBut doubts t') (name : String) : ("", name) ∉ doubts.keys :=
  fun hdoubt => (h.isName hdoubt).1.ne_empty rfl

theorem global_get? (h : t.AgreeBut doubts t') (hn : IsName name) :
    t'.entries.get? name = t.entries.get? name := h.types "" name (.inl rfl) hn (h.global name)

theorem lookup? (h : t.AgreeBut doubts t') (hs : IsScope scope) (hn : IsName name)
    (hdoubt : (scope, name) ∉ doubts.keys) : t'.lookup? scope name = t.lookup? scope name := by
  unfold SymbolTable.lookup?
  rw [h.global_get? hn, h.types scope name hs hn hdoubt]

theorem lookup?_harmless (h : t.AgreeBut doubts t') {function : String}
    (hdoubt : (function, name) ∈ doubts.keys) (hharmless : doubts.harmless t function name = true) :
    name ≠ function ∧ t'.lookup? function name = t.lookup? function name := by
  obtain ⟨hne, hall⟩ := of_decide_eq_true hharmless
  obtain ⟨d, hd, hkey⟩ := List.mem_map.mp hdoubt
  obtain ⟨hfunction, hname⟩ := h.proper d hd
  obtain ⟨rfl, rfl⟩ := Prod.mk.inj hkey
  refine ⟨hne, Eq.trans ?_ (hall d hd rfl)⟩
  rw [SymbolTable.lookup?, if_neg hfunction.ne_empty, h.doubted d hd, h.global_get? hname]

theorem declare (h : t.AgreeBut doubts t') (hs : IsScope scope) (hn : IsName name) (type : Ty) :
    (t.declare scope name type).AgreeBut (doubts.without scope name)
      (t'.declare scope name type) where
  types := by
    intro scope' name' hs' hn' hdoubt
    by_cases he : (scope', name') = (scope, name)
    · cases he
      change (t'.entries.insert _ _).get? _ = (t.entries.insert _ _).get? _
      rw [Table.get?_insert, Table.get?_insert, if_pos rfl, if_pos rfl]
    · have hdoubt' : (scope', name') ∉ doubts.keys := fun hmem =>
        hdoubt (Doubts.mem_keys_without.mpr ⟨hmem, he⟩)
      rw [declare_get?_of_ne hs hs' hn hn' he, declare_get?_of_ne hs hs' hn hn' he,
        h.types scope' name' hs' hn' hdoubt']
  doubted := by
    intro d hd
    obtain ⟨hd, hne⟩ := List.mem_filter.mp hd
    obtain ⟨hscope, hname⟩ := h.proper d hd
    rw [declare_get?_of_ne hs (.inr hscope) hn hname (of_decide_eq_true hne), h.doubted d hd]
  proper := fun d hd => h.proper d (List.mem_filter.mp hd).1

theorem declare_global (h : t.AgreeBut doubts t') (hn : IsName name) (type : Ty) :
    (t.declare "" name type).AgreeBut doubts (t'.declare "" name type) := by
  have hwithout : doubts.without "" name = doubts :=
    List.filter_eq_self.mpr fun d hd => decide_eq_true fun he =>
      (h.proper d hd).1.ne_empty (Prod.mk.inj he).1
  exact hwithout ▸ h.declare (.inl rfl) hn type

theorem of_entries {u u' : SymbolTable} (h : t.AgreeBut doubts t') (hu : u.entries = t.entries)
    (hu' : u'.entries = t'.entries) : u.AgreeBut doubts u' where
  types := fun scope name hs hn hdoubt => by rw [hu, hu', h.types scope name hs hn hdoubt]
  doubted := fun d hd => hu' ▸ h.doubted d hd
  proper := h.proper

end AgreeBut

end SymbolTable

namespace Cursor

def kinds (c : Cursor) : List Kind := (c.current :: c.stream.pending).map Token.kind

variable {c d : Cursor}

theorem kinds_eq (c : Cursor) : c.kinds = c.current.kind :: c.stream.pending.map Token.kind := rfl

theorem kinds_advance (c : Cursor) :
    c.advance.kinds = if c.kinds.tail = [] then [.eof] else c.kinds.tail := by
  unfold kinds advance TokenStream.next
  cases hp : c.stream.pending with
  | nil => simp [hp]
  | cons t ts => simp

theorem kinds_of_advance (h : c.advance.current.kind ≠ .eof) :
    c.kinds = c.current.kind :: c.advance.kinds := by
  have hnext := c.kinds_advance
  split at hnext
  next => exact absurd (List.cons.inj hnext).1 h
  next =>
    rw [hnext]
    rfl

theorem kind_of_kinds (h : d.kinds = c.kinds) : d.current.kind = c.current.kind :=
  (List.cons.inj h).1

theorem advance_of_kinds (h : d.kinds = c.kinds) : d.advance.kinds = c.advance.kinds := by
  rw [kinds_advance, kinds_advance, h]

theorem skipForm_of_kinds (h : d.kinds = c.kinds) : d.skipForm.kinds = c.skipForm.kinds := by
  induction hn : c.size using Nat.strongRecOn generalizing c d with
  | ind n ih =>
    subst hn
    rw [skipForm.eq_def d, skipForm.eq_def c, show d.kind = c.kind from kind_of_kinds h]
    split
    · exact h
    next hk =>
      have hne : c.kind ≠ .eof := by
        intro he
        rw [he] at hk
        exact hk rfl
      exact ih _ (size_advance_lt hne) (advance_of_kinds h) rfl

theorem kinds_extend (c : Cursor) (more : List Token) :
    (c.extend more).kinds = c.kinds ++ more.map Token.kind := by
  unfold kinds extend
  rw [← List.cons_append, List.map_append]

theorem length_of_kinds (h : d.kinds = c.kinds) :
    d.stream.pending.length = c.stream.pending.length := by
  have := congrArg List.length h
  simpa [kinds] using this

end Cursor

namespace Reader

variable {α β : Type}

structure Abreast (scope : String) (harmless : String → Bool) (last doubts : Doubts)
    (s s' : Place) : Prop where
  kinds : s'.cursor.kinds = s.cursor.kinds
  named : s.cursor.Spelled IsName
  tables : s.symbols.AgreeBut doubts s'.symbols
  isScope : IsScope scope
  agrees : ∀ name, (scope, name) ∈ doubts.keys → harmless name = true →
    name ≠ scope ∧ s'.symbols.lookup? scope name = s.symbols.lookup? scope name
  settles : Doubts.settle? scope harmless false doubts s.cursor.kinds = some last

namespace Abreast

variable {scope : String} {harmless : String → Bool} {last doubts : Doubts} {s s' : Place}

theorem kind (h : Abreast scope harmless last doubts s s') :
    s'.cursor.current.kind = s.cursor.current.kind := Cursor.kind_of_kinds h.kinds

theorem settle?_advance {doubts' : Doubts} {c : Cursor}
    (h : Doubts.settle? scope harmless false doubts' c.kinds.tail = some last) :
    Doubts.settle? scope harmless false doubts' c.advance.kinds = some last := by
  rw [Cursor.kinds_advance]
  split
  next hnil =>
    rw [hnil] at h
    exact h
  next => exact h

theorem advance (h : Abreast scope harmless last doubts s s') {kind : Kind}
    (hk : s.cursor.current.kind = kind) (hplain : ∀ word, kind ≠ .typeWord word) :
    Abreast scope harmless last doubts ⟨s.symbols, s.cursor.advance⟩
      ⟨s'.symbols, s'.cursor.advance⟩ where
  kinds := Cursor.advance_of_kinds h.kinds
  named := h.named.advance
  tables := h.tables
  isScope := h.isScope
  agrees := h.agrees
  settles := settle?_advance
    (Doubts.settle?_cons (fun word => hk.trans_ne (hplain word)) h.settles)

theorem lookup? (h : Abreast scope harmless last doubts s s') {name : String}
    (hk : s.cursor.current.kind = .name name) :
    s'.symbols.lookup? scope name = s.symbols.lookup? scope name := by
  have hsettles := h.settles
  rw [Cursor.kinds_eq, hk] at hsettles
  by_cases hdoubt : (scope, name) ∈ doubts.keys
  · exact (h.agrees name hdoubt ((Doubts.settle?_name hsettles).1 hdoubt)).2
  · exact h.tables.lookup? h.isScope (h.named.name hk) hdoubt

theorem declare (h : Abreast scope harmless last doubts s s') {word : TypeWord} {name : String}
    (hword : s.cursor.current.kind = .typeWord word)
    (hname : s.cursor.advance.current.kind = .name name) (type : Ty) :
    Abreast scope harmless last (doubts.without scope name)
      ⟨s.symbols.declare scope name type, s.cursor.advance.advance⟩
      ⟨s'.symbols.declare scope name type, s'.cursor.advance.advance⟩ where
  kinds := Cursor.advance_of_kinds (Cursor.advance_of_kinds h.kinds)
  named := h.named.advance.advance
  tables := h.tables.declare h.isScope (h.named.advance.name hname) type
  isScope := h.isScope
  agrees := by
    intro name' hdoubt hharmless
    obtain ⟨hdoubt, hne⟩ := Doubts.mem_keys_without.mp hdoubt
    obtain ⟨hscope, hlookup⟩ := h.agrees name' hdoubt hharmless
    have hother : name' ≠ name := fun he => hne (he ▸ rfl)
    have hproper := (h.tables.isName hdoubt).2
    have hname := h.named.advance.name hname
    refine ⟨hscope, ?_⟩
    rw [SymbolTable.lookup?_declare_of_ne h.isScope h.isScope hname hproper hother,
      SymbolTable.lookup?_declare_of_ne h.isScope h.isScope hname hproper hother, hlookup]
  settles := by
    have hsettles := h.settles
    have hne : s.cursor.advance.current.kind ≠ .eof := hname.trans_ne nofun
    rw [Cursor.kinds_of_advance hne, hword, Cursor.kinds_eq, hname, Doubts.settle?_typeWord]
      at hsettles
    exact settle?_advance hsettles

theorem declare_scope (h : Abreast scope harmless last doubts s s') (hscope : IsName scope)
    (type : Ty) : Abreast scope harmless last doubts ⟨s.symbols.declare "" scope type, s.cursor⟩
      ⟨s'.symbols.declare "" scope type, s'.cursor⟩ where
  kinds := h.kinds
  named := h.named
  tables := h.tables.declare_global hscope type
  isScope := h.isScope
  agrees := by
    intro name hdoubt hharmless
    obtain ⟨hne, hlookup⟩ := h.agrees name hdoubt hharmless
    have hproper := (h.tables.isName hdoubt).2
    refine ⟨hne, ?_⟩
    rw [SymbolTable.lookup?_declare_of_ne (.inl rfl) h.isScope hscope hproper hne,
      SymbolTable.lookup?_declare_of_ne (.inl rfl) h.isScope hscope hproper hne, hlookup]
  settles := h.settles

end Abreast

inductive Joint (Q : α → α → Place → Place → Prop) :
    EStateM.Result ParseError Place α → EStateM.Result ParseError Place α → Prop
  | ok {a a' : α} {t t' : Place} : Q a a' t t' → Joint Q (.ok a t) (.ok a' t')
  | error {e e' : ParseError} {t t' : Place} : t'.cursor.kinds = t.cursor.kinds →
      Joint Q (.error e t) (.error e' t')

def Together (Q : α → α → Place → Place → Prop) (m m' : Reader α) (s s' : Place) : Prop :=
  Joint (fun a a' t t' => s.cursor.Leads t.cursor ∧ Q a a' t t') (m s) (m' s')

namespace Together

variable {P : α → α → Place → Place → Prop} {Q : β → β → Place → Place → Prop} {m m' : Reader α}
  {k k' : α → Reader β} {s s' : Place}

theorem pure {a a' : α} (h : P a a' s s') : Together P (Pure.pure a) (Pure.pure a') s s' :=
  .ok ⟨.refl, h⟩

theorem throw (h : s'.cursor.kinds = s.cursor.kinds) (e e' : ParseError) :
    Together P (MonadExcept.throw e : Reader α) (MonadExcept.throw e' : Reader α) s s' := .error h

theorem mono {P' : α → α → Place → Place → Prop} (hm : Together P m m' s s')
    (h : ∀ a a' t t', P a a' t t' → P' a a' t t') : Together P' m m' s s' := by
  unfold Together at hm ⊢
  generalize m s = r, m' s' = r' at hm
  cases hm with
  | error hkinds => exact .error hkinds
  | ok ha => exact .ok ⟨ha.1, h _ _ _ _ ha.2⟩

theorem bind (hm : Together P m m' s s')
    (hk : ∀ a a' t t', s.cursor.Leads t.cursor → P a a' t t' → Together Q (k a) (k' a') t t') :
    Together Q (m >>= k) (m' >>= k') s s' := by
  unfold Together at hm ⊢
  simp only [Bind.bind, EStateM.bind]
  generalize m s = r, m' s' = r' at hm
  cases hm with
  | error hkinds => exact .error hkinds
  | @ok a a' t t' ha =>
    have hnext := hk a a' t t' ha.1 ha.2
    unfold Together at hnext
    simp only
    generalize k a t = r, k' a' t' = r' at hnext
    cases hnext with
    | error hkinds => exact .error hkinds
    | ok hb => exact .ok ⟨ha.1.trans hb.1, hb.2⟩

theorem token {k k' : Token → Reader β}
    (hk : Together Q (k s.cursor.current) (k' s'.cursor.current) s s') :
    Together Q (token >>= k) (token >>= k') s s' := hk

theorem type? {scope name : String} {k k' : Option Ty → Reader β}
    (hk : Together Q (k (s.symbols.lookup? scope name)) (k' (s'.symbols.lookup? scope name)) s s') :
    Together Q (type? scope name >>= k) (type? scope name >>= k') s s' := hk

theorem advance {k k' : Unit → Reader β}
    (hk : Together Q (k ()) (k' ()) ⟨s.symbols, s.cursor.advance⟩ ⟨s'.symbols, s'.cursor.advance⟩) :
    Together Q (advance >>= k) (advance >>= k') s s' := by
  unfold Together at hk
  change Joint _ (k () ⟨s.symbols, s.cursor.advance⟩) (k' () ⟨s'.symbols, s'.cursor.advance⟩)
  generalize k () ⟨s.symbols, s.cursor.advance⟩ = r,
    k' () ⟨s'.symbols, s'.cursor.advance⟩ = r' at hk
  cases hk with
  | error hkinds => exact .error hkinds
  | ok hb => exact .ok ⟨hb.1.after, hb.2⟩

theorem declare {scope name : String} {type : Ty} {k k' : Unit → Reader β}
    (hk : Together Q (k ()) (k' ()) ⟨s.symbols.declare scope name type, s.cursor⟩
      ⟨s'.symbols.declare scope name type, s'.cursor⟩) :
    Together Q (declare scope name type >>= k) (declare scope name type >>= k') s s' := hk

theorem refuse (h : s'.cursor.kinds = s.cursor.kinds) (cause cause' : ParseError.Cause) :
    Together P (refuse cause : Reader α) (refuse cause') s s' := .error h

theorem missing (h : s'.cursor.kinds = s.cursor.kinds) (what : Expected) :
    Together P (missing what : Reader α) (missing what) s s' := .error h

theorem insist {kind : Kind} {what : Expected} {k k' : Unit → Reader β}
    (h : s'.cursor.kinds = s.cursor.kinds)
    (hk : s.cursor.current.kind = kind → Together Q (k ()) (k' ()) s s') :
    Together Q (insist kind what >>= k) (insist kind what >>= k') s s' := by
  rw [insist_bind, insist_bind]
  apply token
  rw [Cursor.kind_of_kinds h]
  split
  next he => exact hk he
  next => exact missing h what

theorem pass {kind : Kind} {what : Expected} {k k' : Unit → Reader β}
    (h : s'.cursor.kinds = s.cursor.kinds)
    (hk : s.cursor.current.kind = kind → Together Q (k ()) (k' ())
      ⟨s.symbols, s.cursor.advance⟩ ⟨s'.symbols, s'.cursor.advance⟩) :
    Together Q (pass kind what >>= k) (pass kind what >>= k') s s' := by
  unfold Reader.pass
  rw [bind_assoc, bind_assoc]
  exact insist h fun he => advance (hk he)

end Together

end Reader

end FormCompiler
