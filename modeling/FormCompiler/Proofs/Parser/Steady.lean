import FormCompiler.Proofs.Parser.DeclarationReader
import FormCompiler.Proofs.Token.Agree

/-!
What every reader keeps to. It takes tokens in hand one after another and none after the end, what
it declares can be undone, it looks at no token that it has not taken, and the names in what it
reads stand among the tokens.
-/

namespace FormCompiler

namespace SymbolTable

theorem set_insert {t : Table Ty} {key : String} {type : Ty} :
    (t.insert key type).set key (t.get? key) = t := by
  have hrestored : ∀ es : List (String × Ty),
      (match Entries.find? key es with
        | some old => Entries.insert key old (Entries.insert key type es)
        | none => Entries.erase key (Entries.insert key type es)) = es := by
    intro es
    induction es with
    | nil => simp [Entries.find?, Entries.insert, Entries.erase]
    | cons e es ih =>
      obtain ⟨k, v⟩ := e
      by_cases h : k = key
      · subst h
        simp [Entries.find?, Entries.insert]
      · simp only [Entries.find?, Entries.insert, h, if_false]
        revert ih
        cases Entries.find? key es with
        | none => intro ih; simp only at ih; simp [Entries.erase, h, ih]
        | some old => intro ih; simp only at ih; simp [ih]
  apply Table.ext
  have h := hrestored t.entries
  unfold Table.set Table.get?
  revert h
  cases Entries.find? key t.entries with
  | none => exact id
  | some old => exact id

theorem rollback_declare (t : SymbolTable) (scope name : String) (type : Ty) :
    (t.declare scope name type).rollback = t.rollback := by
  simp only [rollback, declare, List.foldl_cons, set_insert]

end SymbolTable

namespace Cursor

variable {c d e : Cursor}

inductive Leads (c : Cursor) : Cursor → Prop
  | refl : Leads c c
  | advance {d : Cursor} : Leads c d → Leads c d.advance

theorem Leads.trans (hd : c.Leads d) (he : d.Leads e) : c.Leads e := by
  induction he with
  | refl => exact hd
  | advance _ ih => exact ih.advance

theorem Leads.after (h : c.advance.Leads d) : c.Leads d := Leads.trans (.advance .refl) h

theorem Walks.leads (h : c.Walks d) : c.Leads d := by
  induction h with
  | refl => exact .refl
  | advance _ _ ih => exact ih.advance

theorem pending_advance (c : Cursor) : c.advance.stream.pending = c.stream.pending.tail := by
  unfold advance TokenStream.next
  cases hp : c.stream.pending with
  | nil => exact hp
  | cons t ts => rfl

theorem pending_of_advance (h : c.advance.kind ≠ .eof) :
    c.stream.pending = c.advance.current :: c.advance.stream.pending := by
  obtain ⟨current, pending, ending, closing, audible⟩ := c
  cases pending with
  | nil => exact absurd rfl h
  | cons t ts => rfl

theorem Leads.suffix (h : c.Leads d) : d.stream.pending <:+ c.stream.pending := by
  induction h with
  | refl => exact List.suffix_refl _
  | advance _ ih =>
    rw [pending_advance]
    exact (List.tail_suffix _).trans ih

theorem Leads.stream (h : c.Leads d) :
    d.stream = { c.stream with pending := d.stream.pending } := by
  induction h with
  | refl => rfl
  | @advance d _ ih =>
    rw [pending_advance]
    unfold Cursor.advance TokenStream.next
    cases hp : d.stream.pending with
    | nil =>
      rw [hp] at ih
      exact ih
    | cons t ts =>
      simp only [List.tail_cons]
      rw [ih]

theorem size_advance_le (c : Cursor) : c.advance.size ≤ c.size := by
  by_cases h : c.kind = .eof
  · simp only [size, pending_advance, List.length_tail, h, if_true]
    cases hp : c.stream.pending with
    | nil => simp [kind, advance, TokenStream.next, hp]
    | cons t ts => split <;> simp
  · exact Nat.le_of_lt (size_advance_lt h)

theorem Leads.size_le (h : c.Leads d) : d.size ≤ c.size := by
  induction h with
  | refl => exact Nat.le_refl _
  | advance _ ih => exact Nat.le_trans (size_advance_le _) ih

def Spelled (W : String → Prop) (c : Cursor) : Prop :=
  ∀ t ∈ c.current :: c.stream.pending, ∀ name, t.kind = .name name → W name

theorem Spelled.advance {W : String → Prop} (h : c.Spelled W) : c.advance.Spelled W := by
  intro t ht name hname
  unfold Cursor.advance TokenStream.next at ht
  cases hp : c.stream.pending with
  | nil =>
    simp only [hp, List.mem_cons, List.not_mem_nil, or_false] at ht
    subst ht
    cases hname
  | cons u us =>
    simp only [hp] at ht
    apply h t _ name hname
    rw [hp]
    exact List.mem_cons_of_mem _ ht

theorem Leads.spelled {W : String → Prop} (h : c.Leads d) (hc : c.Spelled W) : d.Spelled W := by
  induction h with
  | refl => exact hc
  | advance _ ih => exact ih.advance

theorem Spelled.name {W : String → Prop} (h : c.Spelled W) {name : String}
    (hname : c.current.kind = .name name) : W name := h _ List.mem_cons_self name hname

def extend (c : Cursor) (more : List Token) : Cursor :=
  ⟨c.current, { c.stream with pending := c.stream.pending ++ more }⟩

theorem advance_extend {more : List Token} (hmore : more ≠ [])
    (h : more <:+ (c.extend more).advance.stream.pending) (more' : List Token) :
    (c.extend more').advance = c.advance.extend more' := by
  obtain ⟨current, pending, ending, closing, audible⟩ := c
  cases pending with
  | cons t ts => rfl
  | nil =>
    rw [pending_advance] at h
    have hlength := h.length_le
    simp only [extend, List.nil_append, List.length_tail] at hlength
    have := List.length_pos_iff.mpr hmore
    omega

end Cursor

inductive Expr.Spelled (W : String → Prop) : Expr → Prop
  | int {value : Int64} {span : Span} : Spelled W (.int value span)
  | float {value : Float} {span : Span} : Spelled W (.float value span)
  | var {name : String} {type : Ty} {span : Span} : W name → Spelled W (.var name type span)
  | binary {op : BinaryOp} {lhs rhs : Expr} {span : Span} : Spelled W lhs → Spelled W rhs →
      Spelled W (.binary op lhs rhs span)
  | call {callee : String} {args : List Expr} {type : Ty} {span : Span} : W callee →
      (∀ arg ∈ args, Spelled W arg) → Spelled W (.call callee args type span)
  | cond {condition whenTrue whenFalse : Expr} {span : Span} : Spelled W condition →
      Spelled W whenTrue → Spelled W whenFalse →
      Spelled W (.cond condition whenTrue whenFalse span)
  | endOfInput : Spelled W .endOfInput

theorem Expr.Spelled.join {W : String → Prop} {lhs rhs : Expr} (hl : lhs.Spelled W)
    (hr : rhs.Spelled W) (op : BinaryOp) : (Expr.join op lhs rhs).Spelled W := by
  refine .binary ?_ hr
  unfold promote
  split
  · split
    · exact .float
    · exact .int
  · exact hl

def Stmt.Spelled (W : String → Prop) : Stmt → Prop
  | .declaration _ => True
  | .expression e => e.Spelled W

inductive Declaration.Spelled (W : String → Prop) : Declaration → Prop
  | prototype {proto : Prototype} : W proto.name → Spelled W (.prototype proto)
  | function {proto : Prototype} {body : List Stmt} {result : Option Expr} : W proto.name →
      (∀ st ∈ body, st.Spelled W) → (∀ e ∈ result, e.Spelled W) →
      Spelled W (.function proto body result)
  | variableOf {type : Ty} {name : String} {span : Span} : W name →
      Spelled W (.variableOf type name span)
  | variableAs {type : Ty} {name : String} {init : Initializer} {span : Span} : W name →
      Spelled W (.variableAs type name init span)

def Place.extend (s : Place) (more : List Token) : Place := ⟨s.symbols, s.cursor.extend more⟩

structure Place.Meets (s s' : Place) : Prop where
  symbols : s.symbols = s'.symbols
  cursor : s.cursor.Meets s'.cursor

namespace Reader

variable {α β : Type}

def place : EStateM.Result ParseError Place α → Place
  | .ok _ s | .error _ s => s

def extend (r : EStateM.Result ParseError Place α) (more : List Token) :
    EStateM.Result ParseError Place α :=
  match r with
  | .ok a s => .ok a (s.extend more)
  | .error e s => .error e (s.extend more)

inductive Meets : EStateM.Result ParseError Place α → EStateM.Result ParseError Place α → Prop
  | ok {a : α} {t t' : Place} : t.Meets t' → Meets (.ok a t) (.ok a t')
  | error {e : ParseError} {t t' : Place} : t.Meets t' → Meets (.error e t) (.error e t')

theorem Meets.bind {m : Reader α} {k : α → Reader β} {s s' : Place} (h : Meets (m s) (m s'))
    (hk : ∀ a t t', m s = .ok a t → t.Meets t' → Meets (k a t) (k a t')) :
    Meets ((m >>= k) s) ((m >>= k) s') := by
  generalize hr : m s = r, hr' : m s' = r' at h
  cases h with
  | error ht =>
    rw [error_bind hr, error_bind hr']
    exact .error ht
  | ok ht =>
    rw [ok_bind hr, ok_bind hr']
    exact hk _ _ _ hr ht

structure Steady (P : α → Prop) (m : Reader α) (s : Place) : Prop where
  walks : s.cursor.Walks (place (m s)).cursor
  meets : ∀ s' : Place, s.Meets s' → Meets (m s) (m s')
  undone : (place (m s)).symbols.rollback = s.symbols.rollback
  short : ∀ (s₀ : Place) (more : List Token), more ≠ [] → s = s₀.extend more →
    more <:+ (place (m s)).cursor.stream.pending → ∃ r, ∀ more, m (s₀.extend more) = extend r more
  reads : ∀ a t, m s = .ok a t → P a

theorem Steady.leads {P : α → Prop} {m : Reader α} {s : Place} (h : Steady P m s) :
    s.cursor.Leads (place (m s)).cursor := h.walks.leads

def Keeps (W : String → Prop) (P : α → Prop) (m : Reader α) (s : Place) : Prop :=
  s.cursor.Spelled W → Steady P m s

namespace Keeps

variable {W : String → Prop} {P : α → Prop} {Q : β → Prop} {m : Reader α} {k : α → Reader β}
  {s : Place}

theorem pure {a : α} (h : P a) : Keeps W P (Pure.pure a) s := by
  intro _
  refine ⟨.refl, fun _ hs => .ok hs, rfl, fun s₀ _ _ _ _ => ⟨.ok a s₀, fun _ => rfl⟩, ?_⟩
  intro b t hb
  cases hb
  exact h

theorem throw (e : ParseError) : Keeps W P (MonadExcept.throw e : Reader α) s := by
  intro _
  refine ⟨.refl, fun _ hs => .error hs, rfl, fun s₀ _ _ _ _ => ⟨.error e s₀, fun _ => rfl⟩, ?_⟩
  intro b t hb
  cases hb

theorem bind (hm : Keeps W P m s)
    (hk : ∀ a t, s.cursor.Leads t.cursor → P a → Keeps W Q (k a) t) : Keeps W Q (m >>= k) s := by
  intro hw
  obtain ⟨hwalks, hmeets, hundone, hshort, hreads⟩ := hm hw
  cases hms : m s with
  | error e t =>
    have hall : (m >>= k) s = .error e t := error_bind hms
    rw [hms] at hwalks hundone hshort
    refine ⟨by rwa [hall], ?_, by rwa [hall], ?_, fun b u hb => (by cases hall.symm.trans hb)⟩
    · exact fun s' hs => (hmeets s' hs).bind fun a u _ hu => (by cases hms.symm.trans hu)
    · intro s₀ more hmore hs hsuffix
      rw [hall] at hsuffix
      obtain ⟨r, hr⟩ := hshort s₀ more hmore hs hsuffix
      cases r with
      | ok a t₀ =>
        rw [hs, hr more] at hms
        cases hms
      | error e' t₀ => exact ⟨.error e' t₀, fun more => error_bind (hr more)⟩
  | ok a t =>
    have hall : (m >>= k) s = k a t := ok_bind hms
    rw [hms] at hwalks hundone hshort
    obtain ⟨hwalks', hmeets', hundone', hshort', hreads'⟩ :=
      hk a t hwalks.leads (hreads a t hms) (hwalks.leads.spelled hw)
    refine ⟨by rw [hall]; exact hwalks.trans hwalks', ?_,
      by rw [hall]; exact hundone'.trans hundone,
      ?_, fun b u hb => hreads' b u (hall ▸ hb)⟩
    · intro s' hs
      refine (hmeets s' hs).bind fun a' t₁ t' hms' ht => ?_
      cases hms.symm.trans hms'
      exact hmeets' t' ht
    · intro s₀ more hmore hs hsuffix
      rw [hall] at hsuffix
      obtain ⟨r, hr⟩ := hshort s₀ more hmore hs (hsuffix.trans hwalks'.leads.suffix)
      cases r with
      | error e t₀ =>
        rw [hs, hr more] at hms
        cases hms
      | ok a' t₀ =>
        rw [hs, hr more] at hms
        cases hms
        obtain ⟨r, hr'⟩ := hshort' t₀ more hmore rfl hsuffix
        exact ⟨r, fun more => (ok_bind (hr more)).trans (hr' more)⟩

theorem token {k : Token → Reader β} (hk : Keeps W Q (k s.cursor.current) s) :
    Keeps W Q (token >>= k) s := by
  intro hw
  obtain ⟨hwalks, hmeets, hundone, hshort, hreads⟩ := hk hw
  refine ⟨hwalks, fun s' hs => ?_, hundone, ?_, hreads⟩
  · have hmet := hmeets s' hs
    rw [hs.cursor.current] at hmet
    rw [show (Reader.token >>= k) s = k s.cursor.current s from rfl, hs.cursor.current]
    exact hmet
  · rintro s₀ more hmore rfl hsuffix
    exact hshort s₀ more hmore rfl hsuffix

theorem type? {scope name : String} {k : Option Ty → Reader β}
    (hk : Keeps W Q (k (s.symbols.lookup? scope name)) s) :
    Keeps W Q (type? scope name >>= k) s := by
  intro hw
  obtain ⟨hwalks, hmeets, hundone, hshort, hreads⟩ := hk hw
  refine ⟨hwalks, fun s' hs => ?_, hundone, ?_, hreads⟩
  · have hmet := hmeets s' hs
    rw [hs.symbols] at hmet
    rw [show (Reader.type? scope name >>= k) s = k (s.symbols.lookup? scope name) s from rfl,
      hs.symbols]
    exact hmet
  · rintro s₀ more hmore rfl hsuffix
    exact hshort s₀ more hmore rfl hsuffix

theorem advance {k : Unit → Reader β} (hne : s.cursor.current.kind ≠ .eof)
    (hk : Keeps W Q (k ()) ⟨s.symbols, s.cursor.advance⟩) : Keeps W Q (advance >>= k) s := by
  intro hw
  obtain ⟨hwalks, hmeets, hundone, hshort, hreads⟩ := hk hw.advance
  refine ⟨hwalks.after hne, fun s' hs => ?_, hundone, ?_, hreads⟩
  · exact hmeets ⟨s'.symbols, s'.cursor.advance⟩ ⟨hs.symbols, hs.cursor.advance hne⟩
  · rintro s₀ more hmore rfl hsuffix
    have hadvance := Cursor.advance_extend hmore (hsuffix.trans hwalks.leads.suffix)
    obtain ⟨r, hr⟩ := hshort ⟨s₀.symbols, s₀.cursor.advance⟩ more hmore
      (congrArg (Place.mk s₀.symbols) (hadvance more)) hsuffix
    refine ⟨r, fun more' => (Eq.trans ?_ (hr more'))⟩
    exact congrArg (fun c => k () ⟨s₀.symbols, c⟩) (hadvance more')

theorem declare {scope name : String} {type : Ty} {k : Unit → Reader β}
    (hk : Keeps W Q (k ()) ⟨s.symbols.declare scope name type, s.cursor⟩) :
    Keeps W Q (declare scope name type >>= k) s := by
  intro hw
  obtain ⟨hwalks, hmeets, hundone, hshort, hreads⟩ := hk hw
  refine ⟨hwalks, fun s' hs => ?_, hundone.trans (s.symbols.rollback_declare ..), ?_, hreads⟩
  · exact hmeets ⟨s'.symbols.declare scope name type, s'.cursor⟩
      ⟨congrArg (·.declare scope name type) hs.symbols, hs.cursor⟩
  · rintro s₀ more hmore rfl hsuffix
    exact hshort ⟨s₀.symbols.declare scope name type, s₀.cursor⟩ more hmore rfl hsuffix

theorem refuse (cause : ParseError.Cause) : Keeps W P (refuse cause : Reader α) s :=
  .token (.throw _)

theorem missing (what : Expected) : Keeps W P (missing what : Reader α) s := .token (.refuse _)

theorem insist {kind : Kind} {what : Expected} {k : Unit → Reader β}
    (hk : s.cursor.current.kind = kind → Keeps W Q (k ()) s) :
    Keeps W Q (insist kind what >>= k) s :=
  insist_cases (M := (Keeps W Q · s)) (fun _ => token) (missing what) hk

theorem pass {kind : Kind} {what : Expected} {k : Unit → Reader β} (hkind : kind ≠ .eof)
    (hk : s.cursor.current.kind = kind → Keeps W Q (k ()) ⟨s.symbols, s.cursor.advance⟩) :
    Keeps W Q (pass kind what >>= k) s := by
  unfold Reader.pass
  rw [bind_assoc]
  exact insist fun h => advance (h ▸ hkind) (hk h)

end Keeps

end Reader

end FormCompiler
