import Mathlib.Data.Finmap
import FormCompiler.Proofs.Parser.Resolved

namespace FormCompiler

namespace SymbolTable

inductive Request
  | declare (scope name : String) (type : Ty)
  | checkpoint
  | rollback
  | lookup (scope name : String)

def Request.Proper : Request → Prop
  | .declare scope name _ | .lookup scope name => IsScope scope ∧ IsName name
  | .checkpoint | .rollback => True

structure Reply where
  found : Option Ty
  size : Nat
  deriving DecidableEq

def replies {σ : Type} (serve : σ → Request → σ × Reply) (s : σ) : List Request → List Reply
  | [] => []
  | r :: rs => (serve s r).2 :: replies serve (serve s r).1 rs

def serve (t : SymbolTable) : Request → SymbolTable × Reply
  | .declare scope name type =>
    let u := t.declare scope name type
    (u, ⟨none, u.size⟩)
  | .checkpoint => (t.checkpoint, ⟨none, t.checkpoint.size⟩)
  | .rollback => (t.rollback, ⟨none, t.rollback.size⟩)
  | .lookup scope name => (t, ⟨t.lookup? scope name, t.size⟩)

end SymbolTable

abbrev ScopeMap := Finmap fun _ : String × String => Ty

/-- A map of names, and the copy that was made last. -/
structure Snapshots where
  current : ScopeMap := ∅
  saved : ScopeMap := ∅

namespace ScopeMap

def size (m : ScopeMap) : Nat := m.keys.card

def lookup? (m : ScopeMap) (scope name : String) : Option Ty :=
  (m.lookup (scope, name)).or (m.lookup ("", name))

end ScopeMap

namespace Snapshots

open SymbolTable (Request Reply)

def serve (s : Snapshots) : Request → Snapshots × Reply
  | .declare scope name type =>
    let m : ScopeMap := s.current.insert (scope, name) type
    (⟨m, s.saved⟩, ⟨none, m.size⟩)
  | .checkpoint => (⟨s.current, s.current⟩, ⟨none, s.current.size⟩)
  | .rollback => (⟨s.saved, s.saved⟩, ⟨none, s.saved.size⟩)
  | .lookup scope name => (s, ⟨s.current.lookup? scope name, s.current.size⟩)

end Snapshots

structure Table.Holds (entries : Table Ty) (m : ScopeMap) : Prop where
  get? : ∀ {scope name}, IsScope scope → IsName name →
    entries.get? (scopedName scope name) = m.lookup (scope, name)
  keys : entries.keys.toFinset = m.keys.image fun k => scopedName k.1 k.2
  proper : ∀ k ∈ m.keys, IsScope k.1 ∧ IsName k.2

namespace Table.Holds

variable {entries : Table Ty} {m : ScopeMap} {scope name : String}

theorem empty : Table.Holds (∅ : Table Ty) ∅ where
  get? _ _ := rfl
  keys := rfl
  proper k hmem := by simp at hmem

theorem insert (h : entries.Holds m) (hs : IsScope scope) (hn : IsName name) (type : Ty) :
    (entries.insert (scopedName scope name) type).Holds (m.insert (scope, name) type) where
  get? {scope' name'} hs' hn' := by
    rw [Table.get?_insert]
    by_cases hsame : (scope', name') = (scope, name)
    · cases hsame
      rw [if_pos rfl, Finmap.lookup_insert]
    · rw [Finmap.lookup_insert_of_ne _ hsame, h.get? hs' hn', if_neg]
      intro hkey
      obtain ⟨rfl, rfl⟩ := scopedName_inj hs hs' hn hn' hkey
      exact hsame rfl
  keys := by
    have hinserted : (m.insert (scope, name) type).keys = Insert.insert (scope, name) m.keys := by
      ext k
      rw [Finmap.mem_keys, Finmap.mem_insert, Finset.mem_insert, Finmap.mem_keys]
    rw [hinserted, Finset.image_insert, ← h.keys]
    ext k
    simp [Table.keys, Table.insert, Entries.mem_keys_insert]
  proper k hmem := by
    rw [Finmap.mem_keys, Finmap.mem_insert] at hmem
    rcases hmem with rfl | hmem
    · exact ⟨hs, hn⟩
    · exact h.proper k (Finmap.mem_keys.mpr hmem)

theorem size (h : entries.Holds m) : entries.size = m.size := by
  have hapart : Set.InjOn (fun k : String × String => scopedName k.1 k.2) m.keys := by
    intro k hk k' hk' hkey
    obtain ⟨hs, hn⟩ := h.proper k hk
    obtain ⟨hs', hn'⟩ := h.proper k' hk'
    obtain ⟨hscope, hname⟩ := scopedName_inj hs hs' hn hn' hkey
    exact Prod.ext hscope hname
  calc entries.size = entries.keys.length := (List.length_map _).symm
    _ = entries.keys.toFinset.card := (List.toFinset_card_of_nodup entries.nodup).symm
    _ = m.size := by rw [h.keys, Finset.card_image_of_injOn hapart]; rfl

theorem lookup? {t : SymbolTable} (h : t.entries.Holds m) (hs : IsScope scope) (hn : IsName name) :
    t.lookup? scope name = m.lookup? scope name := by
  have hglobal : t.entries.get? name = m.lookup ("", name) := h.get? (.inl rfl) hn
  unfold SymbolTable.lookup? ScopeMap.lookup?
  split
  · case isTrue global_scope =>
    subst global_scope
    rw [hglobal]
    cases m.lookup ("", name) <;> rfl
  · rw [h.get? hs hn, hglobal]

end Table.Holds

namespace SymbolTable

variable {t : SymbolTable} {s : Snapshots}

structure Matches (t : SymbolTable) (s : Snapshots) : Prop where
  current : t.entries.Holds s.current
  saved : t.rollback.entries.Holds s.saved

/-- Serving a request gives the same reply and keeps the table and the map together. -/
theorem Matches.serve (h : t.Matches s) {r : Request} (hr : r.Proper) :
    (t.serve r).1.Matches (s.serve r).1 ∧ (t.serve r).2 = (s.serve r).2 := by
  cases r with
  | declare scope name type =>
    have hcurrent := h.current.insert hr.1 hr.2 type
    refine ⟨⟨hcurrent, ?_⟩, congrArg (Reply.mk none) hcurrent.size⟩
    rw [SymbolTable.serve, rollback_declare]
    exact h.saved
  | checkpoint => exact ⟨⟨h.current, h.current⟩, congrArg (Reply.mk none) h.current.size⟩
  | rollback => exact ⟨⟨h.saved, h.saved⟩, congrArg (Reply.mk none) h.saved.size⟩
  | lookup scope name =>
    exact ⟨h, congrArg₂ Reply.mk (h.current.lookup? hr.1 hr.2) h.current.size⟩

theorem Matches.replies (h : t.Matches s) {rs : List Request} (hrs : ∀ r ∈ rs, r.Proper) :
    replies SymbolTable.serve t rs = SymbolTable.replies Snapshots.serve s rs := by
  induction rs generalizing t s with
  | nil => rfl
  | cons r rs ih =>
    obtain ⟨hr, hrs⟩ := List.forall_mem_cons.mp hrs
    obtain ⟨hnext, hsame⟩ := h.serve hr
    exact congrArg₂ _ hsame (ih hnext hrs)

theorem lookup?_declare_of_scope_ne {scope other name name' : String} (hs : IsName scope)
    (ho : IsScope other) (hn : IsName name) (hn' : IsName name') (hapart : other ≠ scope)
    (t : SymbolTable) (type : Ty) :
    (t.declare scope name type).lookup? other name' = t.lookup? other name' := by
  have hkept {scope' : String} (hs' : IsScope scope') (hapart : scope' ≠ scope) :
      (t.declare scope name type).entries.get? (scopedName scope' name') =
        t.entries.get? (scopedName scope' name') := by
    refine (Table.get?_insert ..).trans (if_neg fun hkey => hapart ?_)
    exact (scopedName_inj (.inr hs) hs' hn hn' hkey).1.symm
  have hglobal : (t.declare scope name type).entries.get? name' = t.entries.get? name' :=
    hkept (.inl rfl) hs.ne_empty.symm
  unfold lookup?
  rw [hkept ho hapart, hglobal]

theorem rollback_declarations (t : SymbolTable) (ds : List (String × String × Ty)) :
    (ds.foldl (fun t d => t.declare d.1 d.2.1 d.2.2) t.checkpoint).rollback = t.checkpoint := by
  have hundone : ∀ u : SymbolTable,
      (ds.foldl (fun t d => t.declare d.1 d.2.1 d.2.2) u).rollback = u.rollback := by
    induction ds with
    | nil => exact fun _ => rfl
    | cons d ds ih => exact fun u => (ih _).trans (u.rollback_declare ..)
  exact hundone t.checkpoint

/-- A table of names serves all requests as a map from scopes and names does that is copied at each
checkpoint. So no scope sees what another function's is told, and what was declared since the
checkpoint is undone to the last entry. -/
theorem replies_snapshots :
    (∀ rs : List Request, (∀ r ∈ rs, r.Proper) →
      replies SymbolTable.serve {} rs = replies Snapshots.serve {} rs) ∧
    (∀ (t : SymbolTable) (scope other name name' : String) (type : Ty), IsName scope →
      IsScope other → IsName name → IsName name' → other ≠ scope →
      (t.declare scope name type).lookup? other name' = t.lookup? other name') ∧
    ∀ (t : SymbolTable) (ds : List (String × String × Ty)),
      (ds.foldl (fun t d => t.declare d.1 d.2.1 d.2.2) t.checkpoint).rollback = t.checkpoint := by
  have hempty : Matches {} {} := ⟨.empty, Table.Holds.empty⟩
  refine ⟨fun rs => hempty.replies, ?_, rollback_declarations⟩
  intro t scope other name name' type hs ho hn hn' hapart
  exact lookup?_declare_of_scope_ne hs ho hn hn' hapart t type

theorem replies_snapshots_undone :
    (∀ r ∈ [Request.declare "" "f" .int, .checkpoint, .declare "" "f" .double,
      .declare "f" "x" .double, .declare "" "f" .double, .lookup "f" "f", .lookup "" "x", .rollback,
      .lookup "f" "f", .lookup "f" "x"], r.Proper) ∧
    replies Snapshots.serve {} [.declare "" "f" .int, .checkpoint, .declare "" "f" .double,
      .declare "f" "x" .double, .declare "" "f" .double, .lookup "f" "f", .lookup "" "x", .rollback,
      .lookup "f" "f", .lookup "f" "x"] =
      [⟨none, 1⟩, ⟨none, 1⟩, ⟨none, 1⟩, ⟨none, 2⟩, ⟨none, 2⟩, ⟨some .double, 2⟩, ⟨none, 2⟩,
        ⟨none, 1⟩, ⟨some .int, 1⟩, ⟨none, 1⟩] ∧
    (({} : SymbolTable).declare "f" "x" .double).lookup? "g" "x" = none := by
  have f : IsName "f" := ⟨List.forall_mem_singleton.mpr rfl, by decide⟩
  have g : IsName "g" := ⟨List.forall_mem_singleton.mpr rfl, by decide⟩
  have x : IsName "x" := ⟨List.forall_mem_singleton.mpr rfl, by decide⟩
  have hproper : ∀ r ∈ [Request.declare "" "f" .int, .checkpoint, .declare "" "f" .double,
      .declare "f" "x" .double, .declare "" "f" .double, .lookup "f" "f", .lookup "" "x", .rollback,
      .lookup "f" "f", .lookup "f" "x"], r.Proper := by
    simp [Request.Proper, IsScope, f, x]
  refine ⟨hproper, (replies_snapshots.1 _ hproper).symm.trans (by decide +kernel), ?_⟩
  exact replies_snapshots.2.1 {} "f" "g" "x" "x" .double f (.inr g) x x (by decide)

end SymbolTable

end FormCompiler
