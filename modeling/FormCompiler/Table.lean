namespace FormCompiler

universe u

variable {α : Type u}

namespace Entries

def find? (key : String) : List (String × α) → Option α
  | [] => none
  | (k, v) :: rest => if k = key then some v else find? key rest

def insert (key : String) (value : α) : List (String × α) → List (String × α)
  | [] => [(key, value)]
  | (k, v) :: rest => if k = key then (key, value) :: rest else (k, v) :: insert key value rest

def erase (key : String) : List (String × α) → List (String × α)
  | [] => []
  | (k, v) :: rest => if k = key then rest else (k, v) :: erase key rest

def keys (es : List (String × α)) : List String := es.map Prod.fst

theorem mem_keys_insert {key k : String} {value : α} {es : List (String × α)} :
    k ∈ keys (insert key value es) ↔ k = key ∨ k ∈ keys es := by
  induction es with
  | nil => simp [insert, keys]
  | cons e rest ih =>
    obtain ⟨k', v⟩ := e
    unfold insert
    split
    next h => subst h; simp [keys]
    next h =>
      simp only [keys, List.map_cons, List.mem_cons] at ih ⊢
      rw [ih]
      exact or_left_comm

theorem nodup_keys_insert {key : String} {value : α} {es : List (String × α)}
    (h : (keys es).Nodup) : (keys (insert key value es)).Nodup := by
  induction es with
  | nil => simp [insert, keys]
  | cons e rest ih =>
    obtain ⟨k, v⟩ := e
    obtain ⟨hfresh, h⟩ := List.nodup_cons.mp h
    unfold insert
    split
    next he => subst he; exact List.nodup_cons.mpr ⟨hfresh, h⟩
    next he =>
      refine List.nodup_cons.mpr ⟨fun hmem => ?_, ih h⟩
      rcases mem_keys_insert.mp hmem with heq | hmem
      · exact he heq
      · exact hfresh hmem

theorem keys_erase_sublist {key : String} {es : List (String × α)} :
    (keys (erase key es)).Sublist (keys es) := by
  induction es with
  | nil => exact List.Sublist.slnil
  | cons e rest ih =>
    obtain ⟨k, v⟩ := e
    unfold erase
    split
    · exact List.sublist_cons_self _ _
    · exact ih.cons_cons _

theorem find?_insert {key k : String} {value : α} {es : List (String × α)} :
    find? k (insert key value es) = if key = k then some value else find? k es := by
  induction es with
  | nil => rfl
  | cons e rest ih =>
    obtain ⟨k', v⟩ := e
    by_cases h : k' = key
    · subst h
      by_cases hk : k' = k <;> simp [insert, find?, hk]
    · by_cases hk : k' = k
      · subst hk
        simp [insert, find?, h, Ne.symm h]
      · simp [insert, find?, h, hk, ih]

theorem find?_eq_none {k : String} {es : List (String × α)} :
    find? k es = none ↔ k ∉ keys es := by
  induction es with
  | nil => simp [find?, keys]
  | cons e rest ih =>
    obtain ⟨k', v⟩ := e
    by_cases h : k' = k
    · simp [find?, keys, h]
    · simp only [keys] at ih
      simp [find?, keys, h, ih, Ne.symm h]

theorem find?_of_mem {k : String} {v : α} {es : List (String × α)} (h : (keys es).Nodup)
    (hm : (k, v) ∈ es) : find? k es = some v := by
  induction es with
  | nil => cases hm
  | cons e rest ih =>
    obtain ⟨hfresh, h⟩ := List.nodup_cons.mp h
    rcases List.mem_cons.mp hm with he | hm
    · subst he
      simp [find?]
    · have hne : e.1 ≠ k := by
        rintro rfl
        exact hfresh (List.mem_map.mpr ⟨_, hm, rfl⟩)
      simp only [find?, hne, if_false]
      exact ih h hm

theorem mem_of_find? {k : String} {v : α} {es : List (String × α)} (h : find? k es = some v) :
    (k, v) ∈ es := by
  induction es with
  | nil => cases h
  | cons e rest ih =>
    obtain ⟨k', v'⟩ := e
    unfold find? at h
    split at h
    next hk =>
      cases h
      subst hk
      exact List.mem_cons_self
    next => exact List.mem_cons_of_mem _ (ih h)

theorem find?_erase {key k : String} {es : List (String × α)} (h : (keys es).Nodup) :
    find? k (erase key es) = if key = k then none else find? k es := by
  induction es with
  | nil => simp [erase, find?]
  | cons e rest ih =>
    obtain ⟨k', v⟩ := e
    obtain ⟨hfresh, h⟩ := List.nodup_cons.mp h
    by_cases he : k' = key
    · subst he
      by_cases hk : k' = k
      · subst hk
        simpa [erase, find?] using find?_eq_none.mpr hfresh
      · simp [erase, find?, hk]
    · by_cases hk : k' = k
      · subst hk
        simp [erase, find?, he, Ne.symm he]
      · simp [erase, find?, he, hk, ih h]

end Entries

structure Table (α : Type u) where
  entries : List (String × α)
  nodup : (Entries.keys entries).Nodup

namespace Table

def empty : Table α := ⟨[], List.nodup_nil⟩

instance : Inhabited (Table α) := ⟨empty⟩

instance : EmptyCollection (Table α) := ⟨empty⟩

def get? (t : Table α) (key : String) : Option α := Entries.find? key t.entries

def contains (t : Table α) (key : String) : Bool := (t.get? key).isSome

def insert (t : Table α) (key : String) (value : α) : Table α :=
  ⟨Entries.insert key value t.entries, Entries.nodup_keys_insert t.nodup⟩

def erase (t : Table α) (key : String) : Table α :=
  ⟨Entries.erase key t.entries, t.nodup.sublist Entries.keys_erase_sublist⟩

def set (t : Table α) (key : String) (value? : Option α) : Table α :=
  match value? with
  | some value => t.insert key value
  | none => t.erase key

def keys (t : Table α) : List String := Entries.keys t.entries

def values (t : Table α) : List α := t.entries.map Prod.snd

def size (t : Table α) : Nat := t.entries.length

def isEmpty (t : Table α) : Bool := t.entries.isEmpty

@[ext] theorem ext {s t : Table α} (h : s.entries = t.entries) : s = t := by
  cases s; cases t; cases h; rfl

theorem exists_get?_of_mem_values {t : Table α} {v : α} (h : v ∈ t.values) :
    ∃ k, t.get? k = some v := by
  obtain ⟨⟨k, v'⟩, hm, rfl⟩ := List.mem_map.mp h
  exact ⟨k, Entries.find?_of_mem t.nodup hm⟩

theorem mem_values_of_get? {t : Table α} {k : String} {v : α} (h : t.get? k = some v) :
    v ∈ t.values :=
  List.mem_map.mpr ⟨(k, v), Entries.mem_of_find? h, rfl⟩

@[simp] theorem get?_empty (k : String) : (empty : Table α).get? k = none := rfl

@[simp] theorem get?_insert (t : Table α) (key k : String) (value : α) :
    (t.insert key value).get? k = if key = k then some value else t.get? k :=
  Entries.find?_insert

@[simp] theorem get?_erase (t : Table α) (key k : String) :
    (t.erase key).get? k = if key = k then none else t.get? k :=
  Entries.find?_erase t.nodup

@[simp] theorem get?_set (t : Table α) (key k : String) (value? : Option α) :
    (t.set key value?).get? k = if key = k then value? else t.get? k := by
  cases value? <;> simp [set]

end Table

end FormCompiler
