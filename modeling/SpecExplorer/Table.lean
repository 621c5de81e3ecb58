/-
# Tables

A finite map as the list of its bindings in the order in which their keys first came. Binding a key
again changes its value where it stands, so every key has one binding.
-/

namespace SpecExplorer

structure Table (κ α : Type) where
  entries : List (κ × α)
  deriving Repr

namespace Table

variable {κ α : Type} [DecidableEq κ]

def empty : Table κ α := ⟨[]⟩

instance : Inhabited (Table κ α) := ⟨empty⟩

/-- The value of a key among bindings. -/
def find? (key : κ) : List (κ × α) → Option α
  | [] => none
  | (k, v) :: rest => if key = k then some v else find? key rest

/-- The value of a key. -/
def get? (t : Table κ α) (key : κ) : Option α := find? key t.entries

def contains (t : Table κ α) (key : κ) : Bool := (t.get? key).isSome

def keys (t : Table κ α) : List κ := t.entries.map (·.1)

def size (t : Table κ α) : Nat := t.entries.length

/-- Binds a key in a list of bindings. -/
def putIn (key : κ) (value : α) : List (κ × α) → List (κ × α)
  | [] => [(key, value)]
  | (k, v) :: rest => if key = k then (k, value) :: rest else (k, v) :: putIn key value rest

/-- Binds a key to a value. -/
def put (t : Table κ α) (key : κ) (value : α) : Table κ α := ⟨putIn key value t.entries⟩

/-- Takes a key out. -/
def erase (t : Table κ α) (key : κ) : Table κ α := ⟨t.entries.filter (·.1 ≠ key)⟩

/-- Changes every value. -/
def map (f : α → α) (t : Table κ α) : Table κ α := ⟨t.entries.map fun (k, v) => (k, f v)⟩

/-- Changes the value of a key, if it has one. -/
def modify (t : Table κ α) (key : κ) (f : α → α) : Table κ α :=
  ⟨t.entries.map fun (k, v) => if k = key then (k, f v) else (k, v)⟩

theorem find?_putIn (key other : κ) (value : α) (entries : List (κ × α)) :
    find? other (putIn key value entries) =
      if other = key then some value else find? other entries := by
  induction entries with
  | nil => rfl
  | cons entry rest ih => grind [putIn, find?]

/-- A key that is bound has the value it was last bound to, and other keys keep theirs. -/
theorem get?_put (t : Table κ α) (key other : κ) (value : α) :
    (t.put key value).get? other = if other = key then some value else t.get? other :=
  find?_putIn key other value t.entries

theorem find?_filter_ne (key other : κ) (entries : List (κ × α)) :
    find? other (entries.filter (·.1 ≠ key)) =
      if other = key then none else find? other entries := by
  induction entries with
  | nil => simp [find?]
  | cons entry rest ih => grind [find?]

/-- A key that is taken out has no value, and other keys keep theirs. -/
theorem get?_erase (t : Table κ α) (key other : κ) :
    (t.erase key).get? other = if other = key then none else t.get? other :=
  find?_filter_ne key other t.entries

@[simp] theorem get?_empty (key : κ) : (empty : Table κ α).get? key = none := rfl

theorem find?_map (f : α → α) (key : κ) (entries : List (κ × α)) :
    find? key (entries.map fun (k, v) => (k, f v)) = (find? key entries).map f := by
  induction entries with
  | nil => rfl
  | cons entry rest ih => grind [find?]

@[simp] theorem get?_map (t : Table κ α) (f : α → α) (key : κ) :
    (t.map f).get? key = (t.get? key).map f :=
  find?_map f key t.entries

theorem find?_modify (f : α → α) (key other : κ) (entries : List (κ × α)) :
    find? other (entries.map fun (k, v) => if k = key then (k, f v) else (k, v)) =
      if other = key then (find? other entries).map f else find? other entries := by
  induction entries with
  | nil => simp [find?]
  | cons entry rest ih => grind [find?]

/-- Changing the value of a key changes it there alone. -/
theorem get?_modify (t : Table κ α) (key other : κ) (f : α → α) :
    (t.modify key f).get? other = if other = key then (t.get? other).map f else t.get? other :=
  find?_modify f key other t.entries

/-! ### One binding for a key -/

theorem mem_keys_putIn (key other : κ) (value : α) (entries : List (κ × α)) :
    other ∈ (putIn key value entries).map (·.1) ↔ other = key ∨ other ∈ entries.map (·.1) := by
  induction entries with
  | nil => simp [putIn]
  | cons entry rest ih => grind [putIn]

theorem nodup_putIn (key : κ) (value : α) {entries : List (κ × α)}
    (h : (entries.map (·.1)).Nodup) : ((putIn key value entries).map (·.1)).Nodup := by
  induction entries with
  | nil => simp [putIn]
  | cons entry rest ih =>
      obtain ⟨hnew, hrest⟩ := List.nodup_cons.mp h
      rw [putIn]
      split
      next => exact h
      next hne =>
          refine List.nodup_cons.mpr ⟨fun hmem => ?_, ih hrest⟩
          rcases (mem_keys_putIn key entry.1 value rest).mp hmem with heq | hold
          · exact hne heq.symm
          · exact hnew hold

theorem nodup_keys_put {t : Table κ α} (h : t.keys.Nodup) (key : κ) (value : α) :
    (t.put key value).keys.Nodup :=
  nodup_putIn key value h

theorem nodup_keys_erase {t : Table κ α} (h : t.keys.Nodup) (key : κ) :
    (t.erase key).keys.Nodup :=
  h.sublist (List.Sublist.map _ List.filter_sublist)

theorem find?_eq_some_iff_mem (key : κ) (value : α) {entries : List (κ × α)}
    (h : (entries.map (·.1)).Nodup) : find? key entries = some value ↔ (key, value) ∈ entries := by
  induction entries with
  | nil => simp [find?]
  | cons entry rest ih => grind [find?]

/-- Where no key is bound twice, looking a key up finds its binding. -/
theorem get?_eq_some_iff_mem {t : Table κ α} (h : t.keys.Nodup) (key : κ) (value : α) :
    t.get? key = some value ↔ (key, value) ∈ t.entries :=
  find?_eq_some_iff_mem key value h

end Table

end SpecExplorer
