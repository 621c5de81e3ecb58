/-
# Reading back what was written

A value that some type is written as is read back by the reader of that type wherever there is room
for its nesting. This module has the law for texts, flags, numbers and lists, and for the members of
an object: a member that has to be there, one that may be `null`, one that is left out when there is
nothing to say, and a list that is left out when it is empty.
-/
import Mathlib.Data.List.Nodup
import SpecExplorer.Json.Reader

namespace SpecExplorer

namespace Json

/-! ### Nesting -/

mutual

/-- How deep arrays and objects are nested in a value. -/
def nesting : Json → Nat
  | .array items => nestingItems items + 1
  | .object members => nestingMembers members + 1
  | _ => 0

def nestingItems : List Json → Nat
  | [] => 0
  | v :: rest => max (nesting v) (nestingItems rest)

def nestingMembers : List (String × Json) → Nat
  | [] => 0
  | (_, v) :: rest => max (nesting v) (nestingMembers rest)

end

theorem nesting_lt_array {v : Json} {items : List Json} (h : v ∈ items) :
    v.nesting < (array items).nesting := by
  rw [nesting]
  induction items with
  | nil => cases h
  | cons w rest ih =>
      rw [nestingItems]
      rcases List.mem_cons.mp h with rfl | h
      · omega
      · have := ih h
        omega

theorem nesting_lt_object {m : String × Json} {members : List (String × Json)} (h : m ∈ members) :
    m.2.nesting < (object members).nesting := by
  rw [nesting]
  induction members with
  | nil => cases h
  | cons n rest ih =>
      rw [nestingMembers]
      rcases List.mem_cons.mp h with rfl | h
      · omega
      · have := ih h
        omega

theorem rawItems_eq (items : List Json) : rawItems items = items.map raw := by
  induction items with
  | nil => rfl
  | cons v rest ih => rw [rawItems, ih, List.map_cons]

theorem rawMembers_eq (members : List (String × Json)) :
    rawMembers members = members.map fun m => (some m.1, m.2.raw) := by
  induction members with
  | nil => rfl
  | cons m rest ih => rw [rawMembers, ih, List.map_cons]

theorem inner?_of_lt {n depth : Nat} (h : n + 1 < depth) : Raw.inner? depth = some (depth - 1) :=
  if_neg (by omega)

/-! ### Values -/

namespace Reader

variable {α : Type}

/-- A reader takes a value for what it was written from, wherever there is room for it. -/
def Reads (reader : Reader α) (j : Json) (a : α) : Prop :=
  ∀ depth, j.nesting < depth → reader depth j.raw = some a

theorem reads_text (s : String) : text.Reads (.string s) s := fun _ _ => rfl

theorem reads_flag (b : Bool) : flag.Reads (.bool b) b := fun _ _ => rfl

theorem reads_natUpTo {high n : Nat} (h : n ≤ high) : (natUpTo high).Reads (.nat n) n :=
  fun _ _ => if_pos h

theorem reads_caseName (s : String) : caseName.Reads (.string s) s := fun _ _ => rfl

/-- A reader that goes on with what another one takes the value for. -/
theorem Reads.bind {β : Type} {reader : Reader α} {f : α → Option β} {j : Json} {a : α} {b : β}
    (h : reader.Reads j a) (hf : f a = some b) :
    Reads (fun depth r => (reader depth r).bind f) j b := by
  intro depth hdepth
  show (reader depth j.raw).bind f = some b
  rw [h depth hdepth, Option.bind_some, hf]

theorem Reads.map {β : Type} {reader : Reader α} {j : Json} {a : α} (h : reader.Reads j a)
    (f : α → β) : Reads (fun depth r => (reader depth r).map f) j (f a) := by
  intro depth hdepth
  show (reader depth j.raw).map f = some (f a)
  rw [h depth hdepth, Option.map_some]

theorem mapM_map_eq_some {β : Type} {f : α → β} {g : β → Option α} {as : List α}
    (h : ∀ a ∈ as, g (f a) = some a) : (as.map f).mapM g = some as := by
  induction as with
  | nil => rfl
  | cons a rest ih =>
      rw [List.map_cons, List.mapM_cons, h a List.mem_cons_self,
        ih fun b hb => h b (List.mem_cons_of_mem _ hb)]
      rfl

/-- A list is read item by item. -/
theorem reads_listOf {item : Reader α} {encode : α → Json} {as : List α}
    (h : ∀ a ∈ as, item.Reads (encode a) a) : (listOf item).Reads (.array (as.map encode)) as := by
  intro depth hdepth
  have hroom : ∀ a ∈ as, (encode a).nesting < depth - 1 := by
    intro a ha
    have := nesting_lt_array (List.mem_map_of_mem (f := encode) ha)
    omega
  have hinner : Raw.inner? depth = some (depth - 1) := inner?_of_lt hdepth
  rw [raw, rawItems_eq, List.map_map, listOf, hinner]
  exact mapM_map_eq_some fun a ha => h a ha _ (hroom a ha)

/-- What is written as a text and may be absent. -/
theorem reads_orNull {reader : Reader α} {name : α → String}
    (h : ∀ a, reader.Reads (.string (name a)) a) (a? : Option α) :
    reader.orNull.Reads (ofOption (fun a => .string (name a)) a?) a? := by
  intro depth hdepth
  cases a? with
  | none => rfl
  | some a =>
      show (reader depth (raw (.string (name a)))).map some = some (some a)
      rw [h a depth hdepth]
      rfl

end Reader

/-! ### Members of an object -/

namespace Fields

/-- Fields that were read from the members of an object. -/
structure Holds (fields : Fields) (members : List (String × Json)) : Prop where
  named : fields.positional = false
  values : fields.values = members.map fun m => (m.1, m.2.raw)
  once : (members.map (·.1)).Nodup
  room : ∀ m ∈ members, m.2.nesting < fields.depth

theorem known_rawMembers {names : List String} {members : List (String × Json)}
    (hknown : ∀ m ∈ members, m.1 ∈ names) (honce : (members.map (·.1)).Nodup) :
    known names (members.map fun m => (some m.1, m.2.raw)) =
      some (members.map fun m => (m.1, m.2.raw)) := by
  induction members with
  | nil => rfl
  | cons m rest ih =>
      obtain ⟨hnew, hrest⟩ := List.nodup_cons.mp honce
      have hmem : m.1 ∈ names := hknown m List.mem_cons_self
      have hfresh : ∀ j, (m.1, j) ∉ rest := fun j hj => hnew (List.mem_map.mpr ⟨_, hj, rfl⟩)
      rw [List.map_cons, known, ih (fun n hn => hknown n (List.mem_cons_of_mem _ hn)) hrest]
      simpa [hmem] using hfresh

/-- The members of an object are read if they come in the declared order, some perhaps left out. -/
theorem exists_holds (names : List String) {members : List (String × Json)} {depth : Nat}
    (hnames : (members.map (·.1)).Sublist names) (hdistinct : names.Nodup)
    (hdepth : (object members).nesting < depth) :
    ∃ fields, read names depth (object members).raw = some fields ∧ fields.Holds members := by
  have honce : (members.map (·.1)).Nodup := hdistinct.sublist hnames
  have hknown : ∀ m ∈ members, m.1 ∈ names := fun m hm =>
    hnames.subset (List.mem_map_of_mem hm)
  have hinner : Raw.inner? depth = some (depth - 1) := inner?_of_lt hdepth
  refine ⟨⟨false, members.map fun m => (m.1, m.2.raw), depth - 1⟩, ?_, rfl, rfl, honce, ?_⟩
  · rw [raw, rawMembers_eq, read, hinner]
    simp [known_rawMembers hknown honce]
  · intro m hm
    have := nesting_lt_object hm
    show m.2.nesting < depth - 1
    omega

/-- Where no name occurs twice, looking a name up finds its member. -/
theorem find?_eq_some_of_mem {members : List (String × Json)} {name : String} {j : Json}
    (honce : (members.map (·.1)).Nodup) (hmem : (name, j) ∈ members) :
    members.find? (·.1 == name) = some (name, j) := by
  induction members with
  | nil => cases hmem
  | cons m rest ih =>
      obtain ⟨hnew, hrest⟩ := List.nodup_cons.mp honce
      rcases List.mem_cons.mp hmem with rfl | hmem
      · exact List.find?_cons_of_pos (by simp)
      · have hne : m.1 ≠ name := fun heq => hnew (List.mem_map.mpr ⟨_, hmem, heq.symm⟩)
        rw [List.find?_cons_of_neg (by simpa using hne), ih hrest hmem]

namespace Holds

variable {α : Type} {fields : Fields} {members : List (String × Json)} {name : String} {j : Json}
  {a : α} {reader : Reader α}

theorem value?_of_mem (h : fields.Holds members) (hmem : (name, j) ∈ members) :
    fields.value? name = some j.raw := by
  have hfound := find?_eq_some_of_mem h.once hmem
  rw [value?, h.values, List.find?_map, Option.map_map]
  exact congrArg (Option.map _) hfound

theorem value?_of_not_mem (h : fields.Holds members) (hnot : name ∉ members.map (·.1)) :
    fields.value? name = none := by
  rw [value?, h.values, List.find?_map, Option.map_map, Option.map_eq_none_iff, List.find?_eq_none]
  rintro m hm heq
  exact hnot (List.mem_map.mpr ⟨m, hm, by simpa using heq⟩)

theorem required (h : fields.Holds members) (hmem : (name, j) ∈ members)
    (hreads : reader.Reads j a) : fields.required name reader = some a := by
  rw [Fields.required, h.value?_of_mem hmem]
  exact hreads _ (h.room _ hmem)

/-- A member that may be `null`. -/
theorem nullable (h : fields.Holds members) {a? : Option α} (hmem : (name, j) ∈ members)
    (hreads : reader.orNull.Reads j a?) : fields.nullable name reader = some a? := by
  rw [Fields.nullable, h.named, optional, withDefault, h.value?_of_mem hmem]
  exact hreads _ (h.room _ hmem)

/-- A member that may be `null` is none where it is left out. -/
theorem nullable_of_not_mem (h : fields.Holds members) (hnot : name ∉ members.map (·.1)) :
    fields.nullable name reader = some none := by
  rw [Fields.nullable, h.named, optional, withDefault, h.value?_of_not_mem hnot]
  rfl

theorem withDefault (h : fields.Holds members) (default : α) (hmem : (name, j) ∈ members)
    (hreads : reader.Reads j a) : fields.withDefault name default reader = some a := by
  rw [Fields.withDefault, h.value?_of_mem hmem]
  exact hreads _ (h.room _ hmem)

theorem withDefault_of_not_mem (h : fields.Holds members) (default : α)
    (hnot : name ∉ members.map (·.1)) : fields.withDefault name default reader = some default := by
  rw [Fields.withDefault, h.value?_of_not_mem hnot]

end Holds

end Fields

end Json

end SpecExplorer
