/-
# What the client is told can be read back

The JSON form of a change leaves out empty lists and absent descriptions and writes an absent status
as `null`, and items hold items to any depth. This module shows that nothing is lost by that: from
its JSON form every change is read back as it was. Two things are asked of the change: its address
is one that is read back from its written form, and the ordinals of its keys are 64-bit words. What
is asked of the reader is room for the nesting of the value.
-/
import SpecExplorer.Proofs.Json.Reads
import SpecExplorer.Proofs.Key.Written
import SpecExplorer.View.Change

namespace SpecExplorer

open Json Json.Reader

/-! ### Members that may be left out -/

namespace Json

variable {α : Type} {name : String}

theorem optionalMember_names (name : String) (encode : α → Json) (a? : Option α) :
    ((optionalMember name encode a?).map (·.1)).Sublist [name] := by
  cases a? with
  | none => exact List.nil_sublist _
  | some a => exact List.Sublist.refl _

theorem listMember_names (name : String) (encode : List α → Json) (as : List α) :
    ((listMember name encode as).map (·.1)).Sublist [name] := by
  cases as with
  | nil => exact List.nil_sublist _
  | cons a rest => exact List.Sublist.refl _

namespace Fields.Holds

variable {fields : Fields} {members : List (String × Json)} {reader : Reader α}

/-- A text that is left out where there is nothing to say. -/
theorem nullable_optionalMember (h : fields.Holds members) {text? : Option String}
    (hmem : optionalMember name .string text? ⊆ members)
    (hnot : text? = none → name ∉ members.map (·.1)) : fields.nullable name text = some text? := by
  cases text? with
  | none => exact h.nullable_of_not_mem (hnot rfl)
  | some s => exact h.nullable (hmem List.mem_cons_self) (reads_orNull reads_text (some s))

/-- A list that is left out where it is empty. -/
theorem withDefault_listMember (h : fields.Holds members) {encode : α → Json} {as : List α}
    (hmem : listMember name (fun as => .array (as.map encode)) as ⊆ members)
    (hnot : as = [] → name ∉ members.map (·.1))
    (hreads : ∀ a ∈ as, reader.Reads (encode a) a) :
    fields.withDefault name [] (listOf reader) = some as := by
  cases as with
  | nil => exact h.withDefault_of_not_mem [] (hnot rfl)
  | cons a rest => exact h.withDefault [] (hmem List.mem_cons_self) (reads_listOf hreads)

end Fields.Holds

end Json

/-- What a JSON form says of a node's status and description. -/
structure Json.TellsOf (j : Json) (status : Option RunStatus) (description : Option String) :
    Prop where
  status : j.member? "status" = some .null ↔ status = none
  description : j.member? "description" = none ↔ description = none

/-! ### Keys, addresses and names -/

theorem NodeKey.reads_json {key : NodeKey} (h : key.HasWordOrdinals) :
    NodeKey.reader.Reads key.json key := by
  have hread := (reads_text key.text).map NodeKey.parse
  rw [NodeKey.parse_text h] at hread
  exact hread

theorem Uri.reads_json {u : Uri} (h : parse? u.text = some u) : Uri.reader.Reads u.json u :=
  (reads_text u.text).bind h

theorem NodeKind.reads_json (kind : NodeKind) : NodeKind.reader.Reads kind.json kind := by
  refine (reads_caseName kind.name).bind ?_
  cases kind <;> rfl

theorem RunStatus.reads_json (status : RunStatus) :
    RunStatus.reader.Reads (.string status.name) status := by
  refine (reads_caseName status.name).bind ?_
  cases status <;> rfl

/-! ### Positions and ranges -/

theorem Position.reads_word (w : UInt32) : wordReader.Reads (.nat w.toNat) w := by
  have hle : w.toNat ≤ Width.largest 32 := Nat.le_sub_one_of_lt w.toNat_lt
  have hread := (reads_natUpTo hle).map (·.toUInt32)
  rw [show w.toNat.toUInt32 = w from UInt32.ofNat_toNat] at hread
  exact hread

theorem Position.reads_json (p : Position) : Position.reader.Reads p.json p := by
  intro depth hdepth
  obtain ⟨fields, hread, hfields⟩ :=
    Fields.exists_holds Position.fieldNames (List.Sublist.refl _) (by decide) hdepth
  have hline := hfields.required List.mem_cons_self (Position.reads_word p.line)
  have hcharacter := hfields.required (List.mem_cons_of_mem _ List.mem_cons_self)
    (Position.reads_word p.character)
  simp [Position.reader, Position.json, hread, hline, hcharacter]

theorem Range.reads_json (r : Range) : Range.reader.Reads r.json r := by
  intro depth hdepth
  obtain ⟨fields, hread, hfields⟩ :=
    Fields.exists_holds Range.fieldNames (List.Sublist.refl _) (by decide) hdepth
  have hstart := hfields.required List.mem_cons_self r.start.reads_json
  have hstop := hfields.required (List.mem_cons_of_mem _ List.mem_cons_self) r.stop.reads_json
  simp [Range.reader, Range.json, hread, hstart, hstop]

/-! ### Items -/

namespace TreeItem

/-- The ordinals of all keys in an item are 64-bit words. -/
inductive HasWordKeys : TreeItem → Prop
  | node {info : ItemInfo} {children : List TreeItem} (key : info.key.HasWordOrdinals)
      (below : ∀ c ∈ children, c.HasWordKeys) : HasWordKeys (.node info children)

theorem jsonAll_eq (items : List TreeItem) : jsonAll items = items.map json := by
  induction items with
  | nil => rfl
  | cons item rest ih => rw [jsonAll, ih, List.map_cons]

/-- The members that an item is written as. -/
def members (info : ItemInfo) (children : List TreeItem) : List (String × Json) :=
  [("key", info.key.json), ("label", .string info.label)] ++
    optionalMember "description" .string info.description ++
    [("kind", info.kind.json), ("status", ofOption RunStatus.json info.status),
      ("range", info.range.json), ("expanded", .bool info.expanded),
      ("children", .array (children.map json))]

theorem json_node (info : ItemInfo) (children : List TreeItem) :
    json (.node info children) = .object (members info children) := by
  rw [json, jsonAll_eq]
  rfl

theorem members_names (info : ItemInfo) (children : List TreeItem) :
    ((members info children).map (·.1)).Sublist ItemInfo.fieldNames := by
  rw [members, List.map_append, List.map_append]
  exact ((List.Sublist.refl _).append (optionalMember_names _ _ _)).append (List.Sublist.refl _)

/-- What is shown of a node alone is read back from the members of its item. -/
theorem read_info {fields : Fields} {info : ItemInfo} {children : List TreeItem}
    (h : fields.Holds (members info children)) (hkey : info.key.HasWordOrdinals) :
    ItemInfo.read fields = some info := by
  have hkey : fields.required "key" NodeKey.reader = some info.key :=
    h.required (by simp [members]) (NodeKey.reads_json hkey)
  have hlabel : fields.required "label" text = some info.label :=
    h.required (by simp [members]) (reads_text info.label)
  have hdescription : fields.nullable "description" text = some info.description :=
    h.nullable_optionalMember (fun m hm => by simp [members, hm])
      (fun hnone => by simp [members, optionalMember, hnone])
  have hkind : fields.required "kind" NodeKind.reader = some info.kind :=
    h.required (by simp [members]) info.kind.reads_json
  have hmem : ("status", ofOption RunStatus.json info.status) ∈ members info children := by
    simp [members]
  have hstatus : fields.nullable "status" RunStatus.reader = some info.status :=
    h.nullable hmem (reads_orNull RunStatus.reads_json info.status)
  have hrange : fields.required "range" Range.reader = some info.range :=
    h.required (by simp [members]) info.range.reads_json
  have hexpanded : fields.required "expanded" flag = some info.expanded :=
    h.required (by simp [members]) (reads_flag info.expanded)
  simp [ItemInfo.read, hkey, hlabel, hdescription, hkind, hstatus, hrange, hexpanded]

/-- An item is read back, items within it included, if there is fuel for its nesting. -/
theorem reads_json_within {item : TreeItem} (h : item.HasWordKeys) {fuel : Nat}
    (hfuel : item.json.nesting < fuel) : (readWithin fuel).Reads item.json item := by
  induction h generalizing fuel with
  | @node info children key below ih =>
      intro depth hdepth
      rw [json_node] at hfuel hdepth ⊢
      cases fuel with
      | zero => exact absurd hfuel (Nat.not_lt_zero _)
      | succ fuel =>
          have hmem : ("children", Json.array (children.map json)) ∈ members info children := by
            simp [members]
          have hfuel' : ∀ c ∈ children, c.json.nesting < fuel := by
            intro c hc
            have hchild := nesting_lt_array (List.mem_map_of_mem (f := json) hc)
            have harray : (Json.array (children.map json)).nesting <
                (Json.object (members info children)).nesting := nesting_lt_object hmem
            omega
          obtain ⟨fields, hread, hfields⟩ :=
            Fields.exists_holds _ (members_names info children) (by decide) hdepth
          have hchildren := hfields.required hmem
            (reads_listOf fun c hc => ih c hc (hfuel' c hc))
          simp [readWithin, hread, read_info hfields key, hchildren]

theorem reads_json {item : TreeItem} (h : item.HasWordKeys) :
    TreeItem.reader.Reads item.json item :=
  fun depth hdepth => reads_json_within h hdepth depth hdepth

theorem tellsOf (info : ItemInfo) (children : List TreeItem) :
    (json (.node info children)).TellsOf info.status info.description := by
  obtain ⟨key, label, description, kind, status, range, expanded⟩ := info
  constructor <;> cases description <;> cases status <;>
    simp [json, optionalMember, member?, lookup, ofOption, RunStatus.json]

end TreeItem

/-! ### Statuses of single nodes -/

namespace NodeStatus

/-- The members that a status is written as. -/
def members (s : NodeStatus) : List (String × Json) :=
  [("key", s.key.json), ("status", ofOption RunStatus.json s.status)] ++
    optionalMember "description" .string s.description

theorem json_eq (s : NodeStatus) : s.json = .object s.members := rfl

theorem members_names (s : NodeStatus) : (s.members.map (·.1)).Sublist fieldNames := by
  rw [members, List.map_append]
  exact (List.Sublist.refl _).append (optionalMember_names _ _ _)

theorem reads_json {s : NodeStatus} (hkey : s.key.HasWordOrdinals) :
    NodeStatus.reader.Reads s.json s := by
  intro depth hdepth
  rw [json_eq] at hdepth ⊢
  obtain ⟨fields, hread, hfields⟩ := Fields.exists_holds _ s.members_names (by decide) hdepth
  have hkey : fields.required "key" NodeKey.reader = some s.key :=
    hfields.required (by simp [members]) (NodeKey.reads_json hkey)
  have hmem : ("status", ofOption RunStatus.json s.status) ∈ s.members := by simp [members]
  have hstatus : fields.nullable "status" RunStatus.reader = some s.status :=
    hfields.nullable hmem (reads_orNull RunStatus.reads_json s.status)
  have hdescription : fields.nullable "description" text = some s.description :=
    hfields.nullable_optionalMember (fun m hm => by simp [members, hm])
      (fun hnone => by simp [members, optionalMember, hnone])
  simp [NodeStatus.reader, hread, hkey, hstatus, hdescription]

theorem tellsOf (s : NodeStatus) : s.json.TellsOf s.status s.description := by
  obtain ⟨key, status, description⟩ := s
  constructor <;> cases description <;> cases status <;>
    simp [json, optionalMember, member?, lookup, ofOption, RunStatus.json]

end NodeStatus

/-! ### Changes -/

namespace TreeChange

/-- The ordinals of all keys in a change are 64-bit words. -/
structure HasWordKeys (c : TreeChange) : Prop where
  items : ∀ item ∈ c.items, item.HasWordKeys
  removed : ∀ key ∈ c.removed, key.HasWordOrdinals
  statuses : ∀ s ∈ c.statuses, s.key.HasWordOrdinals

/-- The members that a change is written as. -/
def members (c : TreeChange) : List (String × Json) :=
  [("uri", c.uri.json)] ++
    listMember "items" (fun items => .array (items.map TreeItem.json)) c.items ++
    listMember "removed" (fun keys => .array (keys.map NodeKey.json)) c.removed ++
    listMember "statuses" (fun statuses => .array (statuses.map NodeStatus.json)) c.statuses

theorem json_eq (c : TreeChange) : c.json = .object c.members := by
  rw [json, members, funext TreeItem.jsonAll_eq]

theorem members_names (c : TreeChange) : (c.members.map (·.1)).Sublist fieldNames := by
  rw [members, List.map_append, List.map_append, List.map_append]
  exact (((List.Sublist.refl _).append (listMember_names _ _ _)).append
    (listMember_names _ _ _)).append (listMember_names _ _ _)

/-- What a change says nothing of is left out of its JSON form. -/
structure IsBrief (c : TreeChange) : Prop where
  items : c.json.member? "items" = none ↔ c.items = []
  removed : c.json.member? "removed" = none ↔ c.removed = []
  statuses : c.json.member? "statuses" = none ↔ c.statuses = []

theorem isBrief (c : TreeChange) : c.IsBrief := by
  obtain ⟨uri, items, removed, statuses⟩ := c
  constructor <;> cases items <;> cases removed <;> cases statuses <;>
    simp [json, listMember, member?, lookup]

theorem reads_json {c : TreeChange} (huri : Uri.parse? c.uri.text = some c.uri)
    (hkeys : c.HasWordKeys) : TreeChange.reader.Reads c.json c := by
  intro depth hdepth
  rw [json_eq] at hdepth ⊢
  obtain ⟨fields, hread, hfields⟩ := Fields.exists_holds _ c.members_names (by decide) hdepth
  have huri : fields.required "uri" Uri.reader = some c.uri :=
    hfields.required (by simp [members]) (Uri.reads_json huri)
  have hitems : fields.withDefault "items" [] (listOf TreeItem.reader) = some c.items :=
    hfields.withDefault_listMember (fun m hm => by simp [members, hm])
      (fun hnil => by simp [members, listMember, hnil])
      fun item hitem => TreeItem.reads_json (hkeys.items item hitem)
  have hremoved : fields.withDefault "removed" [] (listOf NodeKey.reader) = some c.removed :=
    hfields.withDefault_listMember (fun m hm => by simp [members, hm])
      (fun hnil => by simp [members, listMember, hnil])
      fun key hkey => NodeKey.reads_json (hkeys.removed key hkey)
  have hstatuses : fields.withDefault "statuses" [] (listOf NodeStatus.reader) = some c.statuses :=
    hfields.withDefault_listMember (fun m hm => by simp [members, hm])
      (fun hnil => by simp [members, listMember, hnil])
      fun s hs => NodeStatus.reads_json (hkeys.statuses s hs)
  simp [TreeChange.reader, hread, huri, hitems, hremoved, hstatuses]

end TreeChange

/-- A change is read back from its JSON form as it was, however deep its items go. In that form an
empty list and an absent description are left out, and an absent status is `null`. -/
theorem changes_are_read_back {c : TreeChange} (huri : Uri.parse? c.uri.text = some c.uri)
    (hkeys : c.HasWordKeys) :
    (∀ depth, c.json.nesting < depth → TreeChange.reader depth c.json.raw = some c) ∧
      c.IsBrief ∧
      (∀ info children,
        (TreeItem.json (.node info children)).TellsOf info.status info.description) ∧
      ∀ s : NodeStatus, s.json.TellsOf s.status s.description :=
  ⟨TreeChange.reads_json huri hkeys, c.isBrief, TreeItem.tellsOf, NodeStatus.tellsOf⟩

/-- A group with awkward names that holds a test that never ran, and a group whose result is gone. -/
def TreeChange.awkward : TreeChange where
  uri := ⟨"file", some { userinfo := "", host := .name "", port := none },
    .segments ["src", "cart_test.go"], none, none⟩
  items := [.node ⟨.awkward, "0", some "passed (3 ms)", .container, some .passed, ⟨⟨1, 0⟩, ⟨4, 2⟩⟩,
    true⟩ [.node ⟨.ofNames ["/#\\0", ""], "", none, .spec, none, ⟨⟨2, 4⟩, ⟨3, 5⟩⟩, false⟩ []]]
  removed := []
  statuses := [⟨.awkward, none, none⟩]

theorem changes_are_read_back_awkward :
    Uri.parse? TreeChange.awkward.uri.text = some TreeChange.awkward.uri ∧
      TreeChange.awkward.HasWordKeys ∧ TreeChange.awkward.json.nesting < 128 ∧
      TreeChange.reader 128 TreeChange.awkward.json.raw = some .awkward ∧
      TreeChange.awkward.json.member? "removed" = none := by
  have huri : Uri.parse? TreeChange.awkward.uri.text = some TreeChange.awkward.uri := by
    decide +kernel
  have hgroup : NodeKey.awkward.HasWordOrdinals := by decide +kernel
  have htest : (.ofNames ["/#\\0", ""] : NodeKey).HasWordOrdinals := by decide +kernel
  have hkeys : TreeChange.awkward.HasWordKeys := by
    refine ⟨List.forall_mem_singleton.mpr (.node hgroup ?_), List.forall_mem_nil _,
      List.forall_mem_singleton.mpr hgroup⟩
    exact List.forall_mem_singleton.mpr (.node htest (List.forall_mem_nil _))
  have hroom : TreeChange.awkward.json.nesting < 128 := by decide +kernel
  obtain ⟨hread, hbrief, -⟩ := changes_are_read_back huri hkeys
  exact ⟨huri, hkeys, hroom, hread 128 hroom, hbrief.removed.mpr rfl⟩

end SpecExplorer
