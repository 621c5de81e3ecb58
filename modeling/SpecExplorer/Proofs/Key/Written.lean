/-
# Keys in writing

The client names nodes by the written forms of their keys, so reading has to give back the key that
was written. The reader goes through the text with one segment under way, and what is proved by
induction says what it has under way after a written piece: the characters of the name, and after a
`#` those of the ordinal. A character of a name is added as it is, whether a backslash stands before
it or not. The mark of an empty name adds nothing, and cannot be part of a name, since a zero is
never escaped. An ordinal is read back as long as it is a 64-bit word, and the ordinals of a tree
count its nodes.
-/
import SpecExplorer.Key.Text
import SpecExplorer.Proofs.Text.Digits
import SpecExplorer.Proofs.Tree.Placed

namespace SpecExplorer

namespace NodeKey

/-- Every ordinal of a key is a 64-bit word. -/
def HasWordOrdinals (key : NodeKey) : Prop := ∀ s ∈ key.segments, s.ordinal ≤ Width.largest 64

instance (key : NodeKey) : Decidable key.HasWordOrdinals :=
  inferInstanceAs (Decidable (∀ s ∈ key.segments, s.ordinal ≤ Width.largest 64))

/-! ### Pieces of a segment -/

theorem isReserved_eq_false_of_isDigit {c : Char} (h : c.isDigit) : isReserved c = false := by
  rw [Bool.eq_false_iff]
  intro hreserved
  simp only [isReserved, Bool.or_eq_true, decide_eq_true_eq] at hreserved
  rcases hreserved with (rfl | rfl) | rfl <;> revert h <;> decide

/-- A character that is not reserved is added to what is under way. -/
theorem decodeFrom_cons (p : Partial) {c : Char} (h : isReserved c = false) (rest : List Char) :
    decodeFrom p (c :: rest) = decodeFrom (p.push c) rest := by
  simp only [isReserved, Bool.or_eq_false_iff, decide_eq_false_iff_not] at h
  obtain ⟨⟨hslash, hhash⟩, hbackslash⟩ := h
  rw [decodeFrom]
  all_goals simp_all

/-- So is a character of a name as it is written. -/
theorem decodeFrom_encodeChar (p : Partial) (c : Char) (rest : List Char) :
    decodeFrom p (encodeChar c ++ rest) = decodeFrom (p.push c) rest := by
  cases hreserved : isReserved c with
  | false =>
      rw [encodeChar, hreserved]
      exact decodeFrom_cons p hreserved rest
  | true =>
      have hzero : c ≠ '0' := by
        rintro rfl
        cases hreserved
      rw [encodeChar, hreserved]
      show decodeFrom p ('\\' :: c :: rest) = _
      rw [decodeFrom, if_neg hzero]

theorem decodeFrom_flatMap (p : Partial) (cs rest : List Char) :
    decodeFrom p (cs.flatMap encodeChar ++ rest) = decodeFrom (cs.foldl Partial.push p) rest := by
  induction cs generalizing p with
  | nil => rfl
  | cons c cs ih => rw [List.flatMap_cons, List.append_assoc, decodeFrom_encodeChar, ih]; rfl

theorem foldl_push_name (cs name : List Char) :
    cs.foldl Partial.push ⟨name, none⟩ = ⟨cs.reverse ++ name, none⟩ := by
  induction cs generalizing name with
  | nil => rfl
  | cons c cs ih =>
      rw [List.foldl_cons, List.reverse_cons, List.append_assoc]
      exact ih (c :: name)

theorem foldl_push_ordinal (cs name digits : List Char) :
    cs.foldl Partial.push ⟨name, some digits⟩ = ⟨name, some (cs.reverse ++ digits)⟩ := by
  induction cs generalizing digits with
  | nil => rfl
  | cons c cs ih =>
      rw [List.foldl_cons, List.reverse_cons, List.append_assoc]
      exact ih (c :: digits)

/-- After a written name the name is under way, be it empty or not. -/
theorem decodeFrom_encodeName (name rest : List Char) :
    decodeFrom .start (encodeName name ++ rest) = decodeFrom ⟨name.reverse, none⟩ rest := by
  cases name with
  | nil => rfl
  | cons c cs =>
      have hpushed := foldl_push_name (c :: cs) []
      rw [List.append_nil] at hpushed
      show decodeFrom .start ((c :: cs).flatMap encodeChar ++ rest) = _
      rw [decodeFrom_flatMap, Partial.start, hpushed]

/-- Digits are written in an ordinal as they would be in a name. -/
theorem flatMap_encodeChar_toDigits (n : Nat) :
    (Nat.toDigits 10 n).flatMap encodeChar = Nat.toDigits 10 n := by
  have hplain : ∀ c ∈ Nat.toDigits 10 n, encodeChar c = [c] := by
    intro c hc
    rw [encodeChar, isReserved_eq_false_of_isDigit (Text.isDigit_of_mem_toDigits hc)]
    rfl
  rw [List.flatMap_congr hplain, List.flatMap_singleton']

/-! ### Segments -/

/-- What is under way after a segment was read. -/
def Partial.ofSegment (s : Segment) : Partial where
  name := s.name.toList.reverse
  ordinal := if s.ordinal = 0 then none else some (Nat.toDigits 10 s.ordinal).reverse

theorem decodeFrom_encodeSegment (s : Segment) (rest : List Char) :
    decodeFrom .start (encodeSegment s ++ rest) = decodeFrom (.ofSegment s) rest := by
  rw [encodeSegment, List.append_assoc, decodeFrom_encodeName, Partial.ofSegment]
  by_cases hfirst : s.ordinal = 0
  · rw [if_pos hfirst, if_pos hfirst]
    rfl
  · have hpushed := foldl_push_ordinal (Nat.toDigits 10 s.ordinal) s.name.toList.reverse []
    have hread :=
      decodeFrom_flatMap ⟨s.name.toList.reverse, some []⟩ (Nat.toDigits 10 s.ordinal) rest
    rw [List.append_nil] at hpushed
    rw [flatMap_encodeChar_toDigits, hpushed] at hread
    rw [if_neg hfirst, if_neg hfirst, List.cons_append, decodeFrom]
    exact hread

theorem finish_ofSegment {s : Segment} (h : s.ordinal ≤ Width.largest 64) :
    (Partial.ofSegment s).finish = s := by
  obtain ⟨name, ordinal⟩ := s
  rw [Partial.ofSegment, Partial.finish, List.reverse_reverse, String.ofList_toList]
  by_cases hfirst : ordinal = 0
  · rw [if_pos hfirst, hfirst]
    rfl
  · rw [if_neg hfirst, Option.bind_some, List.reverse_reverse, Text.word?_toDigits h]
    rfl

/-! ### Keys -/

theorem decodeFrom_encode {s : Segment} {rest : List Segment}
    (h : ∀ q ∈ s :: rest, q.ordinal ≤ Width.largest 64) :
    decodeFrom .start (encode (s :: rest)) = s :: rest := by
  induction rest generalizing s with
  | nil =>
      have hread := decodeFrom_encodeSegment s []
      rw [List.append_nil] at hread
      rw [encode, hread, decodeFrom, finish_ofSegment (h s List.mem_cons_self)]
  | cons q rest ih =>
      have hrest := ih fun q hq => h q (List.mem_cons_of_mem _ hq)
      show decodeFrom .start (encodeSegment s ++ '/' :: encode (q :: rest)) = _
      rw [decodeFrom_encodeSegment, decodeFrom, finish_ofSegment (h s List.mem_cons_self), hrest]

theorem encodeChar_ne_nil (c : Char) : encodeChar c ≠ [] := by
  cases hreserved : isReserved c <;> simp [encodeChar, hreserved]

theorem encodeName_ne_nil (name : List Char) : encodeName name ≠ [] := by
  cases name with
  | nil => exact List.cons_ne_nil _ _
  | cons c cs => exact List.append_ne_nil_of_left_ne_nil (encodeChar_ne_nil c) _

theorem encodeSegment_ne_nil (s : Segment) : encodeSegment s ≠ [] :=
  List.append_ne_nil_of_left_ne_nil (encodeName_ne_nil _) _

/-- Only the key of the file is written as nothing. -/
theorem encode_eq_nil_iff {segments : List Segment} : encode segments = [] ↔ segments = [] := by
  match segments with
  | [] => simp [encode]
  | [s] => simp [encode, encodeSegment_ne_nil]
  | s :: q :: rest => simp [encode]

theorem decode_encode {segments : List Segment} (h : ∀ s ∈ segments, s.ordinal ≤ Width.largest 64) :
    decode (encode segments) = segments := by
  cases segments with
  | nil => rfl
  | cons s rest =>
      have hne : encode (s :: rest) ≠ [] := by
        rw [ne_eq, encode_eq_nil_iff]
        exact List.cons_ne_nil s rest
      rw [decode, if_neg (by simpa using hne), decodeFrom_encode h]

theorem parse_text {key : NodeKey} (h : key.HasWordOrdinals) : parse key.text = key := by
  rw [parse, text, String.toList_ofList, decode_encode h]

theorem text_eq_empty_iff {key : NodeKey} : key.text = "" ↔ key = .root := by
  obtain ⟨segments⟩ := key
  rw [text, root, mk.injEq, ← encode_eq_nil_iff]
  exact String.ofList_eq_empty_iff

end NodeKey

/-! ### Keys of trees -/

namespace OutlineNode

theorem count_pos (n : OutlineNode) : 0 < n.count := by
  cases n
  rw [count]
  omega

theorem length_le_countAll (ns : List OutlineNode) : ns.length ≤ countAll ns := by
  induction ns with
  | nil => exact Nat.le_refl _
  | cons n rest ih =>
      have hpos := n.count_pos
      rw [countAll, List.length_cons]
      omega

theorem count_le_countAll {n : OutlineNode} {ns : List OutlineNode} (hn : n ∈ ns) :
    n.count ≤ countAll ns := by
  induction ns with
  | nil => cases hn
  | cons m rest ih =>
      rw [countAll]
      rcases List.mem_cons.mp hn with rfl | hrest
      · omega
      · have hle := ih hrest
        omega

theorem countAll_children_lt (n : OutlineNode) : countAll n.children < n.count := by
  cases n
  rw [count, children_node]
  omega

/-- The ordinal of a sibling is smaller than the number of nodes. -/
theorem ordinal_siblingKey_lt {parent : NodeKey} {ns : List OutlineNode} {i : Nat}
    {n : OutlineNode} (hn : ns[i]? = some n) {s : Segment}
    (hs : s ∈ (siblingKey parent ns i n).segments) :
    s ∈ parent.segments ∨ s.ordinal < countAll ns := by
  rcases List.mem_append.mp hs with hs | hs
  · exact .inl hs
  · obtain rfl := List.mem_singleton.mp hs
    have hlt := (List.getElem?_eq_some_iff.mp hn).1
    have hcount := List.countP_le_length (p := (·.info.name == n.info.name)) (l := ns.take i)
    have hall := length_le_countAll ns
    rw [List.length_take] at hcount
    exact .inr (by show List.countP _ _ < _; omega)

/-- So is every ordinal on the way to a place. -/
theorem ordinal_locate?_lt {key k : NodeKey} {n m : OutlineNode} {place : List Nat}
    (h : n.locate? key place = some (k, m)) {s : Segment} (hs : s ∈ k.segments) :
    s ∈ key.segments ∨ s.ordinal < n.count := by
  induction place generalizing key n with
  | nil =>
      obtain ⟨rfl, rfl⟩ := Prod.mk.inj (Option.some.inj h)
      exact .inl hs
  | cons i rest ih =>
      obtain ⟨c, hc, hrest⟩ := Option.bind_eq_some_iff.mp h
      have hchildren := n.countAll_children_lt
      rcases ih hrest with hkey | hlt
      · exact (ordinal_siblingKey_lt hc hkey).imp_right fun hlt => Nat.lt_trans hlt hchildren
      · have hle := count_le_countAll (List.mem_of_getElem? hc)
        exact .inr (by omega)

end OutlineNode

/-- The ordinals of an outline are smaller than the number of its nodes. -/
theorem Outline.HasKey.ordinal_lt {o : Outline} {key : NodeKey} (h : o.HasKey key) {s : Segment}
    (hs : s ∈ key.segments) : s.ordinal < o.size := by
  obtain ⟨place, m, hlocate⟩ := h
  cases place with
  | nil => cases hlocate
  | cons i rest =>
      obtain ⟨n, hn, hrest⟩ := Option.bind_eq_some_iff.mp hlocate
      rcases OutlineNode.ordinal_locate?_lt hrest hs with hkey | hlt
      · rcases OutlineNode.ordinal_siblingKey_lt hn hkey with hroot | hlt
        · cases hroot
        · exact hlt
      · exact Nat.lt_of_lt_of_le hlt (OutlineNode.count_le_countAll (List.mem_of_getElem? hn))

namespace TestTree

variable {previous : Option TestTree} {o : Outline} {name : String}

/-- The ordinals of a tree are words as long as its outline has no more nodes than there are
words. -/
theorem hasWordOrdinals_of_contains (hsize : o.size ≤ Width.count 64) {key : NodeKey}
    (h : (ofOutline previous o name).contains key) : key.HasWordOrdinals := by
  intro s hs
  rcases contains_ofOutline_iff.mp h with rfl | hkey
  · cases hs
  · exact Nat.le_sub_one_of_lt (Nat.lt_of_lt_of_le (hkey.ordinal_lt hs) hsize)

theorem find?_parse_text (hsize : o.size ≤ Width.count 64) {s : TestTree}
    (hs : s ∈ (merge previous o name).1.subtrees) :
    (merge previous o name).1.find? (.parse s.key.text) = some s := by
  have hword := hasWordOrdinals_of_contains hsize (contains_iff.mpr ⟨s, hs, rfl⟩)
  rw [NodeKey.parse_text hword]
  exact (ofOutline_keyed previous o name).find?_key hs

end TestTree

/-- A key is read back from its written form, so that different keys are written differently, and
nothing stands for the file alone. In every tree of an outline the written form of a key leads back
to its node. -/
theorem written_keys_name_their_nodes :
    (∀ key : NodeKey, key.HasWordOrdinals → .parse key.text = key) ∧
    (∀ a b : NodeKey, a.HasWordOrdinals → b.HasWordOrdinals → a ≠ b → a.text ≠ b.text) ∧
    (∀ key : NodeKey, key.text = "" ↔ key = .root) ∧
    ∀ (previous : Option TestTree) (o : Outline) (name : String), o.size ≤ Width.count 64 →
      ∀ s ∈ (TestTree.merge previous o name).1.subtrees,
        (TestTree.merge previous o name).1.find? (.parse s.key.text) = some s := by
  refine ⟨fun key hkey => NodeKey.parse_text hkey, ?_, fun key => NodeKey.text_eq_empty_iff, ?_⟩
  · intro a b ha hb hne htext
    apply hne
    calc a = .parse a.text := (NodeKey.parse_text ha).symm
      _ = .parse b.text := congrArg NodeKey.parse htext
      _ = b := NodeKey.parse_text hb
  · intro previous o name hsize s hs
    exact TestTree.find?_parse_text hsize hs

/-- Names made of reserved characters, an empty name and a lone zero. -/
def NodeKey.awkward : NodeKey := ⟨[⟨"/#\\0", 12⟩, ⟨"", 0⟩, ⟨"0", 1⟩]⟩

theorem written_keys_name_their_nodes_awkward :
    NodeKey.awkward.HasWordOrdinals ∧
      NodeKey.awkward.text = "\\/\\#\\\\0#12/\\0/0#1" ∧
      .parse NodeKey.awkward.text = NodeKey.awkward ∧
      (.ofNames [""] : NodeKey).text ≠ (.ofNames ["0"] : NodeKey).text ∧
      ∀ s ∈ (TestTree.merge none .cart "cart_test.go").1.subtrees,
        (TestTree.merge none .cart "cart_test.go").1.find? (.parse s.key.text) = some s := by
  obtain ⟨hread, hdistinct, -, hfound⟩ := written_keys_name_their_nodes
  have hwords : NodeKey.awkward.HasWordOrdinals := by decide +kernel
  have hempty : (.ofNames [""] : NodeKey).HasWordOrdinals := by decide +kernel
  have hzero : (.ofNames ["0"] : NodeKey).HasWordOrdinals := by decide +kernel
  exact ⟨hwords, by decide +kernel, hread _ hwords, hdistinct _ _ hempty hzero (by decide),
    hfound none .cart "cart_test.go" (by decide +kernel)⟩

end SpecExplorer
