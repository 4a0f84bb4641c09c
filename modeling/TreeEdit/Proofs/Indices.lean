import TreeEdit.Proofs.Performed
import TreeEdit.Proofs.Roles

/-!
# Places and indices

An edit names a child by a place of its parent and an index there; a path has the index among all the
children. The one is found from the other by counting the children in the places before
(`Kind.getElem?_before`), and how many there are in each place is settled by the kind of the parent and the
number of its children (`Kind.sizes_eq`). So an edit that puts a text in says where, in the node it is made
in and in every node of this kind with as many children: `Edit.Fits.exists_child`.
-/

namespace TreeEdit

open Edit

/-! ## The places of a kind -/

namespace Kind

variable {α : Type}

/-- How many children stand in the places before one. -/
def before (k : Kind α) (field : String) : Nat :=
  ((k.slots.takeWhile (·.field != field)).flatMap Slot.nodes).length

/-- The places by their names, with the number of children in each. -/
def sizes (k : Kind α) : List (String × Nat) := k.slots.map fun s => (s.field, s.nodes.length)

/-- The places of a node of a kind, given by its name, with the number of children in each, from how many
there are. -/
def sizesOf (name : String) (count : Nat) : List (String × Nat) :=
  match name with
  | "FunctionApp" => [("func", 1), ("args", count - 1)]
  | "IdentifierList" => [("ids", count)]
  | "VariableDefinition" => [("name", 1), ("body", 1)]
  | "FunctionDefinition" => [("name", 1), ("params", 1), ("body", 1)]
  | "Lambda" => [("args", 1), ("body", 1)]
  | "StructDefinition" => [("name", 1), ("fields", 1)]
  | "If" => [("test", 1), ("then", 1), ("else", count - 2)]
  | "Cond" => [("clauses", count)]
  | "CondClause" => [("test", 1), ("body", count - 1)]
  | "LetLike" => [("bindings", count - 1), ("body", 1)]
  | "Binding" => [("name", 1), ("value", 1)]
  | "WhenUnless" => [("predicate", 1), ("exprs", count - 1)]
  | "Sequence" => [("exprs", count)]
  | "Unknown" => [("elts", count)]
  | _ => []

theorem sizes_eq (k : Kind α) : k.sizes = sizesOf k.name k.children.length := by
  cases k <;> simp [sizes, sizesOf, name, children, slots, Slot.field, Slot.nodes]

theorem before_eq_sum (k : Kind α) (field : String) :
    k.before field = ((k.sizes.takeWhile (·.1 != field)).map Prod.snd).sum := by
  rw [sizes, List.takeWhile_map, List.map_map, before, List.length_flatMap]
  rfl

theorem before_of_sizes {β : Type} {k : Kind α} {k' : Kind β} (h : k.sizes = k'.sizes) (field : String) :
    k.before field = k'.before field := by
  rw [before_eq_sum, before_eq_sum, h]

theorem slot?_of_sizes {β : Type} {k : Kind α} {k' : Kind β} (h : k.sizes = k'.sizes) {field : String} {s : Slot α}
    (hs : k.slot? field = some s) : ∃ s', k'.slot? field = some s' ∧ s'.nodes.length = s.nodes.length := by
  obtain ⟨hmem, hfield⟩ := slot?_eq_some_iff.1 hs
  have hsize : (s.field, s.nodes.length) ∈ k'.sizes := by
    rw [← h]
    exact List.mem_map_of_mem hmem
  obtain ⟨s', hs', heq⟩ := List.mem_map.1 hsize
  obtain ⟨hfield', hlength⟩ := Prod.mk.inj heq
  exact ⟨s', slot?_eq_some_iff.2 ⟨hs', hfield'.trans hfield⟩, hlength⟩

/-- The children in a place stand behind those in the places before it. -/
theorem getElem?_before {k : Kind α} {field : String} {s : Slot α} (h : k.slot? field = some s) {i : Nat}
    (hi : i < s.nodes.length) : k.children[k.before field + i]? = s.nodes[i]? := by
  obtain ⟨hfield, earlier, later, hslots, hearlier⟩ := List.find?_eq_some_iff_append.1 h
  have htake : k.slots.takeWhile (·.field != field) = earlier := by
    rw [hslots, List.takeWhile_append_of_pos, List.takeWhile_cons_of_neg, List.append_nil]
    · simpa using hfield
    · simpa [bne] using hearlier
  rw [before, htake, children, hslots, List.flatMap_append, List.flatMap_cons, List.getElem?_append_right (by omega),
    Nat.add_sub_cancel_left, List.getElem?_append_left hi]

end Kind

/-! ## A text put in -/

/-- There is something at an index where something is put in first. -/
theorem lt_length_weave {before : Nat → List Node} {left : Node → Option Node} {ns : List Node} {i : Nat}
    (hput : before i ≠ []) (hbefore : ∀ j < i, before j = []) (hleft : ∀ n ∈ ns.take i, left n = some n)
    (hi : i ≤ ns.length) : i < (weave before left 0 ns).length := by
  have hpos : 0 < (before i).length := List.length_pos_iff.2 hput
  rw [weave_take i (fun j _ hj => hbefore j (by omega)) hleft hi, List.length_append, List.length_take, Nat.zero_add]
  cases ns.drop i with
  | nil =>
      show i < min i ns.length + (before i).length
      omega
  | cons n rest =>
      rw [weave, List.length_append]
      omega

namespace Edit

variable {e : Edit} {text : String}

/-- An edit that puts a text in leaves something of every child. -/
theorem left_isSome_of_text (h : e.text? = some text) (n : Node) : (left [e] n).isSome := by
  obtain ⟨start, stop, kind⟩ := e
  cases kind with
  | insertChild => rfl
  | replaceChild node =>
      by_cases hnode : node = n.id <;> simp [left, fate, fateOf?, hnode]
  | _ => cases h

/-- A place into which nothing is put keeps the number of its children, if something is left of each. -/
theorem length_refit {edits : List Edit} {s : Slot Node} (hleft : ∀ n, (left edits n).isSome)
    (hput : ∀ i, putIn edits s.field i = []) : (s.refit (refit edits)).nodes.length = s.nodes.length := by
  cases s with
  | required field n => rfl
  | optional field n =>
      have hnone : putIn edits field 0 = [] := hput 0
      cases n with
      | none => simp [Slot.refit, Slot.nodes, hnone]
      | some n =>
          obtain ⟨m, hm⟩ := Option.isSome_iff_exists.1 (hleft n)
          simp [Slot.refit, Slot.nodes, hm]
  | list field ns =>
      have hnone : putIn edits field = fun _ => [] := funext hput
      simp only [Slot.refit, Slot.nodes, refit_list, hnone, weave_nil]
      exact List.filterMap_length_eq_length.2 fun n _ => hleft n

theorem putIn_of_other {parent : NodeId} {field : String} {index : Nat} (hplace : e.place? = some (parent, field, index))
    {field' : String} (hne : field' ≠ field) (i : Nat) : putIn [e] field' i = [] := by
  obtain ⟨start, stop, kind⟩ := e
  cases kind with
  | insertChild parent' =>
      cases hplace
      simp [putIn, putIn?, hne.symm]
  | _ => rfl

end Edit

namespace Edit.Fits

variable {e : Edit} {m : Node} (h : e.Fits m) {text : String} (htext : e.text? = some text) {field : String}
  {index : Nat} (hplace : e.place? = some (m.id, field, index))

include h

theorem kind_edited_eq : (m.edited [e]).kind = (m.kind.map (Node.edited [e])).refit (refit [e]) := by
  rw [Node.kind_edited, inside, List.filter_singleton, h.parent?_eq]
  simp

include htext hplace

/-- An edit that puts a text in puts it in at an index of the place it is about. -/
theorem slot_edited : ∃ s, (m.edited [e]).kind.slot? field = some s ∧ index < s.nodes.length := by
  have hslot : ∀ s, m.kind.slot? field = some s →
      (m.edited [e]).kind.slot? field = some ((s.map (Node.edited [e])).refit (refit [e])) := by
    intro s hs
    obtain ⟨hmem, hfield⟩ := Kind.slot?_eq_some_iff.1 hs
    rw [h.kind_edited_eq, Kind.slot?_eq_some_iff, Kind.slots_refit, Kind.slots_map, List.map_map]
    exact ⟨List.mem_map_of_mem hmem, by rw [Slot.field_refit, Slot.field_map, hfield]⟩
  cases h with
  | @insertList pos field' text' ns place =>
      cases hplace
      refine ⟨_, hslot _ place, ?_⟩
      refine lt_length_weave ?_ (fun j hj => ?_) (fun n _ => rfl) ?_
      · simp [putIn, putIn?]
      · simp [putIn, putIn?, hj.ne']
      · rw [List.length_map]
        exact List.findIdx_le_length
  | @insertOptional pos field' text' place =>
      cases hplace
      refine ⟨_, hslot _ place, ?_⟩
      simp [Slot.map, Slot.refit, Slot.nodes, putIn, putIn?]
  | delete => cases htext
  | @replace c s field' text' index' place child =>
      cases hplace
      refine ⟨_, hslot _ place, ?_⟩
      rw [length_refit (left_isSome_of_text htext) fun i => rfl, Slot.nodes_map, List.length_map]
      exact (List.getElem?_eq_some_iff.1 child).1

/-- An edit that puts a text in changes nothing before the place it is about. -/
theorem before_edited : (m.edited [e]).kind.before field = m.kind.before field := by
  rw [Kind.before, Kind.before, h.kind_edited_eq, Kind.slots_refit, Kind.slots_map, List.map_map, List.takeWhile_map,
    List.length_flatMap, List.length_flatMap, List.map_map]
  have hfields : ((fun s : Slot Node => s.field != field) ∘ Slot.refit (refit [e]) ∘ Slot.map (Node.edited [e])) =
      fun s => s.field != field := by
    funext s
    simp
  rw [hfields]
  congr 1
  refine List.map_congr_left fun s hs => ?_
  have hne : s.field ≠ field := by simpa using List.mem_takeWhile_imp hs
  have hput : ∀ i, putIn [e] (s.map (Node.edited [e])).field i = [] := by
    rw [Slot.field_map]
    exact putIn_of_other hplace hne
  show ((s.map (Node.edited [e])).refit (refit [e])).nodes.length = s.nodes.length
  rw [length_refit (left_isSome_of_text htext) hput, Slot.nodes_map, List.length_map]

/-- A node of the same kind as the one with the text put in, and with as many children, has a child at the
index where the text is put in. -/
theorem exists_child {n : Node} (hname : n.kind.name = m.kind.name)
    (hlength : n.children.length = (m.edited [e]).children.length) :
    ∃ s c, n.kind.slot? field = some s ∧ s.nodes[index]? = some c ∧
      n.children[m.kind.before field + index]? = some c := by
  obtain ⟨s, hs, hindex⟩ := h.slot_edited htext hplace
  have hnames : (m.edited [e]).kind.name = n.kind.name := by
    rw [h.kind_edited_eq, Kind.name_refit, Kind.name_map, hname]
  have hsizes : (m.edited [e]).kind.sizes = n.kind.sizes := by
    rw [Kind.sizes_eq, Kind.sizes_eq, hnames]
    exact congrArg _ hlength.symm
  obtain ⟨s', hs', hlen⟩ := Kind.slot?_of_sizes hsizes hs
  rw [← hlen] at hindex
  have hchild := List.getElem?_eq_getElem hindex
  refine ⟨s', s'.nodes[index], hs', hchild, ?_⟩
  rw [← h.before_edited htext hplace, Kind.before_of_sizes hsizes]
  exact (Kind.getElem?_before hs' hindex).trans hchild

end Edit.Fits

/-! ## The index of an insertion -/

/-- Among nodes one behind the other, the position at an index leads back to the index, as far as there are
nodes. -/
theorem findIdx_indexPos {ns : List Node} (hordered : ns.Pairwise fun a b => a.range.stop ≤ b.range.start)
    (hproper : ∀ n ∈ ns, n.range.start < n.range.stop) (index : Nat) (pos : Pos) :
    (ns.findIdx fun n => Tree.indexPos ns index pos ≤ n.range.start) = min index ns.length := by
  by_cases hlt : index < ns.length
  · have hpos : Tree.indexPos ns index pos = ns[index].range.start := by
      rw [Tree.indexPos, List.getElem?_eq_getElem hlt]
    rw [hpos, min_eq_left hlt.le, List.findIdx_eq hlt]
    refine ⟨by simp, fun j hj => ?_⟩
    have hle := List.pairwise_iff_getElem.1 hordered j index (hj.trans hlt) hlt hj
    simpa using (hproper _ (List.getElem_mem (hj.trans hlt))).trans_le hle
  · rw [min_eq_right (not_lt.1 hlt), List.findIdx_eq_length]
    intro n hn
    obtain ⟨init, last, rfl⟩ := (List.eq_nil_or_concat' ns).resolve_left (List.ne_nil_of_mem hn)
    have hpos : Tree.indexPos (init ++ [last]) index pos = last.range.stop := by
      rw [Tree.indexPos, List.getElem?_eq_none (not_lt.1 hlt), List.getLast?_concat]
    have hlast := hproper last (by simp)
    rw [hpos]
    rcases List.mem_append.1 hn with hn | hn
    · have hle := (List.pairwise_append.1 hordered).2.2 n hn last (List.mem_singleton_self last)
      simpa using ((hproper n (List.mem_append_left _ hn)).trans_le hle).trans hlast
    · obtain rfl := List.mem_singleton.1 hn
      simpa using hlast

theorem Node.range_of_uncommented {n : Node} (h : n.comment = none) : n.range = n.span := by
  rw [range, h]

namespace Tree

variable {t : Tree} {doc : List Lexeme} (ht : t.Orderly doc) (hcomments : ∀ n ∈ t.nodes, n.comment = none)

include ht hcomments

/-- Without comments the parts of a node have their ranges one behind the other. -/
theorem Orderly.parts_ranges {m : Node} (hm : t.Stands m) :
    m.kind.parts.Pairwise (fun a b => a.range.stop ≤ b.range.start) ∧
      ∀ c ∈ m.kind.parts, c.range.start < c.range.stop := by
  have hstands : ∀ c ∈ m.kind.parts, t.Stands c := fun c hc => hm.within (.part hc (.self c))
  refine ⟨?_, fun c hc => ht.range_proper (hstands c hc)⟩
  refine (ht.settled hm).parts_ordered.imp_of_mem fun {a b} ha hb hle => ?_
  rwa [Node.range_of_uncommented (hcomments a (hstands a ha).mem_nodes),
    Node.range_of_uncommented (hcomments b (hstands b hb).mem_nodes)]

theorem Orderly.list_ranges {m : Node} (hm : m ∈ t.nodes) {field : String} {ns : List Node}
    (hplace : m.kind.slot? field = some (.list field ns)) :
    ns.Pairwise (fun a b => a.range.stop ≤ b.range.start) ∧ ∀ c ∈ ns, c.range.start < c.range.stop := by
  obtain ⟨hmem, -⟩ := Kind.slot?_eq_some_iff.1 hplace
  have hchildren : m.kind.parts = m.children := by
    refine Node.parts_eq_children fun name params body hk => ?_
    rw [hk] at hmem
    simp [Kind.slots] at hmem
  have hparts : ns.Sublist m.kind.parts := by
    rw [hchildren]
    exact List.sublist_flatten_of_mem (List.mem_map_of_mem hmem)
  obtain ⟨root, hroot, hwalk⟩ := List.mem_flatMap.1 hm
  rcases Node.within_of_mem_walk hwalk with hwithin | ⟨f, name, body, hf, hk, hheader⟩
  · have hranges := ht.parts_ranges hcomments ⟨root, hroot, hwithin⟩
    exact ⟨hranges.1.sublist hparts, fun c hc => hranges.2 c (hparts.subset hc)⟩
  · -- The parameters stand among the parts of the function.
    have hsub : ns.Sublist f.kind.parts := by
      rw [hk]
      refine (hheader ▸ hparts).trans ?_
      exact (List.sublist_append_left _ _).cons _
    have hranges := ht.parts_ranges hcomments ⟨root, hroot, hf⟩
    exact ⟨hranges.1.sublist hsub, fun c hc => hranges.2 c (hsub.subset hc)⟩

end Tree

/-! ## The place of what is put in -/

theorem Node.exists_locate {n c : Node} (hc : c ∈ n.children) : ∃ field index, n.locate c.id = .ok (field, index) := by
  obtain ⟨s, hs, hcs⟩ := List.mem_flatMap.1 hc
  have hindex : (s.nodes.findIdx? (·.id == c.id)).isSome := by
    rw [List.findIdx?_isSome, List.any_eq_true]
    exact ⟨c, hcs, beq_self_eq_true c.id⟩
  have hfound : (n.kind.slots.findSome? fun slot =>
      (slot.nodes.findIdx? (·.id == c.id)).map fun index => (slot.field, index)).isSome := by
    rw [List.findSome?_isSome_iff]
    exact ⟨s, hs, by rwa [Option.isSome_map]⟩
  obtain ⟨⟨field, index⟩, hplace⟩ := Option.isSome_iff_exists.1 hfound
  exact ⟨field, index, by rw [locate, hplace]⟩

/-- The edit puts the text in as the child at an index of the node at the path: it replaces the child that is
there, or it inserts the text at an index of a list of children. -/
inductive Edit.PutsAt (t : Tree) (text : String) (path : Path) : Nat → Edit → Prop
  | replace {parent n : Node} {j : Nat} {e : Edit} (parent_at : t.at? path = some parent)
      (child : parent.children[j]? = some n) (made : Edit.replace t text n.id = .ok e) : PutsAt t text path j e
  | insertAt {parent : Node} {field : String} {nodes : List Node} {i : Nat} {e : Edit}
      (parent_at : t.at? path = some parent) (place : parent.kind.slot? field = some (.list field nodes))
      (made : Edit.insertAt t text (some parent.id) field i = .ok e) :
      PutsAt t text path (parent.kind.before field + min i nodes.length) e

/-- What an edit that puts a text in is about. -/
theorem Edit.PutsAt.fits {t : Tree} {doc : List Lexeme} (ht : t.Orderly doc)
    (hcomments : ∀ n ∈ t.nodes, n.comment = none) {text : String} (hne : text ≠ "") {path : Path} {j : Nat} {e : Edit}
    (h : PutsAt t text path j e) :
    ∃ parent field index, t.at? path = some parent ∧ e.Fits parent ∧ e.text? = some text ∧
      e.place? = some (parent.id, field, index) ∧ j = parent.kind.before field + index := by
  cases h with
  | @replace parent n j e parent_at child made =>
      have hparent : parent ∈ t.nodes := Tree.mem_nodes_iff.2 ⟨path, parent_at⟩
      have hchild : n ∈ parent.children := List.mem_of_getElem? child
      obtain ⟨field, index, hplace⟩ := Node.exists_locate hchild
      rw [replace_of_child ht.distinct hparent hchild hplace hne] at made
      cases made
      have hnode := Tree.mem_nodes_of_mem_walk hparent (Node.mem_walk_of_child hchild)
      obtain ⟨-, -, s, hs, hn⟩ := located ht.distinct (find_eq ht.distinct hnode)
        (ht.distinct.parent?_of_child hparent hchild) hplace
      refine ⟨parent, field, index, parent_at, .replace hs hn, rfl, rfl, ?_⟩
      have hsame : parent.children[parent.kind.before field + index]? = some n :=
        (Kind.getElem?_before hs (List.getElem?_eq_some_iff.1 hn).1).trans hn
      rw [← Tree.at?_concat parent_at] at child hsame
      simpa using ht.distinct.path_unique child hsame
  | @insertAt parent field nodes i e parent_at place made =>
      have hparent : parent ∈ t.nodes := Tree.mem_nodes_iff.2 ⟨path, parent_at⟩
      rw [insertAt_of_slot ht.distinct hparent place rfl rfl] at made
      cases made
      obtain ⟨hordered, hproper⟩ := ht.list_ranges hcomments hparent place
      refine ⟨parent, field, _, parent_at, .insertList place, rfl, rfl, ?_⟩
      rw [show Slot.nodes (.list field nodes) = nodes from rfl, findIdx_indexPos hordered hproper]

end TreeEdit
