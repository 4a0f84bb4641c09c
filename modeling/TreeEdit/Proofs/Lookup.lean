import TreeEdit.Proofs.Changes
import TreeEdit.Proofs.InTurn

/-!
# Nodes looked up in a tree

If every node of a tree has an identity of its own (`Tree.Distinct`), the tree finds each node by its
identity, and its parent too. So an edit that was made against the tree fits the node in whose place it
is: `Edit.Built.fits`.
-/

namespace TreeEdit

/-! ## Paths -/

namespace Node

theorem at?_append (n : Node) (path rest : Path) : n.at? (path ++ rest) = (n.at? path).bind (·.at? rest) := by
  induction path generalizing n with
  | nil => rfl
  | cons i path ih =>
      rw [List.cons_append, at?_cons, at?_cons, Option.bind_assoc]
      congr 1
      funext c
      exact ih c

theorem mem_walk_iff {n m : Node} : m ∈ n.walk ↔ ∃ path, n.at? path = some m := by
  rw [← paths_map_snd, List.mem_map]
  constructor
  · rintro ⟨⟨path, _⟩, hpath, rfl⟩
    exact ⟨path, at?_of_mem_paths hpath⟩
  · rintro ⟨path, hpath⟩
    exact ⟨_, mem_paths_of_at? hpath, rfl⟩

end Node

theorem Forest.at?_append (roots : List Node) {path : Path} (hpath : path ≠ []) (rest : Path) :
    at? roots (path ++ rest) = (at? roots path).bind (·.at? rest) := by
  cases path with
  | nil => exact absurd rfl hpath
  | cons i path =>
      rw [List.cons_append, at?, at?, Option.bind_assoc]
      congr 1
      funext root
      exact root.at?_append path rest

theorem Forest.ne_nil_of_at? {ns : List Node} {path : Path} {n : Node} (h : at? ns path = some n) : path ≠ [] := by
  rintro rfl
  cases h

/-- The child at an index of the node at a path. -/
theorem Tree.at?_concat {t : Tree} {path : Path} {n : Node} (hn : t.at? path = some n) (j : Nat) :
    t.at? (path ++ [j]) = n.children[j]? := by
  rw [Tree.at?, Forest.at?_append _ (Forest.ne_nil_of_at? hn), show Forest.at? t.roots path = some n from hn]
  show n.at? [j] = _
  rw [Node.at?_cons]
  cases n.children[j]? <;> rfl

/-! ## Trees with distinct identities -/

namespace Tree

variable {t : Tree}

theorem mem_nodes_iff {n : Node} : n ∈ t.nodes ↔ ∃ path, t.at? path = some n := Forest.mem_nodes_iff

theorem mem_nodes_of_mem_walk {n m : Node} (hn : n ∈ t.nodes) (hm : m ∈ n.walk) : m ∈ t.nodes := by
  obtain ⟨root, hroot, hn⟩ := List.mem_flatMap.1 hn
  exact List.mem_flatMap.2 ⟨root, hroot, Node.mem_walk_trans hn hm⟩

theorem root_mem_nodes {root : Node} (h : root ∈ t.roots) : root ∈ t.nodes :=
  List.mem_flatMap.2 ⟨root, h, root.mem_walk_self⟩

/-- Every node of the tree has an identity of its own. -/
structure Distinct (t : Tree) : Prop where
  nodup : t.ids.Nodup
  assigned : .unassigned ∉ t.ids

namespace Distinct

variable (h : t.Distinct)

include h

theorem eq_of_id_eq {n m : Node} (hn : n ∈ t.nodes) (hm : m ∈ t.nodes) (heq : n.id = m.id) : n = m :=
  List.inj_on_of_nodup_map h.nodup hn hm heq

theorem identified {n : Node} (hn : n ∈ t.nodes) : n.Identified := by
  obtain ⟨root, hroot, hn⟩ := List.mem_flatMap.1 hn
  have hsub : root.ids.Sublist t.ids := by
    rw [ids, nodes, Forest.nodes, List.flatMap_def, List.map_flatten, List.map_map]
    exact List.sublist_flatten_of_mem (List.mem_map_of_mem (f := fun n => n.walk.map Node.id) hroot)
  exact Node.Identified.of_mem ⟨h.nodup.sublist hsub, fun hmem => h.assigned (hsub.subset hmem)⟩ hn

/-- A node stands at one path. -/
theorem path_unique {n : Node} {p q : Path} (hp : t.at? p = some n) (hq : t.at? q = some n) : p = q :=
  path_unique_of_nodup h.nodup hp hq rfl

theorem pathOf?_eq {n : Node} {path : Path} (hat : t.at? path = some n) : t.pathOf? n.id = some path :=
  pathOf?_of_nodup h.nodup hat

theorem get?_eq {n : Node} (hn : n ∈ t.nodes) : t.get? n.id = some n := by
  obtain ⟨path, hat⟩ := mem_nodes_iff.1 hn
  rw [get?, h.pathOf?_eq hat, Option.bind_some, hat]

theorem parent?_of_child {n c : Node} (hn : n ∈ t.nodes) (hc : c ∈ n.children) :
    t.parent? c.id = some n := by
  obtain ⟨path, hat⟩ := mem_nodes_iff.1 hn
  obtain ⟨i, hi⟩ := List.getElem?_of_mem hc
  have hchild : t.at? (path ++ [i]) = some c := by rw [at?_concat hat, hi]
  rw [parent?, h.pathOf?_eq hchild, Option.bind_some, List.dropLast_concat, hat]

theorem parent?_of_root {root : Node} (hroot : root ∈ t.roots) : t.parent? root.id = none := by
  obtain ⟨i, hi⟩ := List.getElem?_of_mem hroot
  have hat : t.at? [i] = some root := by simp [at?, Forest.at?, hi]
  rw [parent?, h.pathOf?_eq hat]
  rfl

omit h in
/-- A node is a root or has a parent. -/
theorem root_or_child {n : Node} (hn : n ∈ t.nodes) : n ∈ t.roots ∨ ∃ p ∈ t.nodes, n ∈ p.children := by
  obtain ⟨path, hat⟩ := mem_nodes_iff.1 hn
  induction path using List.reverseRecOn with
  | nil => cases hat
  | append_singleton path i _ =>
      by_cases hpath : path = []
      · subst hpath
        obtain ⟨root, hroot, hn⟩ := Option.bind_eq_some_iff.1 hat
        cases hn
        exact .inl (List.mem_of_getElem? hroot)
      · rw [at?, Forest.at?_append _ hpath] at hat
        obtain ⟨p, hp, hchild⟩ := Option.bind_eq_some_iff.1 hat
        obtain ⟨c, hc, hn⟩ := Option.bind_eq_some_iff.1 hchild
        cases hn
        exact .inr ⟨p, mem_nodes_iff.2 ⟨_, hp⟩, List.mem_of_getElem? hc⟩

theorem parent?_eq_some_iff {n p : Node} (hn : n ∈ t.nodes) :
    t.parent? n.id = some p ↔ p ∈ t.nodes ∧ n ∈ p.children := by
  constructor
  · intro hparent
    rcases root_or_child hn with hroot | ⟨q, hq, hchild⟩
    · rw [h.parent?_of_root hroot] at hparent
      cases hparent
    · rw [h.parent?_of_child hq hchild] at hparent
      cases hparent
      exact ⟨hq, hchild⟩
  · rintro ⟨hp, hchild⟩
    exact h.parent?_of_child hp hchild

theorem parent_unique {n p q : Node} (hp : p ∈ t.nodes) (hq : q ∈ t.nodes) (hpn : n ∈ p.children)
    (hqn : n ∈ q.children) : p = q :=
  Option.some.inj ((h.parent?_of_child hp hpn).symm.trans (h.parent?_of_child hq hqn))

theorem root_not_child {root p : Node} (hroot : root ∈ t.roots) (hp : p ∈ t.nodes) : root ∉ p.children := by
  intro hchild
  have hparent := h.parent?_of_child hp hchild
  rw [h.parent?_of_root hroot] at hparent
  cases hparent

/-- Of two nodes around a third one, one is around the other. -/
theorem nested {a b n : Node} (ha : a ∈ t.nodes) (hb : b ∈ t.nodes) (hna : n ∈ a.walk) (hnb : n ∈ b.walk) :
    a ∈ b.walk ∨ b ∈ a.walk := by
  obtain ⟨p, hp⟩ := mem_nodes_iff.1 ha
  obtain ⟨q, hq⟩ := mem_nodes_iff.1 hb
  obtain ⟨x, hx⟩ := Node.mem_walk_iff.1 hna
  obtain ⟨y, hy⟩ := Node.mem_walk_iff.1 hnb
  have hne : ∀ {path : Path} {m : Node}, t.at? path = some m → path ≠ [] := by
    rintro path m hat rfl
    cases hat
  have hpx : t.at? (p ++ x) = some n := by
    rw [at?, Forest.at?_append _ (hne hp), show Forest.at? t.roots p = some a from hp, Option.bind_some, hx]
  have hqy : t.at? (q ++ y) = some n := by
    rw [at?, Forest.at?_append _ (hne hq), show Forest.at? t.roots q = some b from hq, Option.bind_some, hy]
  -- Two beginnings of one path: the shorter one is a beginning of the longer one.
  have hsame := h.path_unique hpx hqy
  rcases List.append_eq_append_iff.1 hsame with ⟨z, rfl, -⟩ | ⟨z, rfl, -⟩
  · right
    rw [at?, Forest.at?_append _ (hne hp), show Forest.at? t.roots p = some a from hp, Option.bind_some] at hq
    exact Node.mem_walk_iff.2 ⟨z, hq⟩
  · left
    rw [at?, Forest.at?_append _ (hne hq), show Forest.at? t.roots q = some b from hq, Option.bind_some] at hp
    exact Node.mem_walk_iff.2 ⟨z, hp⟩

end Distinct

end Tree

/-! ## Edits made against a tree -/

namespace Node

/-- A child is found in the place where it stands. -/
theorem locate_eq_ok {n : Node} {id : NodeId} {field : String} {index : Nat}
    (h : n.locate id = .ok (field, index)) :
    ∃ s c, n.kind.slot? field = some s ∧ s.nodes[index]? = some c ∧ c.id = id := by
  unfold locate at h
  simp only at h
  split at h
  · rename_i place hfound
    cases h
    obtain ⟨s, hs, hfind⟩ := List.exists_of_findSome?_eq_some hfound
    obtain ⟨i, hi, hplace⟩ := Option.map_eq_some_iff.1 hfind
    cases hplace
    obtain ⟨hlt, hid, -⟩ := List.findIdx?_eq_some_iff_getElem.1 hi
    exact ⟨s, s.nodes[index], Kind.slot?_eq_some_iff.2 ⟨hs, rfl⟩, List.getElem?_eq_getElem hlt, by simpa using hid⟩
  · cases h

end Node

namespace Edit

/-- The edit was made against the tree, in a place of a node, and the text it puts in has the property. -/
inductive Built (t : Tree) (P : String → Prop) : Edit → Prop
  | insert {text field : String} {parent : NodeId} {pos : Pos} {e : Edit} (text_ok : P text)
      (made : insert t text (some parent) field pos = .ok e) : Built t P e
  | insertAt {text field : String} {parent : NodeId} {index : Nat} {e : Edit} (text_ok : P text)
      (made : insertAt t text (some parent) field index = .ok e) : Built t P e
  | delete {id : NodeId} {e : Edit} (made : delete t id = .ok e) (child : e.parent?.isSome) : Built t P e
  | replace {text : String} {id : NodeId} {e : Edit} (text_ok : P text) (made : replace t text id = .ok e)
      (child : e.parent?.isSome) : Built t P e

theorem find_eq_ok {t : Tree} {id : NodeId} {n : Node} (h : t.find id = .ok n) : n ∈ t.nodes ∧ n.id = id := by
  unfold Tree.find at h
  split at h
  · rename_i hget
    cases h
    exact (Tree.get?_eq_some hget).symm
  · cases h

theorem insert_eq_ok {t : Tree} {text field : String} {parent : NodeId} {pos : Pos} {e : Edit}
    (h : insert t text (some parent) field pos = .ok e) :
    e.text? = some text ∧ ∃ m ∈ t.nodes, m.id = parent ∧ e.Fits m := by
  obtain ⟨m, hm, h⟩ := bind_eq_ok.1 h
  obtain ⟨s, hs, h⟩ := bind_eq_ok.1 h
  obtain ⟨index, hindex, h⟩ := bind_eq_ok.1 h
  cases h
  obtain ⟨hnode, rfl⟩ := find_eq_ok hm
  have hslot : m.kind.slot? field = some s := by
    unfold Node.slot at hs
    split at hs
    · rename_i hslot
      cases hs
      exact hslot
    · cases hs
  obtain ⟨-, rfl⟩ := Kind.slot?_eq_some_iff.1 hslot
  refine ⟨rfl, m, hnode, rfl, ?_⟩
  cases s with
  | list field ns =>
      cases hindex
      exact .insertList hslot
  | optional field n =>
      cases n with
      | none =>
          cases hindex
          exact .insertOptional hslot
      | some n => cases hindex
  | required field n => cases hindex

/-- A move takes a node away and puts its text in, which is refused inside the node itself. -/
theorem move_eq_ok {t : Tree} {text : String} {source : NodeId} {target : DropTarget} {edits : List Edit}
    (h : move t text source target = .ok edits) :
    ∃ n deletion insertion, t.find source = .ok n ∧ delete t source = .ok deletion ∧
      edits = [deletion, insertion] ∧
      match target with
      | .root pos => n.range.strictlyContains pos = false ∧
          insert t ("\n" ++ text ++ "\n") none "" pos = .ok insertion
      | .child parent field pos => n.containsId parent = false ∧
          insert t text (some parent) field pos = .ok insertion := by
  unfold move at h
  obtain ⟨n, hn, h⟩ := bind_eq_ok.1 h
  -- Both targets are refused inside the node that is moved, and both edits are then looked up.
  cases target with
  | root pos | child parent field pos =>
      simp only at h
      split at h
      · cases h
      · rename_i hinside
        obtain ⟨insertion, hinsertion, h⟩ := bind_eq_ok.1 h
        obtain ⟨deletion, hdeletion, h⟩ := bind_eq_ok.1 h
        cases h
        exact ⟨n, deletion, insertion, hn, hdeletion, rfl, by simpa using hinside, hinsertion⟩

theorem insertAt_eq_ok {t : Tree} {text field : String} {parent : NodeId} {index : Nat} {e : Edit}
    (h : insertAt t text (some parent) field index = .ok e) :
    e.text? = some text ∧ ∃ m ∈ t.nodes, m.id = parent ∧ e.Fits m := by
  obtain ⟨pos, -, h⟩ := bind_eq_ok.1 h
  exact insert_eq_ok h

section Distinct

variable {t : Tree} (ht : t.Distinct)

include ht

/-- A child that is looked up to be taken away or replaced stands where it was found. -/
theorem located {id : NodeId} {c p : Node} {field : String} {index : Nat} (hc : t.find id = .ok c)
    (hp : t.parent? id = some p) (hplace : p.locate id = .ok (field, index)) :
    p ∈ t.nodes ∧ c.id = id ∧ ∃ s, p.kind.slot? field = some s ∧ s.nodes[index]? = some c := by
  obtain ⟨hnode, rfl⟩ := find_eq_ok hc
  obtain ⟨hparent, -⟩ := (ht.parent?_eq_some_iff hnode).1 hp
  obtain ⟨s, d, hs, hd, hid⟩ := Node.locate_eq_ok hplace
  have hchild : d ∈ p.children :=
    List.mem_flatMap.2 ⟨s, (Kind.slot?_eq_some_iff.1 hs).1, List.mem_of_getElem? hd⟩
  obtain rfl := ht.eq_of_id_eq (Tree.mem_nodes_of_mem_walk hparent (Node.mem_walk_of_child hchild)) hnode hid
  exact ⟨hparent, rfl, s, hs, hd⟩

theorem delete_eq_ok {id : NodeId} {e : Edit} (h : delete t id = .ok e) (hchild : e.parent?.isSome) :
    e.text? = none ∧ ∃ m ∈ t.nodes, e.Fits m := by
  obtain ⟨c, hc, h⟩ := bind_eq_ok.1 h
  simp only at h
  split at h
  · cases h
    cases hchild
  · rename_i p hp
    obtain ⟨⟨field, index⟩, hplace, h⟩ := bind_eq_ok.1 h
    cases h
    obtain ⟨hparent, rfl, s, hs, hnode⟩ := located ht hc hp hplace
    exact ⟨rfl, p, hparent, .delete hs hnode⟩

theorem replace_eq_ok {text : String} {id : NodeId} {e : Edit} (h : replace t text id = .ok e)
    (hchild : e.parent?.isSome) : (∀ text' ∈ e.text?, text' = text) ∧ ∃ m ∈ t.nodes, e.Fits m := by
  unfold replace at h
  split at h
  · obtain ⟨htext, hfits⟩ := delete_eq_ok ht h hchild
    exact ⟨by simp [htext], hfits⟩
  · obtain ⟨c, hc, h⟩ := bind_eq_ok.1 h
    simp only at h
    split at h
    · cases h
      cases hchild
    · rename_i p hp
      obtain ⟨⟨field, index⟩, hplace, h⟩ := bind_eq_ok.1 h
      cases h
      obtain ⟨hparent, rfl, s, hs, hnode⟩ := located ht hc hp hplace
      exact ⟨by simp [text?], p, hparent, .replace hs hnode⟩

theorem find_eq {n : Node} (hn : n ∈ t.nodes) : t.find n.id = .ok n := by
  rw [Tree.find, ht.get?_eq hn]

theorem delete_of_child {p c : Node} (hp : p ∈ t.nodes) (hc : c ∈ p.children) {field : String} {index : Nat}
    (hplace : p.locate c.id = .ok (field, index)) :
    delete t c.id = .ok ⟨c.range.start, c.range.stop, .deleteChild c.id p.id field index⟩ := by
  have hnode := Tree.mem_nodes_of_mem_walk hp (Node.mem_walk_of_child hc)
  refine bind_eq_ok.2 ⟨c, find_eq ht hnode, ?_⟩
  simp only [ht.parent?_of_child hp hc]
  exact bind_eq_ok.2 ⟨(field, index), hplace, rfl⟩

theorem delete_of_root {root : Node} (hroot : root ∈ t.roots) :
    delete t root.id = .ok ⟨root.range.start, root.range.stop, .deleteRoot root.id⟩ := by
  refine bind_eq_ok.2 ⟨root, find_eq ht (Tree.root_mem_nodes hroot), ?_⟩
  simp only [ht.parent?_of_root hroot]
  rfl

theorem replace_of_root {root : Node} (hroot : root ∈ t.roots) {text : String} (htext : text ≠ "") :
    replace t text root.id = .ok ⟨root.range.start, root.range.stop, .replaceRoot root.id text⟩ := by
  rw [replace, if_neg (by simpa using htext)]
  refine bind_eq_ok.2 ⟨root, find_eq ht (Tree.root_mem_nodes hroot), ?_⟩
  simp only [ht.parent?_of_root hroot]
  rfl

theorem replace_of_child {p c : Node} (hp : p ∈ t.nodes) (hc : c ∈ p.children) {field : String} {index : Nat}
    (hplace : p.locate c.id = .ok (field, index)) {text : String} (htext : text ≠ "") :
    replace t text c.id = .ok ⟨c.range.start, c.range.stop, .replaceChild c.id p.id field index text⟩ := by
  have hnode := Tree.mem_nodes_of_mem_walk hp (Node.mem_walk_of_child hc)
  rw [replace, if_neg (by simpa using htext)]
  refine bind_eq_ok.2 ⟨c, find_eq ht hnode, ?_⟩
  simp only [ht.parent?_of_child hp hc]
  exact bind_eq_ok.2 ⟨(field, index), hplace, rfl⟩

theorem insert_of_slot {n : Node} (hn : n ∈ t.nodes) {field : String} {slot : Slot Node}
    (hslot : n.kind.slot? field = some slot) {pos : Pos} {i : Nat} (hindex : slotIndex slot pos = .ok i)
    (text : String) :
    insert t text (some n.id) field pos = .ok ⟨pos, pos, .insertChild n.id slot.field i text⟩ := by
  have hplace : n.slot field = .ok slot := by rw [Node.slot, hslot]
  exact bind_eq_ok.2 ⟨n, find_eq ht hn, bind_eq_ok.2 ⟨slot, hplace, bind_eq_ok.2 ⟨i, hindex, rfl⟩⟩⟩

theorem insertAt_of_slot {n : Node} (hn : n ∈ t.nodes) {field : String} {slot : Slot Node}
    (hslot : n.kind.slot? field = some slot) {index : Nat} {pos : Pos}
    (hpos : Tree.indexPos slot.nodes index (Tree.slotStart n field) = pos) {i : Nat}
    (hindex : slotIndex slot pos = .ok i) (text : String) :
    insertAt t text (some n.id) field index = .ok ⟨pos, pos, .insertChild n.id slot.field i text⟩ := by
  have hplace : n.slot field = .ok slot := by rw [Node.slot, hslot]
  refine bind_eq_ok.2 ⟨pos, ?_, insert_of_slot ht hn hslot hindex text⟩
  exact bind_eq_ok.2 ⟨n, find_eq ht hn, bind_eq_ok.2 ⟨slot, hplace, congrArg Except.ok hpos⟩⟩

/-- An edit made against a tree fits a node of it. -/
theorem Built.fits {P : String → Prop} {e : Edit} (h : Built t P e) : ∃ m ∈ t.nodes, e.Fits m := by
  cases h with
  | insert _ made =>
      obtain ⟨-, m, hm, -, hfits⟩ := insert_eq_ok made
      exact ⟨m, hm, hfits⟩
  | insertAt _ made =>
      obtain ⟨-, m, hm, -, hfits⟩ := insertAt_eq_ok made
      exact ⟨m, hm, hfits⟩
  | delete made child => exact (delete_eq_ok ht made child).2
  | replace _ made child => exact (replace_eq_ok ht made child).2

theorem Built.text_ok {P : String → Prop} {e : Edit} (h : Built t P e) : ∀ text ∈ e.text?, P text := by
  intro text htext
  cases h with
  | insert text_ok made =>
      rw [(insert_eq_ok made).1] at htext
      cases htext
      exact text_ok
  | insertAt text_ok made =>
      rw [(insertAt_eq_ok made).1] at htext
      cases htext
      exact text_ok
  | delete made child =>
      rw [(delete_eq_ok ht made child).1] at htext
      cases htext
  | replace text_ok made child =>
      rw [(replace_eq_ok ht made child).1 text htext]
      exact text_ok

end Distinct

end Edit

end TreeEdit
