import TreeEdit.Proofs.Copies
import TreeEdit.Proofs.Partition

/-!
# Edits that may change places

An edit that finds no place in the copy is passed over, so carrying it out is a total function on copies,
`Edit.carriedOut`: it refits one place of the node with the identity of its parent. Whether two edits may be
carried out in either order is then a question about places.

In places of different parents they always may (`modifyId_comm`), even if one parent goes with what the other
edit takes away: an edit looks at identities only, and carrying out the other one changes none. In two places of
one parent they may too, and in one place if they take away or replace different children
(`Edit.carriedOut_comm`). What is left are two texts put into one place, an insertion among children that come
and go, and two edits of one child.
-/

namespace TreeEdit

/-! ## One place of a kind -/

/-- The change of one place, whether it succeeds or not. -/
def SlotEdit.refit {ε α : Type} (field : String) (e : SlotEdit ε α) : Refit α where
  required name n := if field = name then (e.required n).2 else n
  optional name n := if field = name then (e.optional n).2 else n
  list name ns := if field = name then (e.list ns).2 else ns

theorem Kind.editSlot?_eq_refit {ε α : Type} (k : Kind α) (field : String) (e : SlotEdit ε α) :
    ((k.editSlot? field e).map Prod.snd).getD k = k.refit (e.refit field) := by
  cases k
  all_goals simp only [editSlot?, refit, SlotEdit.refit, Option.map_none, Option.getD_none]
  all_goals split_ifs
  all_goals try subst field
  all_goals simp_all only [Option.map_some, Option.map_none, Option.getD_some, Option.getD_none, Prod.map_snd,
    String.reduceEq, not_false_eq_true]

namespace Refit

variable {α : Type}

/-- The two may come in either order. -/
structure Commute (r s : Refit α) : Prop where
  required : ∀ name n, r.required name (s.required name n) = s.required name (r.required name n)
  optional : ∀ name n, r.optional name (s.optional name n) = s.optional name (r.optional name n)
  list : ∀ name ns, r.list name (s.list name ns) = s.list name (r.list name ns)

theorem Commute.refit_refit {r s : Refit α} (h : r.Commute s) (k : Kind α) :
    (k.refit s).refit r = (k.refit r).refit s := by
  cases k <;> simp only [Kind.refit, h.required, h.optional, h.list]

end Refit

/-- Changes of places with different names may come in either order. -/
theorem SlotEdit.commute_of_ne {ε α : Type} {e e' : SlotEdit ε α} {field field' : String} (h : field ≠ field') :
    (e.refit field).Commute (e'.refit field') := by
  constructor
  all_goals
    intro name x
    simp only [refit]
    split
    · rename_i hfield
      rw [if_neg fun hfield' => h (hfield.trans hfield'.symm), if_neg fun hfield' => h (hfield.trans hfield'.symm)]
    · rfl

/-! ## Nodes by their identities -/

namespace Node

/-- No identity that was given out occurs twice. -/
def Once (n : Node) : Prop := ∀ id, id ≠ .unassigned → n.ids.count id ≤ 1

theorem Identified.once {n : Node} (h : n.Identified) : n.Once := fun id _ => h.count_le id

theorem Once.child {n c : Node} (h : n.Once) (hc : c ∈ n.children) : c.Once :=
  fun id hid => ((ids_sublist (mem_walk_of_child hc)).count_le id).trans (h id hid)

theorem Once.not_mem_below {n : Node} (h : n.Once) (hid : n.id ≠ .unassigned) : n.id ∉ n.children.flatMap ids := by
  have hcount := h n.id hid
  rw [ids_eq, List.count_cons, if_pos (by simp)] at hcount
  exact List.count_eq_zero.1 (by omega)

theorem Once.modifyId_self {n : Node} {f : Node → Node} (h : n.Once) (hid : n.id ≠ .unassigned) :
    n.modifyId n.id f = f n := by
  rw [modifyId_eq, if_pos rfl, with_map_eq_self]
  exact fun c hc => modifyId_of_not_mem fun hmem => h.not_mem_below hid (List.mem_flatMap.2 ⟨c, hc, hmem⟩)

theorem modifyId_of_ne {n : Node} {target : NodeId} {f : Node → Node} (h : n.id ≠ target) :
    n.modifyId target f = { n with kind := n.kind.map (modifyId target f) } := by
  rw [modifyId_eq, if_neg h]

theorem Once.eq_of_id_eq {n m l : Node} (h : n.Once) (hm : m ∈ n.walk) (hl : l ∈ n.walk) (heq : m.id = l.id)
    (hid : l.id ≠ .unassigned) : m = l := by
  have hlength : (n.walk.filter (·.id == l.id)).length ≤ 1 := by
    rw [← List.countP_eq_length_filter]
    refine le_trans (le_of_eq ?_) (h l.id hid)
    rw [ids, List.count, List.countP_map]
    rfl
  have hm' : m ∈ n.walk.filter (·.id == l.id) := List.mem_filter.2 ⟨hm, by simp [heq]⟩
  have hl' : l ∈ n.walk.filter (·.id == l.id) := List.mem_filter.2 ⟨hl, by simp⟩
  cases hfilter : n.walk.filter (·.id == l.id) with
  | nil => simp [hfilter] at hm'
  | cons x rest =>
      have hrest : rest = [] := by simpa [hfilter] using hlength
      rw [hfilter, hrest, List.mem_singleton] at hm' hl'
      rw [hm', hl']

/-- Changing the node with an identity depends on that node only. -/
theorem Once.modifyId_congr {n : Node} (h : n.Once) {target : NodeId} (htarget : target ≠ .unassigned)
    {f g : Node → Node} (hfg : ∀ m ∈ n.walk, m.id = target → f m = g m) :
    n.modifyId target f = n.modifyId target g := by
  induction n using induct with
  | step n ih =>
      by_cases hn : n.id = target
      · subst hn
        rw [h.modifyId_self htarget, h.modifyId_self htarget, hfg n n.mem_walk_self rfl]
      · have hchildren : n.kind.map (modifyId target f) = n.kind.map (modifyId target g) := by
          refine Kind.map_congr_left fun c hc => ih c hc (h.child hc) fun m hm hid => hfg m ?_ hid
          exact mem_walk_trans (mem_walk_of_child hc) hm
        rw [modifyId_of_ne hn, modifyId_of_ne hn, hchildren]

theorem modifyId_id (n : Node) (target : NodeId) : n.modifyId target (fun m => m) = n := by
  induction n using induct with
  | step n ih =>
      rw [modifyId_eq, with_map_eq_self ih]
      split <;> rfl

theorem not_mem_ids_of_pathTo? {n : Node} {id : NodeId} (h : n.pathTo? id = none) : id ∉ n.ids := by
  rw [pathTo?, Option.map_eq_none_iff, List.find?_eq_none] at h
  intro hmem
  obtain ⟨m, hm, rfl⟩ := List.mem_map.1 hmem
  rw [← paths_map_snd] at hm
  obtain ⟨x, hx, rfl⟩ := List.mem_map.1 hm
  exact h x hx (by simp)

theorem at?_of_pathTo? {n : Node} {id : NodeId} {path : Path} (h : n.pathTo? id = some path) :
    ∃ m, n.at? path = some m ∧ m.id = id := by
  obtain ⟨⟨_, m⟩, hfind, rfl⟩ := Option.map_eq_some_iff.1 h
  exact ⟨m, at?_of_mem_paths (List.mem_of_find?_eq_some hfind), by simpa using List.find?_some hfind⟩

/-- It has no identity yet and nothing in it, like what is put in or left by an edit. -/
structure Anew (n : Node) : Prop where
  id : n.id = .unassigned
  children : n.children = []

theorem anew_pasted (text : String) (place : Pos) : (pasted text place).Anew := ⟨rfl, rfl⟩

theorem anew_vacated (span : Span) : (vacated span).Anew := ⟨rfl, rfl⟩

theorem Anew.ids_eq {n : Node} (h : n.Anew) : n.ids = [.unassigned] := by
  rw [Node.ids_eq, h.id, h.children, List.flatMap_nil]

theorem Anew.count_ids {n : Node} (h : n.Anew) {id : NodeId} (hid : id ≠ .unassigned) : n.ids.count id = 0 := by
  rw [h.ids_eq]
  exact List.count_eq_zero.2 (by simpa using hid)

/-- It keeps identities and spans, and leaves alone what was put in or left by an edit. -/
structure Gentle (g : Node → Node) : Prop where
  id : ∀ n, (g n).id = n.id
  span : ∀ n, (g n).span = n.span
  anew : ∀ n, n.Anew → g n = n

/-- The node with its places refitted. -/
def refit (r : Refit Node) (n : Node) : Node := { n with kind := n.kind.refit r }

theorem gentle_modifyId {target : NodeId} (htarget : target ≠ .unassigned) (r : Refit Node) :
    Gentle (modifyId target (refit r)) where
  id n := by
    rw [modifyId_eq]
    split <;> rfl
  span n := by
    rw [modifyId_eq]
    split <;> rfl
  anew n hn := modifyId_of_not_mem (by simpa [hn.ids_eq] using htarget)

end Node

open Node

/-- It looks at identities and spans only, and puts in nothing that has an identity. -/
structure Refit.Tame (r : Refit Node) : Prop where
  natural : ∀ g, Gentle g → r.Natural g
  count : ∀ (s : Slot Node) (id : NodeId), id ≠ .unassigned →
    ((s.refit r).nodes.flatMap ids).count id ≤ (s.nodes.flatMap ids).count id

namespace Refit.Tame

variable {r s : Refit Node} {p q : NodeId} {n : Node}

theorem count_refit_le (hr : r.Tame) {id : NodeId} (hid : id ≠ .unassigned) (n : Node) :
    (n.refit r).ids.count id ≤ n.ids.count id := by
  have hchildren : ((n.refit r).children.flatMap ids).count id ≤ (n.children.flatMap ids).count id := by
    rw [children, children, Node.refit, Kind.children, Kind.children, Kind.slots_refit, List.flatMap_map,
      List.flatMap_assoc, List.flatMap_assoc]
    exact Node.count_flatMap_le fun slot _ => hr.count slot id hid
  rw [ids_eq, ids_eq n, List.count_cons, List.count_cons]
  exact Nat.add_le_add_right hchildren _

/-- No identity occurs more often than before. -/
theorem count_modifyId_le (hr : r.Tame) {id : NodeId} (hid : id ≠ .unassigned) (n : Node) :
    (n.modifyId p (Node.refit r)).ids.count id ≤ n.ids.count id := by
  induction n using Node.induct with
  | step n ih =>
      have hbelow : ({ n with kind := n.kind.map (modifyId p (Node.refit r)) } : Node).ids.count id ≤
          n.ids.count id := by
        rw [ids_eq, ids_eq n, children, Kind.children_map, List.flatMap_map, List.count_cons, List.count_cons]
        exact Nat.add_le_add_right (Node.count_flatMap_le ih) _
      rw [modifyId_eq]
      split
      · exact (hr.count_refit_le hid _).trans hbelow
      · exact hbelow

theorem once (hr : r.Tame) (h : n.Once) : (n.modifyId p (Node.refit r)).Once :=
  fun id hid => (hr.count_modifyId_le hid n).trans (h id hid)

theorem not_mem_modifyId (hr : r.Tame) {id : NodeId} (hid : id ≠ .unassigned) (h : id ∉ n.ids) :
    id ∉ (n.modifyId p (Node.refit r)).ids := by
  have hcount := hr.count_modifyId_le (p := p) hid n
  rw [List.count_eq_zero.2 h] at hcount
  exact List.count_eq_zero.1 (Nat.le_zero.1 hcount)

/-- The one parent is the node itself: what the other refit does below it does not matter. -/
theorem modifyId_comm_self (hr : r.Tame) (hs : s.Tame) (h : n.Once) (hid : n.id ≠ .unassigned)
    (hq : q ≠ .unassigned) (hne : n.id ≠ q) :
    (n.modifyId q (Node.refit s)).modifyId n.id (Node.refit r) =
      (n.modifyId n.id (Node.refit r)).modifyId q (Node.refit s) := by
  have hgentle := gentle_modifyId hq s
  have hbelow : n.kind.map (modifyId n.id (Node.refit r) ∘ modifyId q (Node.refit s)) =
      n.kind.map (modifyId q (Node.refit s)) := by
    refine Kind.map_congr_left fun c hc => modifyId_of_not_mem (hs.not_mem_modifyId hid ?_)
    exact fun hmem => h.not_mem_below hid (List.mem_flatMap.2 ⟨c, hc, hmem⟩)
  have hleft : (n.modifyId q (Node.refit s)).modifyId n.id (Node.refit r) =
      ({ n with kind := n.kind.map (modifyId q (Node.refit s)) } : Node).refit r := by
    rw [modifyId_of_ne hne, modifyId_eq, if_pos rfl, Kind.map_map, hbelow]
  have hright : (n.modifyId n.id (Node.refit r)).modifyId q (Node.refit s) =
      { n with kind := (n.kind.refit r).map (modifyId q (Node.refit s)) } := by
    rw [h.modifyId_self hid]
    exact modifyId_of_ne hne
  rw [hleft, hright, ← (hr.natural _ hgentle).refit_map]
  rfl

/-- Places of different nodes are refitted in either order. -/
theorem modifyId_comm (hr : r.Tame) (hs : s.Tame) (h : n.Once) (hp : p ≠ .unassigned) (hq : q ≠ .unassigned)
    (hne : p ≠ q) : (n.modifyId q (Node.refit s)).modifyId p (Node.refit r) =
      (n.modifyId p (Node.refit r)).modifyId q (Node.refit s) := by
  induction n using Node.induct with
  | step n ih =>
      by_cases hnp : n.id = p
      · subst hnp
        exact modifyId_comm_self hr hs h hp hq hne
      · by_cases hnq : n.id = q
        · subst hnq
          exact (modifyId_comm_self hs hr h hq hp (Ne.symm hne)).symm
        · have hchildren := Kind.map_congr_left (k := n.kind) fun c hc => ih c hc (h.child hc)
          rw [modifyId_of_ne hnq, modifyId_of_ne hnp, modifyId_of_ne (by exact hnp), modifyId_of_ne (by exact hnq),
            Kind.map_map, Kind.map_map]
          exact congrArg (fun kind => ({ n with kind := kind } : Node)) hchildren

/-- Places of one node are refitted one after the other. -/
theorem modifyId_modifyId (hs : s.Tame) (h : n.Once) (hp : p ≠ .unassigned) :
    (n.modifyId p (Node.refit s)).modifyId p (Node.refit r) =
      n.modifyId p fun m => (m.refit s).refit r := by
  induction n using Node.induct with
  | step n ih =>
      by_cases hnp : n.id = p
      · subst hnp
        have honce : (n.refit s).Once := fun id hid => (hs.count_refit_le hid n).trans (h id hid)
        rw [h.modifyId_self hp, h.modifyId_self hp]
        exact honce.modifyId_self hp
      · have hchildren := Kind.map_congr_left (k := n.kind) fun c hc => ih c hc (h.child hc)
        rw [modifyId_of_ne hnp, modifyId_of_ne (by exact hnp), modifyId_of_ne hnp, Kind.map_map]
        exact congrArg (fun kind => ({ n with kind := kind } : Node)) hchildren

theorem modifyId_comm_of_commute (hr : r.Tame) (hs : s.Tame) (h : n.Once) (hp : p ≠ .unassigned)
    (hcommute : r.Commute s) : (n.modifyId p (Node.refit s)).modifyId p (Node.refit r) =
      (n.modifyId p (Node.refit r)).modifyId p (Node.refit s) := by
  rw [hs.modifyId_modifyId h hp, hr.modifyId_modifyId h hp]
  congr 1
  funext m
  simp only [Node.refit, hcommute.refit_refit]

end Refit.Tame

/-! ## What an edit does to its place -/

/-- The first node with an identity gives way to others. -/
def swapOut (target : NodeId) (news : List Node) : List Node → List Node
  | [] => []
  | n :: ns => if n.id = target then news ++ ns else n :: swapOut target news ns

theorem swapOut_eq (target : NodeId) (news ns : List Node) :
    swapOut target news ns =
      match ns.findIdx? (·.id == target) with
      | some i => ns.take i ++ (news ++ ns.drop (i + 1))
      | none => ns := by
  induction ns with
  | nil => rfl
  | cons n ns ih =>
      rw [swapOut, List.findIdx?_cons]
      by_cases hn : n.id = target
      · simp [hn]
      · rw [if_neg hn, ih, if_neg (by simpa using hn)]
        cases ns.findIdx? (·.id == target) <;> rfl

/-- A child gives way: in a required place something is left, elsewhere at most one new node. -/
def removal (target : NodeId) (field : String) (left : Node → Node) (new : Option Node) : Refit Node where
  required name n := if field = name ∧ n.id = target then left n else n
  optional name n := if field = name then n.bind fun m => if m.id = target then new else some m else n
  list name ns := if field = name then swapOut target new.toList ns else ns

theorem SlotEdit.refit_eq_removal {ε : Type} {e : SlotEdit ε Node} {target : NodeId} {field : String}
    {left : Node → Node} {new : Option Node}
    (hrequired : ∀ n, (e.required n).2 = if n.id = target then left n else n)
    (hoptional : ∀ n, (e.optional n).2 = n.bind fun m => if m.id = target then new else some m)
    (hlist : ∀ ns, (e.list ns).2 = swapOut target new.toList ns) :
    e.refit field = removal target field left new := by
  simp only [refit, removal, hrequired, hoptional, hlist, ite_and]

theorem replacement_refit (target : NodeId) (field : String) (new : Node) :
    (Edit.replacement target field new).refit field = removal target field (fun _ => new) (some new) := by
  refine SlotEdit.refit_eq_removal (fun n => ?_) (fun n => ?_) fun ns => ?_
  · simp only [Edit.replacement]
    split <;> rfl
  · cases n with
    | none => rfl
    | some n =>
        simp only [Edit.replacement, Option.bind_some]
        split <;> rfl
  · rw [swapOut_eq]
    simp only [Edit.replacement]
    cases hfind : ns.findIdx? (·.id == target) with
    | none => rfl
    | some i =>
        obtain ⟨hlt, -⟩ := List.findIdx?_eq_some_iff_getElem.1 hfind
        simp [List.set_eq_take_append_cons_drop, hlt]

theorem deletion_refit (target : NodeId) (field : String) :
    (Edit.deletion target field).refit field = removal target field (fun n => .vacated n.span) none := by
  refine SlotEdit.refit_eq_removal (fun n => ?_) (fun n => ?_) fun ns => ?_
  · simp only [Edit.deletion]
    split <;> rfl
  · cases n with
    | none => rfl
    | some n =>
        simp only [Edit.deletion, Option.bind_some]
        split <;> rfl
  · rw [swapOut_eq]
    simp only [Edit.deletion]
    cases ns.findIdx? (·.id == target) with
    | none => rfl
    | some i => simp [List.eraseIdx_eq_take_drop_succ]

section Removal

variable {target target' : NodeId} {field field' : String} {left left' : Node → Node} {new new' : Option Node}

theorem swapOut_map {g : Node → Node} (hg : Gentle g) {news : List Node} (hnews : ∀ m ∈ news, m.Anew)
    (ns : List Node) : swapOut target news (ns.map g) = (swapOut target news ns).map g := by
  have hfixed : news.map g = news := List.map_congr_left (fun m hm => hg.anew m (hnews m hm)) |>.trans (List.map_id _)
  induction ns with
  | nil => rfl
  | cons n ns ih =>
      rw [List.map_cons, swapOut, swapOut, hg.id, ih]
      split
      · rw [List.map_append, hfixed]
      · rfl

theorem count_swapOut_le {news : List Node} (hnews : ∀ m ∈ news, m.Anew) {id : NodeId} (hid : id ≠ .unassigned)
    (ns : List Node) : ((swapOut target news ns).flatMap ids).count id ≤ (ns.flatMap ids).count id := by
  have hnone : (news.flatMap ids).count id = 0 := by
    refine List.count_eq_zero.2 fun hmem => ?_
    obtain ⟨m, hm, hmem⟩ := List.mem_flatMap.1 hmem
    rw [(hnews m hm).ids_eq, List.mem_singleton] at hmem
    exact hid hmem
  induction ns with
  | nil => exact le_refl _
  | cons n ns ih =>
      rw [swapOut]
      split
      · rw [List.flatMap_append, List.flatMap_cons, List.count_append, List.count_append, hnone]
        omega
      · rw [List.flatMap_cons, List.flatMap_cons, List.count_append, List.count_append]
        omega

theorem swapOut_append {target : NodeId} {news front : List Node} (ns : List Node)
    (hfront : ∀ m ∈ front, m.id ≠ target) : swapOut target news (front ++ ns) = front ++ swapOut target news ns := by
  induction front with
  | nil => rfl
  | cons m front ih =>
      obtain ⟨hm, hfront⟩ := List.forall_mem_cons.1 hfront
      rw [List.cons_append, swapOut, if_neg hm, ih hfront, List.cons_append]

/-- Nodes with different identities give way in either order. -/
theorem swapOut_comm (hne : target ≠ target') {news news' : List Node} (hnews : ∀ m ∈ news, m.id ≠ target')
    (hnews' : ∀ m ∈ news', m.id ≠ target) (ns : List Node) :
    swapOut target news (swapOut target' news' ns) = swapOut target' news' (swapOut target news ns) := by
  induction ns with
  | nil => rfl
  | cons n ns ih =>
      by_cases hn : n.id = target
      · have hn' : n.id ≠ target' := fun heq => hne (hn.symm.trans heq)
        rw [swapOut, if_neg hn', swapOut, if_pos hn, swapOut, if_pos hn, swapOut_append ns hnews]
      · by_cases hn' : n.id = target'
        · rw [swapOut, if_pos hn', swapOut, if_neg hn, swapOut, if_pos hn', swapOut_append ns hnews']
        · rw [swapOut, if_neg hn', swapOut, if_neg hn, swapOut, if_neg hn, swapOut, if_neg hn', ih]

theorem natural_removal (hleft : ∀ n, (left n).Anew) (hspan : ∀ n m : Node, n.span = m.span → left n = left m)
    (hnew : ∀ m ∈ new, m.Anew) {g : Node → Node} (hg : Gentle g) : (removal target field left new).Natural g := by
  refine ⟨fun name n => ?_, fun name n => ?_, fun name ns => ?_⟩
  · simp only [removal, hg.id]
    split
    · rw [hspan (g n) n (hg.span n), hg.anew _ (hleft n)]
    · rfl
  · have hfixed : new.map g = new := by
      cases new with
      | none => rfl
      | some m => exact congrArg some (hg.anew m (hnew m rfl))
    simp only [removal]
    split
    · cases n with
      | none => rfl
      | some n =>
          simp only [Option.map_some, Option.bind_some, hg.id]
          split
          · exact hfixed.symm
          · rfl
    · rfl
  · simp only [removal]
    split
    · exact swapOut_map hg (fun m hm => hnew m (Option.mem_toList.1 hm)) ns
    · rfl

/-- What is put in for a child has no identity, so none is there more often than before. -/
theorem count_removal_le (hleft : ∀ n, (left n).Anew) (hnew : ∀ m ∈ new, m.Anew) (s : Slot Node) {id : NodeId}
    (hid : id ≠ .unassigned) :
    ((s.refit (removal target field left new)).nodes.flatMap ids).count id ≤ (s.nodes.flatMap ids).count id := by
  cases s with
  | required name n =>
      simp only [Slot.refit, removal, Slot.nodes, List.flatMap_cons, List.flatMap_nil, List.append_nil]
      split
      · rw [(hleft n).count_ids hid]
        exact Nat.zero_le _
      · exact le_refl _
  | optional name n =>
      simp only [Slot.refit, removal, Slot.nodes]
      split
      · cases n with
        | none => exact le_refl _
        | some n =>
            rw [Option.bind_some]
            split
            · cases new with
              | none => exact Nat.zero_le _
              | some m => simp [(hnew m rfl).count_ids hid]
            · exact le_refl _
      · exact le_refl _
  | list name ns =>
      simp only [Slot.refit, removal, Slot.nodes]
      split
      · exact count_swapOut_le (fun m hm => hnew m (Option.mem_toList.1 hm)) hid ns
      · exact le_refl _

theorem tame_removal (hleft : ∀ n, (left n).Anew) (hspan : ∀ n m : Node, n.span = m.span → left n = left m)
    (hnew : ∀ m ∈ new, m.Anew) : (removal target field left new).Tame :=
  ⟨fun _ hg => natural_removal hleft hspan hnew hg, fun s _ hid => count_removal_le hleft hnew s hid⟩

/-- Different children give way in either order. -/
theorem removal_commute (hne : target ≠ target') (htarget : target ≠ .unassigned) (htarget' : target' ≠ .unassigned)
    (hleft : ∀ n, (left n).Anew) (hleft' : ∀ n, (left' n).Anew) (hnew : ∀ m ∈ new, m.Anew)
    (hnew' : ∀ m ∈ new', m.Anew) : (removal target field left new).Commute (removal target' field' left' new') := by
  -- What an edit leaves behind has no identity, so the other edit does not take it for its child.
  have hnot : ∀ {m : Node}, m.Anew → m.id ≠ target ∧ m.id ≠ target' :=
    fun hm => ⟨fun heq => htarget (heq.symm.trans hm.id), fun heq => htarget' (heq.symm.trans hm.id)⟩
  refine ⟨fun name n => ?_, fun name n => ?_, fun name ns => ?_⟩
  · simp only [removal]
    by_cases hn : n.id = target
    · have hn' : n.id ≠ target' := fun heq => hne (hn.symm.trans heq)
      simp only [hn', and_false, if_false]
      split <;> simp [hn', (hnot (hleft n)).2]
    · simp only [hn, and_false, if_false]
      split <;> simp [hn, (hnot (hleft' n)).1]
  · have hstays : ∀ {target : NodeId} {new new' : Option Node}, (∀ m ∈ new', m.id ≠ target) →
        (new'.bind fun m => if m.id = target then new else some m) = new' := by
      intro target new new' h
      cases new' with
      | none => rfl
      | some m => rw [Option.bind_some, if_neg (h m rfl)]
    simp only [removal]
    by_cases hf : field = name
    · by_cases hf' : field' = name
      · rw [if_pos hf, if_pos hf', if_pos hf', if_pos hf]
        cases n with
        | none => rfl
        | some n =>
            by_cases hn : n.id = target
            · have hn' : n.id ≠ target' := fun heq => hne (hn.symm.trans heq)
              rw [Option.bind_some, Option.bind_some, if_neg hn', if_pos hn, Option.bind_some, if_pos hn,
                hstays fun m hm => (hnot (hnew m hm)).2]
            · by_cases hn' : n.id = target'
              · rw [Option.bind_some, Option.bind_some, if_pos hn', if_neg hn, Option.bind_some, if_pos hn',
                  hstays fun m hm => (hnot (hnew' m hm)).1]
              · rw [Option.bind_some, Option.bind_some, if_neg hn', if_neg hn, Option.bind_some, Option.bind_some,
                  if_neg hn, if_neg hn']
      · simp [hf']
    · simp [hf]
  · simp only [removal]
    by_cases hf : field = name
    · by_cases hf' : field' = name
      · rw [if_pos hf, if_pos hf', if_pos hf', if_pos hf]
        refine swapOut_comm hne (fun m hm => ?_) (fun m hm => ?_) ns
        · exact (hnot (hnew m (Option.mem_toList.1 hm))).2
        · exact (hnot (hnew' m (Option.mem_toList.1 hm))).1
      · simp [hf']
    · simp [hf]

end Removal

theorem tame_insertion (parent : NodeId) (field : String) (index : Nat) {new : Node} (hnew : new.Anew) :
    ((Edit.insertion parent field index new).refit field).Tame := by
  refine ⟨fun g hg => ⟨fun name n => ?_, fun name n => ?_, fun name ns => ?_⟩, fun s id hid => ?_⟩
  · simp [SlotEdit.refit, Edit.insertion]
  · simp only [SlotEdit.refit, Edit.insertion]
    split
    · cases n with
      | none => exact congrArg some (hg.anew new hnew).symm
      | some n => rfl
    · rfl
  · simp only [SlotEdit.refit, Edit.insertion]
    split
    · simp [List.map_insertIdx, hg.anew new hnew]
    · rfl
  · have hnone : new.ids.count id = 0 := hnew.count_ids hid
    cases s with
    | required name n => simp [Slot.refit, SlotEdit.refit, Edit.insertion]
    | optional name n =>
        simp only [Slot.refit, SlotEdit.refit, Edit.insertion, Slot.nodes]
        split
        · cases n with
          | none => simp [hnone]
          | some n => exact le_refl _
        · exact le_refl _
    | list name ns =>
        simp only [Slot.refit, SlotEdit.refit, Edit.insertion, Slot.nodes]
        split
        · have hperm : (ns.insertIdx (min index ns.length) new).Perm (new :: ns) :=
            List.perm_insertIdx _ _ (Nat.min_le_right _ _)
          refine le_of_eq ?_
          show ((ns.insertIdx (min index ns.length) new).flatMap ids).count id = _
          rw [(hperm.flatMap_right ids).count_eq, List.flatMap_cons, List.count_append, hnone, Nat.zero_add]
        · exact le_refl _

/-! ## Edits carried out -/

namespace Edit

/-- The copy with an edit carried out; an edit that finds no place is passed over. -/
def carriedOut (e : Edit) (n : Node) : Node :=
  match e.slotEdit? with
  | none => n
  | some (parent, field, change) => n.modifyId parent (Node.refit (change.refit field))

/-- The parent and the name of the place that an edit is in. -/
def slot? (e : Edit) : Option (NodeId × String) := e.place?.map fun (parent, field, _) => (parent, field)

/-- What the edit is about has an identity. -/
structure Assigned (e : Edit) : Prop where
  parent : ∀ id ∈ e.parent?, id ≠ .unassigned
  target : ∀ id ∈ e.target?, id ≠ .unassigned

/-- The edits are in different places, or about different children. -/
def Independent (e e' : Edit) : Prop :=
  e.slot? ≠ e'.slot? ∨ ∃ id ∈ e.target?, ∃ id' ∈ e'.target?, id ≠ id'

variable {e e' : Edit} {parent parent' : NodeId} {field field' : String} {change change' : SlotEdit EditError Node}

theorem slotEdit?_cases (h : e.slotEdit? = some (parent, field, change)) :
    e.parent? = some parent ∧ e.slot? = some (parent, field) ∧ (change.refit field).Tame ∧
      ∀ id ∈ e.target?, ∃ left new, change.refit field = removal id field left new ∧ (∀ n, (left n).Anew) ∧
        ∀ m ∈ new, m.Anew := by
  obtain ⟨start, stop, kind⟩ := e
  cases kind with
  | insertRoot text => cases h
  | deleteRoot node => cases h
  | replaceRoot node text => cases h
  | overwrite text => cases h
  | insertChild p f index text =>
      cases h
      exact ⟨rfl, rfl, tame_insertion _ _ _ (anew_pasted text start), nofun⟩
  | deleteChild node p f index =>
      cases h
      have hleft : ∀ n : Node, (Node.vacated n.span).Anew := fun n => anew_vacated n.span
      rw [deletion_refit]
      refine ⟨rfl, rfl, tame_removal hleft (fun n m hspan => congrArg Node.vacated hspan) nofun, ?_⟩
      rintro id ⟨⟩
      exact ⟨_, _, rfl, hleft, nofun⟩
  | replaceChild node p f index text =>
      cases h
      have hnew : ∀ m ∈ some (Node.pasted text start), m.Anew := by
        rintro m ⟨⟩
        exact anew_pasted text start
      rw [replacement_refit]
      refine ⟨rfl, rfl, tame_removal (fun _ => anew_pasted text start) (fun _ _ _ => rfl) hnew, ?_⟩
      rintro id ⟨⟩
      exact ⟨_, _, rfl, fun _ => anew_pasted text start, hnew⟩

theorem Assigned.slotEdit? (he : e.Assigned) (h : e.slotEdit? = some (parent, field, change)) :
    parent ≠ .unassigned :=
  he.parent parent (slotEdit?_cases h).1

theorem carriedOut_of_none (h : e.slotEdit? = none) (n : Node) : e.carriedOut n = n := by
  rw [carriedOut, h]

theorem carriedOut_eq (h : e.slotEdit? = some (parent, field, change)) (n : Node) :
    e.carriedOut n = n.modifyId parent (Node.refit (change.refit field)) := by
  rw [carriedOut, h]

theorem once_carriedOut {n : Node} (h : n.Once) (e : Edit) : (e.carriedOut n).Once := by
  cases hslot : e.slotEdit? with
  | none => rwa [carriedOut_of_none hslot]
  | some x =>
      obtain ⟨parent, field, change⟩ := x
      rw [carriedOut_eq hslot]
      exact (slotEdit?_cases hslot).2.2.1.once h

/-- Whether it succeeds or not, an edit leaves the copy with the edit carried out. -/
theorem snd_graftOnto {n : Node} (h : n.Once) (he : e.Assigned) : (e.graftOnto n).2 = e.carriedOut n := by
  cases hslot : e.slotEdit? with
  | none => rw [graftOnto, hslot, carriedOut_of_none hslot]
  | some x =>
      obtain ⟨parent, field, change⟩ := x
      have hp := he.slotEdit? hslot
      rw [carriedOut_eq hslot]
      cases hpath : n.pathTo? parent with
      | none =>
          simp only [graftOnto, hslot, hpath]
          exact (modifyId_of_not_mem (not_mem_ids_of_pathTo? hpath)).symm
      | some path =>
          obtain ⟨m, hat, rfl⟩ := at?_of_pathTo? hpath
          have hkind := m.kind.editSlot?_eq_refit field change
          -- There is one node with the identity, so the copy may as well be changed wherever the identity is.
          have hwhole : n.modifyId m.id (Node.refit (change.refit field)) =
              n.modifyId m.id fun l => { l with kind := m.kind.refit (change.refit field) } := by
            refine h.modifyId_congr hp fun l hl hid => ?_
            rw [h.eq_of_id_eq hl (mem_walk_iff.2 ⟨path, hat⟩) hid hp]
            rfl
          have hstays : m.kind.refit (change.refit field) = m.kind →
              n.modifyId m.id (Node.refit (change.refit field)) = n := by
            intro hsame
            rw [h.modifyId_congr hp (g := fun l => l), modifyId_id]
            intro l hl hid
            rw [h.eq_of_id_eq hl (mem_walk_iff.2 ⟨path, hat⟩) hid hp, Node.refit, hsame, Node.eta]
          cases hedit : m.kind.editSlot? field change with
          | none =>
              rw [hedit] at hkind
              simp only [graftOnto, hslot, hpath, hat, Option.bind_some, hedit]
              exact (hstays hkind.symm).symm
          | some done =>
              rw [hedit] at hkind
              rw [hwhole, ← hkind]
              simp only [graftOnto, hslot, hpath, hat, Option.bind_some, hedit]
              exact modifyAt_eq_modifyId hat rfl (h m.id hp)

/-- Carrying out edits one after the other on a copy never fails. -/
theorem graftAll_eq_foldl {edits : List Edit} (hedits : ∀ e ∈ edits, e.Assigned) {copy : Node} (hcopy : copy.Once) :
    EditGroup.graftAll copy edits = .ok (edits.foldl (fun n e => e.carriedOut n) copy) := by
  induction edits generalizing copy with
  | nil => rfl
  | cons e edits ih =>
      obtain ⟨he, hrest⟩ := List.forall_mem_cons.1 hedits
      have hnext := ih hrest (once_carriedOut hcopy e)
      rw [EditGroup.graftAll_eq] at hnext ⊢
      rw [List.foldl_cons, getD_graft, snd_graftOnto hcopy he, List.foldl_cons]
      exact hnext

/-- Independent edits are carried out in either order. -/
theorem carriedOut_comm {n : Node} (h : n.Once) (he : e.Assigned) (he' : e'.Assigned) (hind : e.Independent e') :
    e'.carriedOut (e.carriedOut n) = e.carriedOut (e'.carriedOut n) := by
  cases hslot : e.slotEdit? with
  | none => rw [carriedOut_of_none hslot, carriedOut_of_none hslot]
  | some x =>
      cases hslot' : e'.slotEdit? with
      | none => rw [carriedOut_of_none hslot', carriedOut_of_none hslot']
      | some x' =>
          obtain ⟨parent, field, change⟩ := x
          obtain ⟨parent', field', change'⟩ := x'
          obtain ⟨hparent, hplace, htame, hchild⟩ := slotEdit?_cases hslot
          obtain ⟨hparent', hplace', htame', hchild'⟩ := slotEdit?_cases hslot'
          have hp := he.slotEdit? hslot
          have hp' := he'.slotEdit? hslot'
          rw [carriedOut_eq hslot, carriedOut_eq hslot', carriedOut_eq hslot, carriedOut_eq hslot']
          -- In one node the edits are about different places or different children; in different nodes they do
          -- not meet.
          by_cases hsame : parent = parent'
          · subst hsame
            refine htame'.modifyId_comm_of_commute htame h hp ?_
            rcases hind with hne | ⟨id, hid, id', hid', hne⟩
            · refine SlotEdit.commute_of_ne ?_
              rintro rfl
              exact hne (hplace.trans hplace'.symm)
            · obtain ⟨left, new, heq, hleft, hnew⟩ := hchild id hid
              obtain ⟨left', new', heq', hleft', hnew'⟩ := hchild' id' hid'
              rw [heq, heq']
              exact removal_commute (Ne.symm hne) (he'.target id' hid') (he.target id hid) hleft' hleft hnew' hnew
          · exact htame'.modifyId_comm htame h hp' hp (Ne.symm hsame)

end Edit

end TreeEdit
