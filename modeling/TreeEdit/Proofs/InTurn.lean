import TreeEdit.Proofs.Grafting

/-!
# Edits carried out in turn

Edits made against one tree are carried out one after the other, latest first, on a copy of a node. An edit
`Fits` a node if it is about one of its places as they stand in the tree. A list of edits is in `Turn` if
they fit, no two are about one child, none is inside a child that another one is about, and a text is put
in only once everything behind its index has been done. Then every edit finds its place in the copy, and
what comes out is the node with all edits made at once: `Turn.graftAll_eq`.
-/

namespace TreeEdit

open Edit

/-! ## Places by name -/

/-- A place with each node replaced by its image. -/
def Slot.map {α β : Type} (f : α → β) : Slot α → Slot β
  | .required field n => .required field (f n)
  | .optional field n => .optional field (n.map f)
  | .list field ns => .list field (ns.map f)

@[simp] theorem Slot.field_map {α β : Type} (f : α → β) (s : Slot α) : (s.map f).field = s.field := by
  cases s <;> rfl

@[simp] theorem Slot.nodes_map {α β : Type} (f : α → β) (s : Slot α) : (s.map f).nodes = s.nodes.map f := by
  cases s with
  | optional field n => cases n <;> rfl
  | _ => rfl

theorem Kind.slots_map {α β : Type} (f : α → β) (k : Kind α) : (k.map f).slots = k.slots.map (Slot.map f) := by
  cases k <;> rfl

theorem Kind.fields_nodup {α : Type} (k : Kind α) : (k.slots.map Slot.field).Nodup := by
  cases k <;> simp [slots, Slot.field]

theorem Kind.slot?_eq_some_iff {α : Type} {k : Kind α} {field : String} {s : Slot α} :
    k.slot? field = some s ↔ s ∈ k.slots ∧ s.field = field := by
  constructor
  · intro h
    exact ⟨List.mem_of_find?_eq_some h, by simpa using List.find?_some h⟩
  · rintro ⟨hs, rfl⟩
    cases hfind : k.slot? s.field with
    | none =>
        have hnone := List.find?_eq_none.1 hfind s hs
        simp at hnone
    | some s' =>
        have hmem := List.mem_of_find?_eq_some hfind
        have hfield : s'.field = s.field := by simpa using List.find?_some hfind
        rw [List.inj_on_of_nodup_map k.fields_nodup hmem hs hfield]

theorem Kind.editSlot?_map_refit {ε α β : Type} {k : Kind α} {f : α → β} {field : String} {s : Slot α}
    {e : SlotEdit ε β} {r r' : Refit β} (hs : k.slot? field = some s)
    (hthis : e.apply ((s.map f).refit r) = (.ok (), (s.map f).refit r'))
    (hother : ∀ t ∈ k.slots, t.field ≠ field → (t.map f).refit r = (t.map f).refit r') :
    ((k.map f).refit r).editSlot? field e = some (.ok (), (k.map f).refit r') := by
  obtain ⟨hmem, hfield⟩ := slot?_eq_some_iff.1 hs
  refine editSlot?_refit ⟨s.map f, ?_, ?_⟩ ?_ ?_
  · rw [slots_map]
    exact List.mem_map_of_mem hmem
  · rw [Slot.field_map, hfield]
  · intro t ht htfield
    rw [slots_map] at ht
    obtain ⟨t', ht', rfl⟩ := List.mem_map.1 ht
    rw [Slot.field_map] at htfield
    obtain rfl := Option.some.inj (hs.symm.trans (slot?_eq_some_iff.2 ⟨ht', htfield⟩))
    exact hthis
  · intro t ht htfield
    rw [slots_map] at ht
    obtain ⟨t', ht', rfl⟩ := List.mem_map.1 ht
    exact hother t' ht' (by rwa [Slot.field_map] at htfield)

/-! ## Nodes by identity -/

namespace Node

theorem ids_sublist {n m : Node} (h : m ∈ n.walk) : m.ids.Sublist n.ids := by
  induction n using induct with
  | step n ih =>
      rw [walk_eq] at h
      rcases List.mem_cons.1 h with rfl | h
      · exact List.Sublist.refl _
      · obtain ⟨c, hc, hm⟩ := List.mem_flatMap.1 h
        rw [ids_eq n, List.flatMap_def]
        exact (ih c hc hm).trans ((List.sublist_flatten_of_mem (List.mem_map_of_mem hc)).trans
          (List.sublist_cons_self _ _))

theorem children_ids_sublist (n : Node) : (n.children.map Node.id).Sublist n.ids := by
  rw [ids_eq, List.map_eq_flatMap]
  refine (List.Sublist.flatMap_right _ fun c _ => ?_).trans (List.sublist_cons_self _ _)
  rw [ids_eq]
  exact List.Sublist.cons_cons _ (List.nil_sublist _)

/-- Every node in it has an identity of its own. -/
structure Identified (n : Node) : Prop where
  nodup : n.ids.Nodup
  assigned : .unassigned ∉ n.ids

namespace Identified

variable {n : Node} (h : n.Identified)

include h

theorem of_mem {m : Node} (hm : m ∈ n.walk) : m.Identified :=
  ⟨h.nodup.sublist (ids_sublist hm), fun hmem => h.assigned ((ids_sublist hm).subset hmem)⟩

theorem id_ne {m : Node} (hm : m ∈ n.walk) : m.id ≠ .unassigned :=
  fun heq => h.assigned (heq ▸ List.mem_map_of_mem hm)

theorem eq_of_id_eq {m l : Node} (hm : m ∈ n.walk) (hl : l ∈ n.walk) (heq : m.id = l.id) : m = l :=
  List.inj_on_of_nodup_map h.nodup hm hl heq

theorem not_mem_below : n.id ∉ n.children.flatMap ids := by
  have hnodup := h.nodup
  rw [ids_eq] at hnodup
  exact (List.nodup_cons.1 hnodup).1

theorem count_le (target : NodeId) : n.ids.count target ≤ 1 := List.nodup_iff_count_le_one.1 h.nodup target

/-- A child stands in one place. -/
theorem slot_unique {s t : Slot Node} {c d : Node} (hs : s ∈ n.kind.slots) (ht : t ∈ n.kind.slots)
    (hc : c ∈ s.nodes) (hd : d ∈ t.nodes) (heq : c.id = d.id) : s = t := by
  have hnodup := h.nodup.sublist n.children_ids_sublist
  rw [children, Kind.children, List.map_flatMap] at hnodup
  have hsymm : Std.Symm fun s t : Slot Node => (s.nodes.map Node.id).Disjoint (t.nodes.map Node.id) :=
    ⟨fun _ _ hdisjoint _ ha hb => hdisjoint hb ha⟩
  by_contra hne
  have hdisjoint := (List.nodup_flatMap.1 hnodup).2.forall hs ht hne
  exact hdisjoint (List.mem_map_of_mem hc) (heq ▸ List.mem_map_of_mem hd)

theorem slot_nodup {s : Slot Node} (hs : s ∈ n.kind.slots) : (s.nodes.map Node.id).Nodup := by
  have hnodup := h.nodup.sublist n.children_ids_sublist
  rw [children, Kind.children, List.map_flatMap] at hnodup
  exact (List.nodup_flatMap.1 hnodup).1 s hs

/-- A child stands at one index of a place. -/
theorem index_unique {s : Slot Node} (hs : s ∈ n.kind.slots) {i j : Nat} {c d : Node} (hc : s.nodes[i]? = some c)
    (hd : s.nodes[j]? = some d) (heq : c.id = d.id) : i = j := by
  have hlt : i < (s.nodes.map Node.id).length := by simpa using (List.getElem?_eq_some_iff.1 hc).1
  refine (List.getElem?_inj hlt (h.slot_nodup hs)).1 ?_
  rw [List.getElem?_map, List.getElem?_map, hc, hd, Option.map_some, Option.map_some, heq]

end Identified

end Node

/-! ## Edits that fit -/

namespace Edit

/-- The edit is about a place of the node as it stands. -/
inductive Fits (m : Node) : Edit → Prop
  | insertList {pos : Pos} {field text : String} {ns : List Node}
      (place : m.kind.slot? field = some (.list field ns)) :
      Fits m ⟨pos, pos, .insertChild m.id field (ns.findIdx fun n => pos ≤ n.range.start) text⟩
  | insertOptional {pos : Pos} {field text : String} (place : m.kind.slot? field = some (.optional field none)) :
      Fits m ⟨pos, pos, .insertChild m.id field 0 text⟩
  | delete {c : Node} {s : Slot Node} {field : String} {index : Nat} (place : m.kind.slot? field = some s)
      (child : s.nodes[index]? = some c) :
      Fits m ⟨c.range.start, c.range.stop, .deleteChild c.id m.id field index⟩
  | replace {c : Node} {s : Slot Node} {field text : String} {index : Nat} (place : m.kind.slot? field = some s)
      (child : s.nodes[index]? = some c) :
      Fits m ⟨c.range.start, c.range.stop, .replaceChild c.id m.id field index text⟩

/-- The place an edit is about: a parent, the name of the place, and an index in it. -/
def place? (e : Edit) : Option (NodeId × String × Nat) :=
  match e.kind with
  | .insertChild parent field index _ => some (parent, field, index)
  | .deleteChild _ parent field index => some (parent, field, index)
  | .replaceChild _ parent field index _ => some (parent, field, index)
  | _ => none

/-- Whether an edit puts text into a place and takes nothing away. -/
def inserts (e : Edit) : Bool :=
  match e.kind with
  | .insertChild .. => true
  | _ => false

/-- The edits can be carried out in this order on a copy of the node. -/
structure Turn (n : Node) (edits : List Edit) : Prop where
  identified : n.Identified
  fits : ∀ e ∈ edits, ∃ m ∈ n.walk, e.Fits m
  /-- No child is dealt with twice. -/
  once : edits.Pairwise fun e e' => ∀ id, e.fateOf? id ≠ none → e'.fateOf? id = none
  /-- Nothing is done inside a child that goes or gives way. -/
  apart : ∀ e ∈ edits, ∀ e' ∈ edits, ∀ m ∈ n.walk, e'.fateOf? m.id ≠ none →
    ∀ parent, e.parent? = some parent → parent ∉ m.ids
  /-- Text is put in when nothing has been done yet before its index. -/
  order : edits.Pairwise fun done e => ∀ parent field i j, done.place? = some (parent, field, i) →
    e.place? = some (parent, field, j) → e.inserts → j ≤ i
  /-- An optional place is filled once. -/
  filled : edits.Pairwise fun done e => ∀ parent field i j, done.place? = some (parent, field, i) →
    e.place? = some (parent, field, j) → done.inserts → e.inserts →
      ∀ m ∈ n.walk, m.id = parent → m.kind.slot? field ≠ some (.optional field none)

theorem Fits.parent?_eq {m : Node} {e : Edit} (h : e.Fits m) : e.parent? = some m.id := by
  cases h <;> rfl

theorem Fits.rootChange?_eq {m : Node} {e : Edit} (h : e.Fits m) : e.rootChange? = none := by
  cases h <;> rfl

theorem Fits.of_fate {m : Node} {e : Edit} (h : e.Fits m) {id : NodeId} (hid : e.fateOf? id ≠ none) :
    ∃ s field index c, m.kind.slot? field = some s ∧ s.nodes[index]? = some c ∧ c.id = id ∧
      e.place? = some (m.id, field, index) := by
  cases h with
  | insertList place => exact absurd rfl hid
  | insertOptional place => exact absurd rfl hid
  | @delete c s field index place child | @replace c s field text index place child =>
      refine ⟨s, field, index, c, place, child, ?_, rfl⟩
      by_contra hne
      exact hid (if_neg hne)

theorem place?_of_putIn? {e : Edit} {field : String} {index : Nat} (h : e.putIn? field index ≠ none) :
    e.inserts ∧ ∃ parent, e.parent? = some parent ∧ e.place? = some (parent, field, index) := by
  obtain ⟨start, stop, kind⟩ := e
  cases kind with
  | insertChild parent field' index' text =>
      by_cases heq : field' = field ∧ index' = index
      · obtain ⟨rfl, rfl⟩ := heq
        exact ⟨rfl, parent, rfl, rfl⟩
      · exact absurd (if_neg heq) h
  | _ => exact absurd rfl h

theorem pairwise_middle {R : Edit → Edit → Prop} {done rest : List Edit} {e : Edit}
    (hR : (done ++ e :: rest).Pairwise R) : ∀ e' ∈ done, R e' e :=
  fun e' he' => (List.pairwise_append.1 hR).2.2 e' he' e List.mem_cons_self

theorem map_id_edited (edits : List Edit) (s : Slot Node) :
    (s.map (Node.edited edits)).nodes.map Node.id = s.nodes.map Node.id := by
  rw [Slot.nodes_map, List.map_map]
  exact List.map_congr_left fun c _ => c.id_edited

namespace Turn

variable {n m : Node} {done rest : List Edit} {e : Edit} (h : Turn n (done ++ e :: rest)) (hm : m ∈ n.walk)
  (hfits : e.Fits m)

include h hm hfits

/-- The next edit finds its parent in the copy, with the edits so far made. -/
theorem finds_parent :
    ∃ path, (n.edited done).pathTo? m.id = some path ∧ (n.edited done).at? path = some (m.edited done) := by
  have hstays : m.edited done ∈ (n.edited done).walk := by
    refine Node.edited_mem_walk hm fun l hl hml e' he' => ?_
    by_contra hfate
    exact h.apart e (by simp) e' (by simp [he']) l hl hfate m.id hfits.parent?_eq (List.mem_map_of_mem hml)
  rw [← Node.paths_map_snd] at hstays
  obtain ⟨⟨path, _⟩, hpath, rfl⟩ := List.mem_map.1 hstays
  obtain ⟨⟨path', l⟩, hfind⟩ : ∃ found, (n.edited done).paths.find? (·.2.id == m.id) = some found := by
    refine Option.isSome_iff_exists.1 (List.find?_isSome.2 ⟨_, hpath, ?_⟩)
    simp
  have hat := Node.at?_of_mem_paths (List.mem_of_find?_eq_some hfind)
  have hid : l.id = m.id := by simpa using List.find?_some hfind
  have hl : l ∈ (n.edited done).walk := by
    rw [← Node.paths_map_snd]
    exact List.mem_map.2 ⟨_, List.mem_of_find?_eq_some hfind, rfl⟩
  refine ⟨path', by rw [Node.pathTo?, hfind]; rfl, ?_⟩
  rcases Node.mem_walk_edited hl with hmade | ⟨l', hl', rfl⟩
  · exact absurd (hid.symm.trans hmade.id_eq) (h.identified.id_ne hm)
  · rw [Node.id_edited] at hid
    rw [hat, h.identified.eq_of_id_eq hl' hm hid]

omit hfits in
/-- An edit so far in the parent that is about a child of it is about one that stands where the edit
says. -/
theorem done_place {e' : Edit} (he' : e' ∈ inside done m.id) {c : Node} {s : Slot Node}
    (hs : s ∈ m.kind.slots) {i : Nat} (hc : s.nodes[i]? = some c) (hfate : e'.fateOf? c.id ≠ none) :
    e'.place? = some (m.id, s.field, i) := by
  obtain ⟨hdone, hparent⟩ := List.mem_filter.1 he'
  obtain ⟨m', hm', hfits'⟩ := h.fits e' (by simp [hdone])
  have hsame : m'.id = m.id := by
    rw [hfits'.parent?_eq] at hparent
    simpa using hparent
  obtain rfl := h.identified.eq_of_id_eq hm' hm hsame
  obtain ⟨s', field, index, c', hplace, hc', hid, he⟩ := hfits'.of_fate hfate
  obtain ⟨hs', rfl⟩ := Kind.slot?_eq_some_iff.1 hplace
  have hown := h.identified.of_mem hm
  obtain rfl := hown.slot_unique hs' hs (List.mem_of_getElem? hc') (List.mem_of_getElem? hc) hid
  rw [he, hown.index_unique hs hc' hc hid]

omit h hm in
/-- An edit leaves the other places of its parent alone. -/
theorem other_places (hown : m.Identified) (edits edits' : List Edit) {field : String} {i : Nat}
    (hplace : e.place? = some (m.id, field, i)) :
    ∀ t ∈ m.kind.slots, t.field ≠ field →
      (t.map (Node.edited edits)).refit (refit edits') = (t.map (Node.edited edits)).refit (refit (edits' ++ [e])) := by
  intro t ht hne
  refine (refit_append_of_none (fun index => ?_) fun l hl => ?_).symm
  · by_contra hput
    obtain ⟨-, parent, -, hplace'⟩ := place?_of_putIn? hput
    rw [hplace, Slot.field_map] at hplace'
    cases hplace'
    exact hne rfl
  · by_contra hfate
    rw [Slot.nodes_map] at hl
    obtain ⟨d, hd, rfl⟩ := List.mem_map.1 hl
    rw [Node.id_edited] at hfate
    obtain ⟨s, field', index, c, hs, hc, hid, hplace'⟩ := hfits.of_fate hfate
    rw [hplace] at hplace'
    cases hplace'
    obtain ⟨hs, hfield⟩ := Kind.slot?_eq_some_iff.1 hs
    obtain rfl := hown.slot_unique hs ht (List.mem_of_getElem? hc) hd hid
    exact hne hfield

omit hm hfits in
/-- Nothing has been put in yet before the index at which the next edit puts text in. -/
theorem putIn_eq_nil (hinserts : e.inserts) {field : String} {i : Nat} (hplace : e.place? = some (m.id, field, i)) :
    ∀ j < i, putIn (inside done m.id) field j = [] := by
  intro j hj
  refine List.filterMap_eq_nil_iff.2 fun e' he' => ?_
  obtain ⟨hdone, hparent⟩ := List.mem_filter.1 (List.mem_reverse.1 he')
  by_contra hput
  obtain ⟨-, parent, hparent', hplace'⟩ := place?_of_putIn? hput
  obtain rfl : parent = m.id := by simpa [hparent'] using hparent
  have hle := pairwise_middle h.order e' hdone _ field j i hplace' hplace hinserts
  omega

omit hfits in
/-- All children before the index at which the next edit puts text in are still there. -/
theorem left_of_take (hinserts : e.inserts) {field : String} {ns : List Node} {i : Nat}
    (hplace : m.kind.slot? field = some (.list field ns)) (he : e.place? = some (m.id, field, i)) :
    ∀ l ∈ (ns.map (Node.edited done)).take i, left (inside done m.id) l = some l := by
  intro l hl
  rw [← List.map_take] at hl
  obtain ⟨c, hc, rfl⟩ := List.mem_map.1 hl
  obtain ⟨j, hj⟩ := List.getElem?_of_mem hc
  rw [List.getElem?_take] at hj
  split at hj
  · rename_i hlt
    obtain ⟨hs, -⟩ := Kind.slot?_eq_some_iff.1 hplace
    refine left_eq _ _ fun e' he' => ?_
    by_contra hfate
    rw [Node.id_edited] at hfate
    have hplace' := done_place h hm he' hs hj hfate
    have hle := pairwise_middle h.order e' (List.mem_filter.1 he').1 _ field j i hplace' he hinserts
    omega
  · cases hj

omit hfits in
/-- Nothing is put into an optional place that is filled. -/
theorem putIn_of_filled {field : String} {c : Node} (hplace : m.kind.slot? field = some (.optional field (some c)))
    (i : Nat) : putIn (inside done m.id) field i = [] := by
  refine List.filterMap_eq_nil_iff.2 fun e' he' => ?_
  obtain ⟨hdone, hparent⟩ := List.mem_filter.1 (List.mem_reverse.1 he')
  obtain ⟨m', hm', hfits'⟩ := h.fits e' (by simp [hdone])
  have hsame : m'.id = m.id := by simpa [hfits'.parent?_eq] using hparent
  obtain rfl := h.identified.eq_of_id_eq hm' hm hsame
  by_contra hput
  obtain ⟨hinserts, parent, -, hplace'⟩ := place?_of_putIn? hput
  cases hfits' with
  | insertList place =>
      cases hplace'
      cases place.symm.trans hplace
  | insertOptional place =>
      cases hplace'
      cases place.symm.trans hplace
  | delete place child => cases hinserts
  | replace place child => cases hinserts

omit hm hfits in
/-- No edit so far is about the child that the next edit is about. -/
theorem fate_eq_none {c : Node} (hfate : e.fateOf? c.id ≠ none) :
    ∀ e' ∈ inside done m.id, e'.fateOf? c.id = none := by
  intro e' he'
  by_contra hfate'
  exact hfate (pairwise_middle h.once e' (List.mem_filter.1 he').1 c.id hfate')

/-- The place of the next edit in the copy is as the edit needs it, and the other places are left alone. -/
theorem changes_place {parent : NodeId} {field : String} {change : SlotEdit EditError Node}
    (hedit : e.slotEdit? = some (parent, field, change)) :
    ∃ s, m.kind.slot? field = some s ∧
      change.apply ((s.map (Node.edited done)).refit (refit (inside done m.id))) =
        (.ok (), (s.map (Node.edited done)).refit (refit (inside done m.id ++ [e]))) ∧
      ∀ t ∈ m.kind.slots, t.field ≠ field → (t.map (Node.edited done)).refit (refit (inside done m.id)) =
        (t.map (Node.edited done)).refit (refit (inside done m.id ++ [e])) := by
  have hown := h.identified.of_mem hm
  cases hfits with
  | @insertList pos field' text ns place =>
      cases hedit
      refine ⟨_, place, ?_, other_places (.insertList place) hown done _ rfl⟩
      refine insertion_list rfl ?_ (putIn_eq_nil h rfl rfl) (left_of_take h hm rfl place rfl)
      rw [List.length_map]
      exact List.findIdx_le_length
  | @insertOptional pos field' text place =>
      cases hedit
      refine ⟨_, place, ?_, other_places (.insertOptional place) hown done _ rfl⟩
      -- Two texts would have to go into one place: an earlier one is excluded by `filled`.
      refine insertion_optional rfl (List.filterMap_eq_nil_iff.2 fun e' he' => ?_)
      obtain ⟨hdone, hparent⟩ := List.mem_filter.1 (List.mem_reverse.1 he')
      by_contra hput
      obtain ⟨hinserts, parent, hparent', hplace'⟩ := place?_of_putIn? hput
      obtain rfl : parent = m.id := by simpa [hparent'] using hparent
      exact pairwise_middle h.filled e' hdone _ field 0 0 hplace' rfl hinserts rfl m hm rfl place
  | @delete c s field' index place child =>
      cases hedit
      obtain ⟨hs, hfield⟩ := Kind.slot?_eq_some_iff.1 place
      have hc := List.mem_of_getElem? child
      have hchild : c ∈ m.walk := Node.mem_walk_of_child (List.mem_flatMap.2 ⟨s, hs, hc⟩)
      refine ⟨_, place, ?_, other_places (.delete place child) hown done _ rfl⟩
      refine deletion_slot (n := c.edited done) rfl (hown.id_ne hchild) (fate_eq_none h ?_) ?_ ?_ c.id_edited ?_
      · simp [fateOf?]
      · rw [map_id_edited]
        exact hown.slot_nodup hs
      · rw [Slot.nodes_map]
        exact List.mem_map_of_mem hc
      · -- Only an optional place is empty without its child, and nothing was put there before: it was full.
        intro field'' d hd
        cases s with
        | optional field n =>
            cases n with
            | some n =>
                cases hd
                cases hfield
                exact putIn_of_filled h hm place 0
            | none => cases hd
        | required field n => cases hd
        | list field ns => cases hd
  | @replace c s field' text index place child =>
      cases hedit
      obtain ⟨hs, -⟩ := Kind.slot?_eq_some_iff.1 place
      have hc := List.mem_of_getElem? child
      have hchild : c ∈ m.walk := Node.mem_walk_of_child (List.mem_flatMap.2 ⟨s, hs, hc⟩)
      refine ⟨_, place, ?_, other_places (.replace place child) hown done _ rfl⟩
      refine replacement_slot (n := c.edited done) rfl (hown.id_ne hchild) (fate_eq_none h ?_) ?_ ?_ c.id_edited
      · simp [fateOf?]
      · rw [map_id_edited]
        exact hown.slot_nodup hs
      · rw [Slot.nodes_map]
        exact List.mem_map_of_mem hc

theorem editSlot?_eq {parent : NodeId} {field : String} {change : SlotEdit EditError Node}
    (hedit : e.slotEdit? = some (parent, field, change)) :
    (m.edited done).kind.editSlot? field change =
      some (.ok (), (m.kind.map (Node.edited done)).refit (refit (inside done m.id ++ [e]))) := by
  obtain ⟨s, hplace, hthis, hother⟩ := changes_place h hm hfits hedit
  rw [Node.kind_edited]
  exact Kind.editSlot?_map_refit hplace hthis hother

/-- One step: the next edit takes the copy with the edits so far to the copy with one edit more. -/
theorem graftOnto_eq : e.graftOnto (n.edited done) = (.ok (), n.edited (done ++ [e])) := by
  obtain ⟨path, hpath, hat⟩ := finds_parent h hm hfits
  obtain ⟨field, change, hedit⟩ : ∃ field change, e.slotEdit? = some (m.id, field, change) := by
    cases hfits <;> exact ⟨_, _, rfl⟩
  have honce : (n.edited done).ids.count m.id ≤ 1 :=
    (Node.count_ids_edited_le (h.identified.id_ne hm) n).trans (h.identified.count_le m.id)
  rw [graftOnto, hedit]
  simp only
  rw [hpath]
  simp only
  rw [hat, Option.bind_some, editSlot?_eq h hm hfits hedit]
  simp only
  rw [Node.modifyAt_eq_modifyId hat m.id_edited honce]
  refine congrArg (Prod.mk (Except.ok ()))
    (Node.modifyId_edited hfits.parent?_eq (h.identified.id_ne hm) (fun _ => rfl) ?_)
  intro l hl hid
  obtain rfl := h.identified.eq_of_id_eq hl hm hid
  exact ⟨(h.identified.of_mem hl).not_mem_below, rfl⟩

omit h hm hfits in
theorem graftAll_append (h : Turn n (done ++ rest)) :
    EditGroup.graftAll (n.edited done) rest = .ok (n.edited (done ++ rest)) := by
  induction rest generalizing done with
  | nil => rw [EditGroup.graftAll, List.append_nil]
  | cons e rest ih =>
      obtain ⟨m, hm, hfits⟩ := h.fits e (by simp)
      rw [EditGroup.graftAll, graftOnto_eq h hm hfits, List.append_cons done e rest]
      exact ih (List.append_cons done e rest ▸ h)

end Turn

/-- The whole run: edits in turn come to the same as the edits made at once. -/
theorem Turn.graftAll_eq {n : Node} {edits : List Edit} (h : Turn n edits) :
    EditGroup.graftAll n edits = .ok (n.edited edits) := by
  have hrun : EditGroup.graftAll (n.edited []) edits = .ok (n.edited ([] ++ edits)) := Turn.graftAll_append h
  rwa [Node.edited_nil] at hrun

end Edit

end TreeEdit
