import TreeEdit.Proofs.Commuting
import TreeEdit.Proofs.Lookup

/-!
# An edit changes one place

An edit carried out on a copy finds its parent by identity, somewhere below, then a place of it by name, then
the child there. `Node.ChangedAt` says that two nodes differ in one place of one descendant only, path by path:
the nodes around that descendant have the same children by identity, and the nodes beside it are the same.
`Edit.Turns` says what an edit makes of its place.

Main statement: `Edit.graftOnto_exact_and_atomic`. An edit made against a tree always succeeds on a copy of a
node around its parent, and the copy is then changed in that place only. Any edit that fails leaves the copy
as it was, so one can go on with the copy.
-/

namespace TreeEdit

/-! ## A node changed at a path -/

theorem Kind.map_mapIdx {α β γ : Type} (f : Nat → α → β) (g : β → γ) (k : Kind α) :
    (k.mapIdx f).map g = k.mapIdx fun i c => g (f i c) := by
  cases k <;> simp [mapIdx, map, List.mapIdx_eq_zipIdx_map, Function.comp_def]

theorem Kind.getElem?_children_modifyChild {α : Type} (k : Kind α) (i j : Nat) (f : α → α) :
    (k.modifyChild i f).children[j]? = if j = i then k.children[j]?.map f else k.children[j]? := by
  rw [modifyChild, children_mapIdx, List.getElem?_mapIdx]
  split <;> simp

namespace Node

variable {n m : Node} {path q : Path} {f : Node → Node}

theorem Identified.pathTo?_eq (h : n.Identified) (hm : m ∈ n.walk) :
    ∃ path, n.pathTo? m.id = some path ∧ n.at? path = some m := by
  cases hpath : n.pathTo? m.id with
  | none => exact absurd (List.mem_map_of_mem hm) (not_mem_ids_of_pathTo? hpath)
  | some path =>
      obtain ⟨l, hat, hid⟩ := at?_of_pathTo? hpath
      obtain rfl := h.eq_of_id_eq (mem_walk_iff.2 ⟨path, hat⟩) hm hid
      exact ⟨path, rfl, hat⟩

theorem at?_modifyAt_below {c : Node} {i : Nat} (hc : n.children[i]? = some c) (path q : Path) (f : Node → Node) :
    (n.modifyAt (i :: path) f).at? (i :: q) = (c.modifyAt path f).at? q := by
  rw [modifyAt, at?_cons, children, Kind.getElem?_children_modifyChild, if_pos rfl, ← children, hc]
  rfl

theorem at?_modifyAt_self (h : n.at? path = some m) : (n.modifyAt path f).at? path = some (f m) := by
  induction path generalizing n with
  | nil =>
      cases h
      rfl
  | cons i path ih =>
      obtain ⟨c, hc, hm⟩ := Option.bind_eq_some_iff.1 h
      rw [at?_modifyAt_below hc, ih hm]

theorem at?_modifyAt_beside (hq : ¬ q <+: path) (hpath : ¬ path <+: q) : (n.modifyAt path f).at? q = n.at? q := by
  induction path generalizing n q with
  | nil => exact absurd List.nil_prefix hpath
  | cons i path ih =>
      cases q with
      | nil => exact absurd List.nil_prefix hq
      | cons j q =>
          by_cases hj : j = i
          · subst hj
            rw [List.prefix_cons_inj] at hq hpath
            cases hc : n.children[j]? with
            | none =>
                rw [modifyAt, at?_cons, at?_cons, children, Kind.getElem?_children_modifyChild, if_pos rfl,
                  ← children, hc]
                rfl
            | some c => rw [at?_modifyAt_below hc, ih hq hpath, at?_cons, hc, Option.bind_some]
          · rw [modifyAt, at?_cons, at?_cons, children, Kind.getElem?_children_modifyChild, if_neg hj, ← children]

theorem id_modifyAt (h : n.at? path = some m) (hid : (f m).id = m.id) : (n.modifyAt path f).id = n.id := by
  cases path with
  | nil =>
      cases h
      exact hid
  | cons i path => rfl

/-- A node around the path keeps all but its kind, and that has the same children by identity. -/
theorem at?_modifyAt_around (h : n.at? path = some m) (hid : (f m).id = m.id) (hq : q <+: path) (hne : q ≠ path) :
    ∃ l kind, n.at? q = some l ∧ (n.modifyAt path f).at? q = some { l with kind := kind } ∧
      kind.map Node.id = l.kind.map Node.id := by
  induction path generalizing n q with
  | nil => exact absurd (List.prefix_nil.1 hq) hne
  | cons i path ih =>
      obtain ⟨c, hc, hm⟩ := Option.bind_eq_some_iff.1 h
      cases q with
      | nil =>
          refine ⟨n, _, rfl, rfl, ?_⟩
          rw [Kind.modifyChild, Kind.map_mapIdx]
          refine Kind.mapIdx_eq_map fun j d hd => ?_
          -- Of the children only the one on the path is another node, with the identity it had.
          split
          · rename_i hj
            rw [hj] at hd
            obtain rfl := Option.some.inj (hc.symm.trans hd)
            exact id_modifyAt hm hid
          · rfl
      | cons j q =>
          obtain ⟨rfl, hrest⟩ := List.cons_prefix_cons.1 hq
          obtain ⟨l, kind, hl, hl', hkind⟩ := ih hm hrest fun heq => hne (heq ▸ rfl)
          refine ⟨l, kind, ?_, ?_, hkind⟩
          · rw [at?_cons, hc, Option.bind_some, hl]
          · rw [at?_modifyAt_below hc, hl']

end Node

/-! ## A kind changed in one place -/

/-- What a kind is apart from its places. -/
def Kind.skeleton {α : Type} (k : Kind α) : Kind Unit :=
  (k.map fun _ => ()).refit ⟨fun _ n => n, fun _ _ => none, fun _ _ => []⟩

theorem Kind.skeleton_refit {α : Type} (r : Refit α) (k : Kind α) : (k.refit r).skeleton = k.skeleton := by
  cases k <;> rfl

namespace SlotEdit

variable {ε α : Type} {e : SlotEdit ε α} {k kind : Kind α} {field : String} {s s' : Slot α}

theorem field_apply (e : SlotEdit ε α) (s : Slot α) : (e.apply s).2.field = s.field := by
  cases s <;> rfl

theorem slot_refit (e : SlotEdit ε α) (field : String) (s : Slot α) :
    s.refit (e.refit field) = if field = s.field then (e.apply s).2 else s := by
  by_cases hfield : field = s.field
  · rw [if_pos hfield]
    cases s <;> exact congrArg _ (if_pos hfield)
  · rw [if_neg hfield]
    cases s <;> exact congrArg _ (if_neg hfield)

/-- How the change of a place ends, by the place with that name. -/
theorem fst_editSlot? (e : SlotEdit ε α) (k : Kind α) (field : String) :
    (k.editSlot? field e).map Prod.fst = (k.slot? field).map fun s => (e.apply s).1 := by
  cases k
  all_goals simp only [Kind.editSlot?, Kind.slot?, Kind.slots, List.find?_cons, List.find?_nil, Slot.field]
  all_goals grind [apply]

/-- The place with that name is changed, and no other. -/
theorem editSlot?_of_slot {result : Except ε Unit} (hs : k.slot? field = some s) (he : e.apply s = (result, s')) :
    ∃ kind, k.editSlot? field e = some (result, kind) ∧ kind.skeleton = k.skeleton ∧
      kind.slots = k.slots.map fun t => if t.field = field then s' else t := by
  have hfst := fst_editSlot? e k field
  rw [hs, Option.map_some, he] at hfst
  obtain ⟨⟨result', kind⟩, hedit, hresult⟩ := Option.map_eq_some_iff.1 hfst
  obtain rfl : result' = result := hresult
  have hkind := k.editSlot?_eq_refit field e
  rw [hedit, Option.map_some, Option.getD_some] at hkind
  change kind = _ at hkind
  refine ⟨kind, hedit, ?_, ?_⟩
  · rw [hkind, Kind.skeleton_refit]
  · rw [hkind, Kind.slots_refit]
    refine List.map_congr_left fun t ht => ?_
    rw [slot_refit]
    -- No two places of a kind have one name, so a place with this name is the one that was found.
    by_cases hfield : t.field = field
    · obtain rfl := Option.some.inj (hs.symm.trans (Kind.slot?_eq_some_iff.2 ⟨ht, hfield⟩))
      rw [if_pos hfield.symm, if_pos hfield, he]
    · rw [if_neg (Ne.symm hfield), if_neg hfield]

end SlotEdit

/-! ## Two nodes that differ in one place -/

/-- The second node is the first with a place of the node at a path changed to the given one, and nothing
else. -/
structure Node.ChangedAt (path : Path) (s : Slot Node) (n n' : Node) : Prop where
  /-- The node at the path keeps all but its kind, and that all but the place with this name. -/
  parent : ∃ p kind, n.at? path = some p ∧ n'.at? path = some { p with kind := kind } ∧
    kind.skeleton = p.kind.skeleton ∧ kind.slots = p.kind.slots.map fun t => if t.field = s.field then s else t
  /-- A node around it keeps all but its kind, and that has the same children by identity. -/
  around : ∀ q, q <+: path → q ≠ path → ∃ m kind, n.at? q = some m ∧ n'.at? q = some { m with kind := kind } ∧
    kind.map Node.id = m.kind.map Node.id
  /-- A node beside it is the same. -/
  beside : ∀ q, ¬ q <+: path → ¬ path <+: q → n'.at? q = n.at? q

theorem Node.changedAt_modifyAt {n p : Node} {path : Path} {s : Slot Node} {kind : Kind Node}
    (hat : n.at? path = some p) (hskeleton : kind.skeleton = p.kind.skeleton)
    (hslots : kind.slots = p.kind.slots.map fun t => if t.field = s.field then s else t) :
    ChangedAt path s n (n.modifyAt path fun m => { m with kind := kind }) where
  parent := ⟨p, kind, hat, at?_modifyAt_self hat, hskeleton, hslots⟩
  around _ hq hne := at?_modifyAt_around hat rfl hq hne
  beside _ hq hpath := at?_modifyAt_beside hq hpath

/-! ## What an edit makes of its place -/

namespace Edit

/-- What an edit makes of the place it is about. -/
inductive Turns : Edit → Slot Node → Slot Node → Prop
  | insertList {pos : Pos} {parent : NodeId} {field text : String} {before after : List Node} :
      Turns ⟨pos, pos, .insertChild parent field before.length text⟩ (.list field (before ++ after))
        (.list field (before ++ .pasted text pos :: after))
  | insertOptional {pos : Pos} {parent : NodeId} {field text : String} :
      Turns ⟨pos, pos, .insertChild parent field 0 text⟩ (.optional field none)
        (.optional field (some (.pasted text pos)))
  | deleteList {start stop : Pos} {parent : NodeId} {field : String} {before after : List Node} {c : Node} :
      Turns ⟨start, stop, .deleteChild c.id parent field before.length⟩ (.list field (before ++ c :: after))
        (.list field (before ++ after))
  | deleteOptional {start stop : Pos} {parent : NodeId} {field : String} {c : Node} :
      Turns ⟨start, stop, .deleteChild c.id parent field 0⟩ (.optional field (some c)) (.optional field none)
  | deleteRequired {start stop : Pos} {parent : NodeId} {field : String} {c : Node} :
      Turns ⟨start, stop, .deleteChild c.id parent field 0⟩ (.required field c) (.required field (.vacated c.span))
  | replaceList {start stop : Pos} {parent : NodeId} {field text : String} {before after : List Node} {c : Node} :
      Turns ⟨start, stop, .replaceChild c.id parent field before.length text⟩ (.list field (before ++ c :: after))
        (.list field (before ++ .pasted text start :: after))
  | replaceOptional {start stop : Pos} {parent : NodeId} {field text : String} {c : Node} :
      Turns ⟨start, stop, .replaceChild c.id parent field 0 text⟩ (.optional field (some c))
        (.optional field (some (.pasted text start)))
  | replaceRequired {start stop : Pos} {parent : NodeId} {field text : String} {c : Node} :
      Turns ⟨start, stop, .replaceChild c.id parent field 0 text⟩ (.required field c)
        (.required field (.pasted text start))

/-- In a list without repetition of identities a child is found where it stands. -/
theorem findIdx?_of_nodup {before after : List Node} {c : Node} (h : ((before ++ c :: after).map Node.id).Nodup) :
    (before ++ c :: after).findIdx? (·.id == c.id) = some before.length := by
  have hbefore : ∀ n ∈ before, n.id ≠ c.id := by
    rw [List.map_append] at h
    exact fun n hn heq => (List.nodup_append.1 h).2.2 _ (List.mem_map_of_mem hn) c.id (by simp) heq
  rw [List.findIdx?_append, List.findIdx?_eq_none_iff.2 (by simpa using hbefore), List.findIdx?_cons]
  simp

/-- A child in a place, and its index there. -/
inductive Holds : Slot Node → Nat → Node → Prop
  | required (field : String) (c : Node) : Holds (.required field c) 0 c
  | optional (field : String) (c : Node) : Holds (.optional field (some c)) 0 c
  | list (field : String) (before after : List Node) (c : Node) :
      Holds (.list field (before ++ c :: after)) before.length c

theorem holds_of_getElem? {s : Slot Node} {i : Nat} {c : Node} (h : s.nodes[i]? = some c) : Holds s i c := by
  obtain ⟨hlt, hc⟩ := List.getElem?_eq_some_iff.1 h
  cases s with
  | required field n =>
      obtain rfl : i = 0 := Nat.lt_one_iff.1 hlt
      cases hc
      exact .required field n
  | optional field n =>
      cases n with
      | none => cases h
      | some n =>
          obtain rfl : i = 0 := Nat.lt_one_iff.1 hlt
          cases hc
          exact .optional field n
  | list field ns =>
      have hlen : (ns.take i).length = i := List.length_take_of_le (Nat.le_of_lt hlt)
      have hsplit : ns = ns.take i ++ c :: ns.drop (i + 1) := by
        rw [← hc]
        exact (List.take_append_drop i ns).symm.trans (congrArg _ (List.drop_eq_getElem_cons hlt))
      have hholds := Holds.list field (ns.take i) (ns.drop (i + 1)) c
      rwa [hlen, ← hsplit] at hholds

/-- An edit that fits a node succeeds in its place. -/
theorem Fits.turns {m : Node} {e : Edit} (h : e.Fits m) (hm : m.Identified) :
    ∃ s s' change, m.kind.slot? s.field = some s ∧ e.slotEdit? = some (m.id, s.field, change) ∧
      change.apply s = (.ok (), s') ∧ e.Turns s s' := by
  cases h with
  | @insertList pos field text ns place =>
      have hle : ns.findIdx (fun n => pos ≤ n.range.start) ≤ ns.length := List.findIdx_le_length
      -- The recorded index is at most the length, so it need not be cut down when the text is put in.
      generalize ns.findIdx (fun n => pos ≤ n.range.start) = index at hle ⊢
      obtain ⟨before, after, rfl, rfl⟩ : ∃ before after, before ++ after = ns ∧ before.length = index :=
        ⟨ns.take index, ns.drop index, List.take_append_drop index ns, List.length_take_of_le hle⟩
      refine ⟨.list field (before ++ after), .list field (before ++ .pasted text pos :: after), _, place, rfl, ?_,
        .insertList⟩
      simp [insertion, SlotEdit.apply, insertIdx_length_append]
  | @insertOptional pos field text place =>
      exact ⟨.optional field none, _, _, place, rfl, rfl, .insertOptional⟩
  | @delete c s field index place child =>
      obtain ⟨hs, rfl⟩ := Kind.slot?_eq_some_iff.1 place
      have hnodup := hm.slot_nodup hs
      refine ⟨s, ?_⟩
      cases holds_of_getElem? child with
      | required field =>
          refine ⟨.required field _, _, place, rfl, ?_, .deleteRequired⟩
          simp [deletion, SlotEdit.apply]
      | optional field =>
          refine ⟨.optional field none, _, place, rfl, ?_, .deleteOptional⟩
          simp [deletion, SlotEdit.apply]
      | list field before after =>
          refine ⟨.list field (before ++ after), _, place, rfl, ?_, .deleteList⟩
          simp [deletion, SlotEdit.apply, findIdx?_of_nodup hnodup, List.eraseIdx_append_of_length_le]
  | @replace c s field text index place child =>
      obtain ⟨hs, rfl⟩ := Kind.slot?_eq_some_iff.1 place
      have hnodup := hm.slot_nodup hs
      refine ⟨s, ?_⟩
      cases holds_of_getElem? child with
      | required field =>
          refine ⟨.required field _, _, place, rfl, ?_, .replaceRequired⟩
          simp [replacement, SlotEdit.apply]
      | optional field =>
          refine ⟨.optional field _, _, place, rfl, ?_, .replaceOptional⟩
          simp [replacement, SlotEdit.apply]
      | list field before after =>
          refine ⟨.list field (before ++ .pasted text c.range.start :: after), _, place, rfl, ?_, .replaceList⟩
          simp [replacement, SlotEdit.apply, findIdx?_of_nodup hnodup]

/-- An edit that fits a node succeeds on what is around the node, and changes its place there. -/
theorem Fits.graftOnto_changedAt {a p : Node} {e : Edit} (h : e.Fits p) (ha : a.Identified) (hp : p ∈ a.walk) :
    ∃ path s s' new, a.at? path = some p ∧ p.kind.slot? s.field = some s ∧ e.Turns s s' ∧
      e.graftOnto a = (.ok (), new) ∧ Node.ChangedAt path s' a new := by
  obtain ⟨s, s', change, hslot, hedit, happly, hturns⟩ := h.turns (ha.of_mem hp)
  obtain ⟨path, hpath, hat⟩ := ha.pathTo?_eq hp
  obtain ⟨kind, hkind, hskeleton, hslots⟩ := SlotEdit.editSlot?_of_slot hslot happly
  have hfield : s'.field = s.field := by rw [← change.field_apply s, happly]
  rw [← hfield] at hslots
  refine ⟨path, s, s', _, hat, hslot, hturns, ?_, Node.changedAt_modifyAt hat hskeleton hslots⟩
  simp only [graftOnto, hedit, hpath, hat, Option.bind_some, hkind]

/-! ## Edits that succeed or fail -/

/-- An edit made against a tree, in a place of a node, succeeds on a copy of any node around that node and
changes there what it is about in this place, and nothing else. An edit that fails, on any node, leaves it as
it was. -/
theorem graftOnto_exact_and_atomic :
    (∀ t : Tree, t.Distinct → ∀ e : Edit, e.Built t (fun _ => True) →
      ∃ p ∈ t.nodes, e.parent? = some p.id ∧ ∀ a ∈ t.nodes, p ∈ a.walk →
        ∃ path s s' new, a.at? path = some p ∧ p.kind.slot? s.field = some s ∧ e.Turns s s' ∧
          e.graftOnto a = (.ok (), new) ∧ Node.ChangedAt path s' a new) ∧
    ∀ (e : Edit) (copy left : Node) (err : EditError), e.graftOnto copy = (.error err, left) → left = copy := by
  refine ⟨fun t ht e he => ?_, fun e copy left err h => (graftOnto_error h).2⟩
  obtain ⟨p, hp, hfits⟩ := he.fits ht
  exact ⟨p, hp, hfits.parent?_eq, fun a ha hpa => hfits.graftOnto_changedAt (ht.identified ha) hpa⟩

/-- The branch of a conditional inside a call is taken away on a copy of the call, and leaves a blank. An edit
of a branch that is not there fails, and the call stays. -/
theorem graftOnto_exact_and_atomic_nested :
    let span : Nat → Nat → Span := fun i j => ⟨⟨0, i⟩, ⟨0, j⟩⟩
    let leaf : UInt64 → String → Nat → Node := fun id s i => ⟨⟨id⟩, span i (i + 1), 0, .literal s .symbol, none⟩
    let branch := leaf 5 "b" 9
    let inner : Node := ⟨⟨3⟩, span 3 11, 0, .conditional (leaf 4 "a" 7) branch none, none⟩
    let call : Node := ⟨⟨1⟩, span 0 12, 0, .app (leaf 2 "g" 1) [inner], none⟩
    let t := Tree.ofRoots [call]
    t.Distinct ∧
      (∃ e, delete t ⟨5⟩ = .ok e ∧ ∃ path s s' new, call.at? path = some inner ∧
        inner.kind.slot? s.field = some s ∧ e.Turns s s' ∧ e.graftOnto call = (.ok (), new) ∧
        Node.ChangedAt path s' call new) ∧
      ∃ err, graftOnto ⟨⟨0, 9⟩, ⟨0, 10⟩, .deleteChild ⟨6⟩ ⟨3⟩ "then" 0⟩ call = (.error err, call) := by
  intro span leaf branch inner call t
  have ht : t.Distinct := ⟨by decide, by decide⟩
  have hinner : inner ∈ t.nodes := Tree.mem_nodes_iff.2 ⟨[0, 1], rfl⟩
  have hbranch : branch ∈ inner.children := List.mem_of_getElem? (i := 1) rfl
  refine ⟨ht, ?_, ?_⟩
  · have hplace : inner.locate branch.id = .ok ("then", 0) := rfl
    have hdelete := delete_of_child ht hinner hbranch hplace
    refine ⟨_, hdelete, ?_⟩
    obtain ⟨p, hp, hparent, hall⟩ := graftOnto_exact_and_atomic.1 t ht _ (.delete hdelete rfl)
    obtain rfl : p = inner := ht.eq_of_id_eq hp hinner (Option.some.inj hparent).symm
    exact hall call (Tree.root_mem_nodes List.mem_cons_self) (Node.mem_walk_iff.2 ⟨[1], rfl⟩)
  · have hfails : (graftOnto ⟨⟨0, 9⟩, ⟨0, 10⟩, .deleteChild ⟨6⟩ ⟨3⟩ "then" 0⟩ call).1 =
        .error (.lookup ⟨6⟩ (.notInSlot "then")) := rfl
    exact ⟨_, Prod.ext hfails (graftOnto_exact_and_atomic.2 _ _ _ _ (Prod.ext hfails rfl))⟩

end Edit

end TreeEdit
