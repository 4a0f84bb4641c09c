import Mathlib.Algebra.BigOperators.Group.List.Basic
import TreeEdit.Proofs.Batches

/-!
# What edits take and give

Every edit takes signs away and gives others: a child that goes takes what it said, and in a required place
it leaves a blank; a text that is put in gives what it says. The signs of a tree under a batch of edits made
at once are the signs of the tree, less what the edits take and with what they give
(`Tree.Distinct.count_edited`).

Signs are counted one at a time, since edits move them about. A node says what its kind says and what stands
in its places; only the parameters of a function stand there without the brackets of their own.
-/

namespace TreeEdit

open Edit

/-! ## What stands in places -/

/-- What a node says in a place. -/
def Node.said (field : String) (n : Node) : List Sign :=
  if field = "params" then n.header.flatMap flatten else n.flatten

/-- What stands in a place. -/
def Slot.said (s : Slot Node) : List Sign := s.nodes.flatMap (Node.said s.field)

namespace Kind

/-- What a kind says besides what stands in its places. -/
def frame (k : Kind Node) : List Sign := k.shape.filterMap Sum.getLeft?

theorem parts_said (k : Kind Node) : k.parts.flatMap Node.flatten = k.slots.flatMap Slot.said := by
  have hsaid : ∀ field, field ≠ "params" → Node.said field = Node.flatten :=
    fun field hne => funext fun n => if_neg hne
  have hparams : ∀ n, Node.said "params" n = n.header.flatMap Node.flatten := fun n => if_pos rfl
  cases k <;> simp [parts, slots, Slot.said, Slot.nodes, Slot.field, hsaid, hparams]

theorem count_fill (x : Sign) {β : Type} (signs : β → List Sign) (pattern : List (Sign ⊕ β)) :
    (fill signs pattern).count x =
      (pattern.filterMap Sum.getLeft?).count x + ((pattern.filterMap Sum.getRight?).flatMap signs).count x := by
  induction pattern with
  | nil => rfl
  | cons part pattern ih =>
      cases part with
      | inl s =>
          rw [fill_inl, List.count_cons, ih]
          simp only [List.filterMap_cons, Sum.getLeft?, Sum.getRight?, List.count_cons]
          omega
      | inr n =>
          rw [fill_inr, List.count_append, ih]
          simp only [List.filterMap_cons, Sum.getLeft?, Sum.getRight?, List.flatMap_cons, List.count_append]
          omega

end Kind

theorem Node.count_flatten (x : Sign) (n : Node) :
    n.flatten.count x = n.kind.frame.count x + (n.kind.slots.flatMap Slot.said).count x := by
  rw [flatten_eq, Kind.count_fill, Kind.parts_eq, Kind.parts_said]
  rfl

namespace Kind

theorem frame_map (f : Node → Node) (k : Kind Node) : (k.map f).frame = k.frame := by
  cases k <;> simp [frame, shape, pattern, map, inForm, inBrackets, List.filterMap_cons, List.filterMap_append,
    List.filterMap_map, Function.comp_def]

theorem frame_refit (r : Refit Node) (k : Kind Node) : (k.refit r).frame = k.frame := by
  cases k <;> simp [frame, shape, pattern, refit, inForm, inBrackets, List.filterMap_cons, List.filterMap_append,
    List.filterMap_map, Function.comp_def]

end Kind

/-! ## One place changed -/

namespace Edit

/-- The signs that go with the child an edit is about. -/
def taken (e : Edit) (m : Node) : List Sign :=
  match e.kind with
  | .deleteChild _ _ field index | .replaceChild _ _ field index _ =>
    (((m.kind.slot? field).bind (·.nodes[index]?)).map (Node.said field)).getD []
  | _ => []

/-- What is left in a place when a child is taken away. -/
def leftIn (s : Slot Node) : List Sign :=
  match s with
  | .required .. => [.word blankText]
  | _ => []

/-- The signs that an edit leaves in a place. -/
def given (e : Edit) (m : Node) : List Sign :=
  match e.kind with
  | .insertChild _ _ _ text | .replaceChild _ _ _ _ text => signsOf text
  | .deleteChild _ _ field _ => ((m.kind.slot? field).map leftIn).getD []
  | _ => []

end Edit

theorem Node.said_of_leaf {n : Node} (h : n.header = [n]) (field : String) : n.said field = n.flatten := by
  unfold said
  split
  · rw [h, List.flatMap_singleton]
  · rfl

theorem Node.said_pasted (text : String) (p : Pos) (field : String) :
    (Node.pasted text p).said field = signsOf text := by
  rw [said_of_leaf rfl, flatten_eq]
  exact fill_signs flatten (signsOf text)

theorem Node.said_vacated (span : Span) (field : String) : (Node.vacated span).said field = [.word blankText] := by
  rw [said_of_leaf rfl]
  rfl

section Places

variable {S S' : Slot Node} {field : String} (x : Sign)

theorem count_insertion {parent : NodeId} {index : Nat} {new : Node}
    (h : (insertion parent field index new).apply S = (.ok (), S')) :
    S'.said.count x = S.said.count x + (new.said S.field).count x := by
  cases S with
  | required field' n => cases h
  | optional field' n =>
      cases n with
      | some n => cases h
      | none =>
          cases h
          simp [Slot.said, Slot.nodes, Slot.field]
  | list field' ns =>
      cases h
      have hperm : (ns.insertIdx (min index ns.length) new).Perm (new :: ns) :=
        List.perm_insertIdx new ns (Nat.min_le_right _ _)
      have hcount := (hperm.flatMap_right (Node.said field')).count_eq x
      rw [List.flatMap_cons, List.count_append] at hcount
      show ((ns.insertIdx (min index ns.length) new).flatMap (Node.said field')).count x = _
      rw [hcount, Nat.add_comm]
      rfl

/-- In the place the child with an identity has given way to some nodes. -/
def GivesWay (S S' : Slot Node) (target : NodeId) (new : List Node) : Prop :=
  S'.field = S.field ∧ ∃ before n after, S.nodes = before ++ n :: after ∧ n.id = target ∧
    S'.nodes = before ++ (new ++ after)

theorem GivesWay.count {target : NodeId} {new : List Node} (h : GivesWay S S' target new) :
    ∃ n ∈ S.nodes, n.id = target ∧
      S'.said.count x + (n.said S.field).count x = S.said.count x + (new.flatMap (Node.said S.field)).count x := by
  obtain ⟨hfield, before, n, after, hS, hid, hS'⟩ := h
  refine ⟨n, by simp [hS], hid, ?_⟩
  simp only [Slot.said, hS, hS', hfield, List.flatMap_append, List.flatMap_cons, List.count_append]
  omega

/-- The child with an identity in a list, and the list without it and with another one in its place. -/
theorem found_in_list {ns : List Node} {target : NodeId} {i : Nat}
    (h : ns.findIdx? (·.id == target) = some i) :
    ∃ before n after, ns = before ++ n :: after ∧ n.id = target ∧ ns.eraseIdx i = before ++ after ∧
      ∀ new, ns.set i new = before ++ new :: after := by
  obtain ⟨hlt, hid, -⟩ := List.findIdx?_eq_some_iff_getElem.1 h
  refine ⟨ns.take i, ns[i], ns.drop (i + 1), ?_, by simpa using hid, List.eraseIdx_eq_take_drop_succ _ _,
    fun new => List.set_eq_take_append_cons_drop.trans (if_pos hlt)⟩
  rw [List.cons_getElem_drop_succ, List.take_append_drop]

theorem replacement_givesWay {target : NodeId} {new : Node}
    (h : (replacement target field new).apply S = (.ok (), S')) : GivesWay S S' target [new] := by
  cases S with
  | required field' n =>
      obtain ⟨m, hm, rfl⟩ := map_eq_done_iff.1 h
      simp only [replacement] at hm
      split at hm
      · cases hm
        exact ⟨rfl, [], n, [], rfl, ‹_›, rfl⟩
      · cases hm
  | optional field' n =>
      obtain ⟨m, hm, rfl⟩ := map_eq_done_iff.1 h
      cases n with
      | none => cases hm
      | some n =>
          simp only [replacement] at hm
          split at hm
          · cases hm
            exact ⟨rfl, [], n, [], rfl, ‹_›, rfl⟩
          · cases hm
  | list field' ns =>
      obtain ⟨ms, hms, rfl⟩ := map_eq_done_iff.1 h
      simp only [replacement] at hms
      split at hms
      · rename_i i hi
        cases hms
        obtain ⟨before, n, after, hns, hid, -, hset⟩ := found_in_list hi
        exact ⟨rfl, before, n, after, hns, hid, hset new⟩
      · cases hms

theorem deletion_givesWay {target : NodeId} (h : (deletion target field).apply S = (.ok (), S')) :
    ∃ new, GivesWay S S' target new ∧ new.flatMap (Node.said S.field) = leftIn S := by
  cases S with
  | required field' n =>
      obtain ⟨m, hm, rfl⟩ := map_eq_done_iff.1 h
      simp only [deletion] at hm
      split at hm
      · cases hm
        refine ⟨[.vacated n.span], ⟨rfl, [], n, [], rfl, ‹_›, rfl⟩, ?_⟩
        rw [List.flatMap_singleton, Node.said_vacated]
        rfl
      · cases hm
  | optional field' n =>
      obtain ⟨m, hm, rfl⟩ := map_eq_done_iff.1 h
      cases n with
      | none => cases hm
      | some n =>
          simp only [deletion] at hm
          split at hm
          · cases hm
            exact ⟨[], ⟨rfl, [], n, [], rfl, ‹_›, rfl⟩, rfl⟩
          · cases hm
  | list field' ns =>
      obtain ⟨ms, hms, rfl⟩ := map_eq_done_iff.1 h
      simp only [deletion] at hms
      split at hms
      · rename_i i hi
        cases hms
        obtain ⟨before, n, after, hns, hid, herase, -⟩ := found_in_list hi
        exact ⟨[], ⟨rfl, before, n, after, hns, hid, herase⟩, rfl⟩
      · cases hms

/-- If only one place of a kind has changed, the change is that of the place. -/
theorem Kind.count_refit {k : Kind Node} {r r' : Refit Node} {s : Slot Node} (hs : s ∈ k.slots)
    (hother : ∀ t ∈ k.slots, t.field ≠ s.field → t.refit r = t.refit r') :
    ((k.refit r').slots.flatMap Slot.said).count x + (s.refit r).said.count x =
      ((k.refit r).slots.flatMap Slot.said).count x + (s.refit r').said.count x := by
  have hnodup := k.fields_nodup
  rw [slots_refit, slots_refit]
  obtain ⟨before, after, hslots⟩ := List.append_of_mem hs
  rw [hslots] at hnodup hother ⊢
  rw [List.map_append, List.map_cons, List.nodup_middle, List.nodup_cons] at hnodup
  have hsame : ∀ ts : List (Slot Node), (∀ t ∈ ts, t ∈ before ++ after) →
      ts.map (Slot.refit r) = ts.map (Slot.refit r') := by
    intro ts hts
    refine List.map_congr_left fun t ht => hother t ?_ fun hfield => hnodup.1 ?_
    · have hmem := hts t ht
      simp only [List.mem_append, List.mem_cons] at hmem ⊢
      tauto
    · rw [← hfield, ← List.map_append]
      exact List.mem_map_of_mem (hts t ht)
  rw [List.map_append, List.map_append, List.map_cons, List.map_cons, hsame before (by simp +contextual),
    hsame after (by simp +contextual)]
  simp only [List.flatMap_append, List.flatMap_cons, List.count_append]
  omega

end Places

/-! ## One node changed -/

theorem Node.flatten_of_identifiers {n : Node} {ids : List Node} (h : n.kind = .identifiers ids) :
    n.flatten = .opening :: (n.header.flatMap flatten ++ [.closing]) := by
  rw [flatten_eq, header_of_identifiers h, children, h]
  simp [Kind.shape, Kind.pattern, Kind.children, Kind.slots, Slot.nodes, List.flatMap_def]

/-- What a change of a node takes and gives is the same in every place. -/
theorem Node.count_said {x : Sign} {n n' : Node} {takes gives : Nat}
    (hnames : (∃ ids, n'.kind = .identifiers ids) ↔ ∃ ids, n.kind = .identifiers ids)
    (h : n'.flatten.count x + takes = n.flatten.count x + gives) (field : String) :
    (n'.said field).count x + takes = (n.said field).count x + gives := by
  unfold said
  split
  · by_cases hids : ∃ ids, n.kind = .identifiers ids
    · obtain ⟨ids', hids'⟩ := hnames.2 hids
      obtain ⟨ids, hids⟩ := hids
      rw [flatten_of_identifiers hids, flatten_of_identifiers hids'] at h
      simp only [List.count_cons, List.count_append] at h
      omega
    · rw [header_of_other fun ids hk => hids ⟨ids, hk⟩, header_of_other fun ids hk => hids (hnames.1 ⟨ids, hk⟩),
        List.flatMap_singleton, List.flatMap_singleton]
      exact h
  · exact h

theorem count_flatMap_exchange {α : Type} {x : Sign} {as : List α} {said said' : α → List Sign} {times : α → Nat}
    {takes gives : Nat}
    (h : ∀ a ∈ as, (said' a).count x + times a * takes = (said a).count x + times a * gives) :
    (as.flatMap said').count x + (as.map times).sum * takes =
      (as.flatMap said).count x + (as.map times).sum * gives := by
  induction as with
  | nil => simp
  | cons a as ih =>
      obtain ⟨ha, has⟩ := List.forall_mem_cons.1 h
      have hrest := ih has
      rw [List.flatMap_cons, List.flatMap_cons, List.count_append, List.count_append, List.map_cons, List.sum_cons,
        Nat.add_mul, Nat.add_mul]
      omega

/-- The node with an identity changed takes and gives as often as it occurs. -/
theorem Node.count_modifyId {x : Sign} {target : NodeId} {f : Node → Node} {takes gives : Nat} {n : Node}
    (hthere : ∀ m ∈ n.walk, m.id = target → target ∉ m.children.flatMap ids ∧
      ((∃ ids, (f m).kind = .identifiers ids) ↔ ∃ ids, m.kind = .identifiers ids) ∧
      (f m).flatten.count x + takes = m.flatten.count x + gives) :
    (n.modifyId target f).flatten.count x + n.ids.count target * takes =
      n.flatten.count x + n.ids.count target * gives := by
  suffices ((∃ ids, (n.modifyId target f).kind = .identifiers ids) ↔ ∃ ids, n.kind = .identifiers ids) ∧
      (n.modifyId target f).flatten.count x + n.ids.count target * takes =
        n.flatten.count x + n.ids.count target * gives from this.2
  induction n using induct with
  | step n ih =>
      by_cases hid : n.id = target
      · obtain ⟨hbelow, hnames, hcount⟩ := hthere n n.mem_walk_self hid
        have hself : n.modifyId target f = f n := by
          rw [modifyId_eq, if_pos hid, with_map_eq_self fun c hc =>
            modifyId_of_not_mem fun hmem => hbelow (List.mem_flatMap.2 ⟨c, hc, hmem⟩)]
        rw [hself, ids_eq, hid, List.count_cons_self, List.count_eq_zero.2 hbelow]
        exact ⟨hnames, by omega⟩
      · have hmodify : n.modifyId target f = { n with kind := n.kind.map (modifyId target f) } := by
          rw [modifyId_eq, if_neg hid]
        refine ⟨?_, ?_⟩
        · rw [hmodify]
          cases n.kind <;> simp [Kind.map]
        · have hslots : ∀ s ∈ n.kind.slots, ∀ c ∈ s.nodes,
              (said s.field (c.modifyId target f)).count x + c.ids.count target * takes =
                (c.said s.field).count x + c.ids.count target * gives := by
            intro s hs c hc
            have hchild : c ∈ n.children := List.mem_flatMap.2 ⟨s, hs, hc⟩
            obtain ⟨hnames, hcount⟩ := ih c hchild fun m hm =>
              hthere m (mem_walk_trans (mem_walk_of_child hchild) hm)
            exact count_said hnames hcount s.field
          have hplaces : ∀ s ∈ n.kind.slots, (s.map (modifyId target f)).said.count x +
              (s.nodes.map (fun c => c.ids.count target)).sum * takes =
                s.said.count x + (s.nodes.map (fun c => c.ids.count target)).sum * gives := by
            intro s hs
            have hsaid := count_flatMap_exchange (hslots s hs)
            rw [Slot.said, Slot.nodes_map, Slot.field_map, List.flatMap_map]
            exact hsaid
          have htotal := count_flatMap_exchange hplaces
          rw [hmodify, count_flatten, count_flatten, Kind.frame_map, Kind.slots_map, List.flatMap_map, ids_eq,
            List.count_cons_of_ne hid]
          have htimes : (n.children.flatMap ids).count target =
              (n.kind.slots.map fun s => (s.nodes.map fun c => c.ids.count target).sum).sum := by
            rw [children, Kind.children, List.flatMap_assoc, List.count_flatMap]
            congr 1
            refine List.map_congr_left fun s _ => ?_
            rw [Function.comp_apply, List.count_flatMap]
            rfl
          rw [htimes]
          omega

/-! ## Edits in turn -/

namespace Edit

theorem leftIn_refit (s : Slot Node) (f : Node → Node) (r : Refit Node) : leftIn ((s.map f).refit r) = leftIn s := by
  cases s <;> rfl

namespace Turn

variable {n m : Node} {done rest : List Edit} {e : Edit} (h : Turn n (done ++ e :: rest)) (hm : m ∈ n.walk)
  (hfits : e.Fits m) (x : Sign)

include h hm

/-- A child that the next edit is about is in the copy as it was. -/
theorem target_untouched {s : Slot Node} (hs : s ∈ m.kind.slots) {c l : Node} (hc : c ∈ s.nodes)
    (hfate : e.fateOf? c.id ≠ none) (hl : l ∈ ((s.map (Node.edited done)).refit (refit (inside done m.id))).nodes)
    (hid : l.id = c.id) : l = c := by
  have hown := h.identified.of_mem hm
  have hchild : c ∈ m.children := List.mem_flatMap.2 ⟨s, hs, hc⟩
  have hcwalk : c ∈ n.walk := Node.mem_walk_trans hm (Node.mem_walk_of_child hchild)
  rcases mem_nodes_refit hl with hmade | ⟨hl, -⟩
  · exact absurd (hid.symm.trans hmade.id_eq) (h.identified.id_ne hcwalk)
  · rw [Slot.nodes_map] at hl
    obtain ⟨d, hd, rfl⟩ := List.mem_map.1 hl
    rw [Node.id_edited] at hid
    have hdchild : d ∈ m.children := List.mem_flatMap.2 ⟨s, hs, hd⟩
    obtain rfl := hown.eq_of_id_eq (Node.mem_walk_of_child hdchild) (Node.mem_walk_of_child hchild) hid
    -- No edit is inside a child that goes.
    have hnone : ∀ id ∈ d.ids, inside done id = [] := by
      intro id hmem
      refine List.filter_eq_nil_iff.2 fun e' he' hparent => ?_
      exact h.apart e' (by simp [he']) e (by simp) d hcwalk hfate id (by simpa using hparent) hmem
    exact Node.edited_eq_self hnone

include hfits

/-- In the place of the next edit. -/
theorem count_place {field : String} {change : SlotEdit EditError Node} {s S' : Slot Node}
    (hedit : e.slotEdit? = some (m.id, field, change)) (hplace : m.kind.slot? field = some s)
    (happly : change.apply ((s.map (Node.edited done)).refit (refit (inside done m.id))) = (.ok (), S')) :
    S'.said.count x + (e.taken m).count x =
      ((s.map (Node.edited done)).refit (refit (inside done m.id))).said.count x + (e.given m).count x := by
  obtain ⟨hs, hfield⟩ := Kind.slot?_eq_some_iff.1 hplace
  have hsame : ((s.map (Node.edited done)).refit (refit (inside done m.id))).field = field := by
    rw [Slot.field_refit, Slot.field_map, hfield]
  cases hfits with
  | @insertList pos field' text ns place | @insertOptional pos field' text place =>
      cases hedit
      have hcount := count_insertion x happly
      rw [Node.said_pasted] at hcount
      simpa [taken, given] using hcount
  | @delete c s' field' index place child =>
      cases hedit
      cases hplace.symm.trans place
      obtain ⟨new, hgives, hleft⟩ := deletion_givesWay happly
      obtain ⟨l, hl, hid, hcount⟩ := hgives.count x
      obtain rfl := target_untouched h hm hs (List.mem_of_getElem? child) (by simp [fateOf?]) hl hid
      rw [hleft, leftIn_refit, hsame] at hcount
      simpa [taken, given, place, child] using hcount
  | @replace c s' field' text index place child =>
      cases hedit
      cases hplace.symm.trans place
      obtain ⟨l, hl, hid, hcount⟩ := (replacement_givesWay happly).count x
      obtain rfl := target_untouched h hm hs (List.mem_of_getElem? child) (by simp [fateOf?]) hl hid
      rw [List.flatMap_singleton, Node.said_pasted, hsame] at hcount
      simpa [taken, given, place, child] using hcount

/-- In the parent of the next edit. -/
theorem count_parent :
    ({ m.edited done with
        kind := (m.kind.map (Node.edited done)).refit (refit (inside done m.id ++ [e])) } : Node).flatten.count x +
      (e.taken m).count x = (m.edited done).flatten.count x + (e.given m).count x := by
  obtain ⟨field, change, hedit⟩ : ∃ field change, e.slotEdit? = some (m.id, field, change) := by
    cases hfits <;> exact ⟨_, _, rfl⟩
  obtain ⟨s, hplace, happly, hother⟩ := changes_place h hm hfits hedit
  obtain ⟨hs, rfl⟩ := Kind.slot?_eq_some_iff.1 hplace
  have hslot : s.map (Node.edited done) ∈ (m.kind.map (Node.edited done)).slots := by
    rw [Kind.slots_map]
    exact List.mem_map_of_mem hs
  have hothers : ∀ t ∈ (m.kind.map (Node.edited done)).slots, t.field ≠ (s.map (Node.edited done)).field →
      t.refit (refit (inside done m.id)) = t.refit (refit (inside done m.id ++ [e])) := by
    intro t ht hne
    rw [Kind.slots_map] at ht
    obtain ⟨t, hmem, rfl⟩ := List.mem_map.1 ht
    rw [Slot.field_map, Slot.field_map] at hne
    exact hother t hmem hne
  have hplaces := Kind.count_refit x hslot hothers
  have hthis := count_place h hm hfits x hedit hplace happly
  rw [Node.count_flatten, Node.count_flatten, Node.kind_edited]
  simp only [Kind.frame_refit]
  omega

/-- One step: the next edit takes and gives its signs. -/
theorem count_step :
    (n.edited (done ++ [e])).flatten.count x + (e.taken m).count x =
      (n.edited done).flatten.count x + (e.given m).count x := by
  have hne := h.identified.id_ne hm
  have hcopy : ∀ l ∈ (n.edited done).walk, l.id = m.id → l = m.edited done := by
    intro l hl hid
    rcases Node.mem_walk_edited hl with hmade | ⟨d, hd, rfl⟩
    · exact absurd (hid.symm.trans hmade.id_eq) hne
    · rw [Node.id_edited] at hid
      rw [h.identified.eq_of_id_eq hd hm hid]
  have honce : (n.edited done).ids.count m.id = 1 := by
    obtain ⟨path, -, hat⟩ := finds_parent h hm hfits
    have hmem : m.id ∈ (n.edited done).ids :=
      List.mem_map.2 ⟨_, Node.mem_walk_iff.2 ⟨path, hat⟩, Node.id_edited m⟩
    have hpos := List.count_pos_iff.2 hmem
    have hle : (n.edited done).ids.count m.id ≤ 1 :=
      (Node.count_ids_edited_le hne n).trans (h.identified.count_le m.id)
    omega
  have hbelow : m.id ∉ (m.edited done).children.flatMap Node.ids := by
    have hle : (m.edited done).ids.count m.id ≤ 1 :=
      (Node.count_ids_edited_le hne m).trans ((h.identified.of_mem hm).count_le m.id)
    rw [Node.ids_eq, Node.id_edited, List.count_cons_self] at hle
    exact List.count_eq_zero.1 (by omega)
  -- The copy with one edit more is the copy with one node changed.
  have hmodify : n.edited (done ++ [e]) = (n.edited done).modifyId m.id fun l =>
      { l with kind := (m.kind.map (Node.edited done)).refit (refit (inside done m.id ++ [e])) } := by
    refine (Node.modifyId_edited hfits.parent?_eq hne (fun _ => rfl) fun l hl hid => ?_).symm
    obtain rfl := h.identified.eq_of_id_eq hl hm hid
    exact ⟨(h.identified.of_mem hl).not_mem_below, rfl⟩
  have hcount := Node.count_modifyId (x := x) (n := n.edited done) (f := fun l =>
      { l with kind := (m.kind.map (Node.edited done)).refit (refit (inside done m.id ++ [e])) })
    fun l hl hid => ⟨hcopy l hl hid ▸ hbelow, ?_, hcopy l hl hid ▸ count_parent h hm hfits x⟩
  · rw [← hmodify, honce, Nat.one_mul, Nat.one_mul] at hcount
    exact hcount
  · rw [hcopy l hl hid, Node.kind_edited, Kind.identifiers_refit_iff, Kind.identifiers_refit_iff]

end Turn

/-- The whole run: edits carried out in turn take and give what each of them does. -/
theorem Turn.count_edited {n : Node} {edits : List Edit} (h : Turn n edits) (x : Sign) {parent : Edit → Node}
    (hparent : ∀ e ∈ edits, parent e ∈ n.walk ∧ e.Fits (parent e)) :
    (n.edited edits).flatten.count x + (edits.map fun e => (e.taken (parent e)).count x).sum =
      n.flatten.count x + (edits.map fun e => (e.given (parent e)).count x).sum := by
  suffices ∀ (rest done : List Edit), Turn n (done ++ rest) → (∀ e ∈ rest, parent e ∈ n.walk ∧ e.Fits (parent e)) →
      (n.edited (done ++ rest)).flatten.count x + (rest.map fun e => (e.taken (parent e)).count x).sum =
        (n.edited done).flatten.count x + (rest.map fun e => (e.given (parent e)).count x).sum by
    have hrun := this edits [] h hparent
    rwa [List.nil_append, Node.edited_nil] at hrun
  intro rest
  induction rest with
  | nil => simp
  | cons e rest ih =>
      intro done h hparent
      obtain ⟨⟨hm, hfits⟩, hrest⟩ := List.forall_mem_cons.1 hparent
      have hstep := h.count_step hm hfits x
      rw [List.append_cons] at h ⊢
      have hrun := ih (done ++ [e]) h hrest
      simp only [List.map_cons, List.sum_cons]
      omega

end Edit

/-! ## Forests -/

theorem sum_once {v : Nat} {id : NodeId} {roots : List Node} (hnodup : (roots.flatMap Node.ids).Nodup)
    (hmem : id ∈ roots.flatMap Node.ids) : (roots.map fun r => if id ∈ r.ids then v else 0).sum = v := by
  induction roots with
  | nil => cases hmem
  | cons r roots ih =>
      rw [List.flatMap_cons, List.nodup_append'] at hnodup
      rw [List.flatMap_cons, List.mem_append] at hmem
      rw [List.map_cons, List.sum_cons]
      by_cases hr : id ∈ r.ids
      · have hnone : ∀ r' ∈ roots, (if id ∈ r'.ids then v else 0) = 0 := by
          intro r' hr'
          exact if_neg fun hmem' => hnodup.2.2 hr (List.mem_flatMap.2 ⟨r', hr', hmem'⟩)
        rw [if_pos hr, List.map_congr_left hnone]
        simp
      · rw [if_neg hr, ih hnodup.2.1 (hmem.resolve_left hr), Nat.zero_add]

theorem sum_by_roots {parent : Edit → Node} {roots : List Node} (hnodup : (roots.flatMap Node.ids).Nodup)
    {edits : List Edit} (hmem : ∀ e ∈ edits, (parent e).id ∈ roots.flatMap Node.ids) (g : Edit → Nat) :
    (roots.map fun r => ((edits.filter fun e => (parent e).id ∈ r.ids).map g).sum).sum = (edits.map g).sum := by
  induction edits with
  | nil => simp
  | cons e edits ih =>
      obtain ⟨he, hedits⟩ := List.forall_mem_cons.1 hmem
      have hsplit : ∀ r : Node, (((e :: edits).filter fun e => (parent e).id ∈ r.ids).map g).sum =
          (if (parent e).id ∈ r.ids then g e else 0) +
            ((edits.filter fun e => (parent e).id ∈ r.ids).map g).sum := by
        intro r
        by_cases hr : (parent e).id ∈ r.ids <;> simp [hr]
      rw [List.map_congr_left fun r _ => hsplit r, List.sum_map_add, sum_once hnodup he, ih hedits, List.map_cons,
        List.sum_cons]

/-- Compatible edits in some of the trees of a forest, latest first and made at once, take and give what
each of them does. -/
theorem Tree.Distinct.count_edited {t : Tree} (ht : t.Distinct) {edits : List Edit}
    (hcompat : edits.Pairwise (Compatible t)) (hlatest : edits.Pairwise fun e e' => rangeLe e'.span e.span = true)
    {roots : List Node} (hroots : ∀ r ∈ roots, r ∈ t.nodes) (hnodup : (roots.flatMap Node.ids).Nodup)
    {parent : Edit → Node} (hparent : ∀ e ∈ edits, (∃ r ∈ roots, parent e ∈ r.walk) ∧ e.Fits (parent e)) (x : Sign) :
    (roots.flatMap fun r => (r.edited edits).flatten).count x + (edits.map fun e => (e.taken (parent e)).count x).sum =
      (roots.flatMap Node.flatten).count x + (edits.map fun e => (e.given (parent e)).count x).sum := by
  have hmem : ∀ e ∈ edits, (parent e).id ∈ roots.flatMap Node.ids := by
    intro e he
    obtain ⟨⟨r, hr, hwalk⟩, -⟩ := hparent e he
    exact List.mem_flatMap.2 ⟨r, hr, List.mem_map_of_mem hwalk⟩
  have hroot : ∀ r ∈ roots, (r.edited edits).flatten.count x +
      ((edits.filter fun e => (parent e).id ∈ r.ids).map fun e => (e.taken (parent e)).count x).sum =
        r.flatten.count x +
          ((edits.filter fun e => (parent e).id ∈ r.ids).map fun e => (e.given (parent e)).count x).sum := by
    intro r hr
    have hthere : ∀ e ∈ edits.filter fun e => (parent e).id ∈ r.ids, parent e ∈ r.walk ∧ e.Fits (parent e) := by
      intro e he
      obtain ⟨he, hid⟩ := List.mem_filter.1 he
      obtain ⟨⟨r', hr', hwalk⟩, hfits⟩ := hparent e he
      obtain ⟨l, hl, hid⟩ := List.mem_map.1 (of_decide_eq_true hid)
      rw [ht.eq_of_id_eq (mem_nodes_of_mem_walk (hroots r' hr') hwalk)
        (mem_nodes_of_mem_walk (hroots r hr) hl) hid.symm] at hfits ⊢
      exact ⟨hl, hfits⟩
    have hsame : r.edited edits = r.edited (edits.filter fun e => (parent e).id ∈ r.ids) := by
      refine Node.edited_congr fun id hid => congrArg Edit.refit ?_
      rw [inside, inside, List.filter_filter]
      refine List.filter_congr fun e he => ?_
      rw [(hparent e he).2.parent?_eq]
      by_cases heq : (parent e).id = id <;> simp [heq, hid]
    have hturn := turn_of_compatible (hcompat.filter _) (hlatest.filter _) ht (hroots r hr)
      fun e he => ⟨parent e, hthere e he⟩
    rw [hsame]
    exact hturn.count_edited x hthere
  have htotal := congrArg List.sum (List.map_congr_left hroot)
  rw [List.sum_map_add, List.sum_map_add, sum_by_roots hnodup hmem, sum_by_roots hnodup hmem] at htotal
  rw [List.count_flatMap, List.count_flatMap]
  exact htotal

end TreeEdit
