import TreeEdit.Proofs.Written

/-!
# What recognition hands on

The children of a recognised list are its expressions, some with comments moved onto them, some under
another kind, and some taken out of a list inside it. A property that none of these steps destroys
passes from the expressions of a list to the children of whatever the list is recognised as:
`Inherited.children`. So it holds of all that was read if leaves have it: `Inherited.roots`. What is said of all
nodes in a node is handed on if each step keeps it at the one node that the step changes: `Inherited.throughout`.
-/

namespace TreeEdit

theorem Reader.children_applicationOf (items : List Node) : (applicationOf items).children = items := by
  cases items <;> simp [applicationOf, Kind.children, Kind.slots, Slot.nodes]

theorem Reader.leaf_children (t : Token) : (leaf t).children = [] := by
  unfold leaf Kind.ofAtom
  repeat' split
  all_goals rfl

theorem Kind.children_raw (k : Kind Node) : k.raw.children = k.children := by
  cases k with
  | identifiers ids =>
      rw [raw, Reader.children_applicationOf]
      simp [children, slots, Slot.nodes]
  | _ => rfl

namespace Node

theorem mem_walk_self (n : Node) : n ∈ n.walk := by
  rw [walk_eq]
  exact List.mem_cons_self

theorem mem_walk_trans {n m l : Node} (h : m ∈ n.walk) (h' : l ∈ m.walk) : l ∈ n.walk := by
  induction n using induct with
  | step n ih =>
      rw [walk_eq] at h ⊢
      rcases List.mem_cons.1 h with rfl | h
      · rwa [← walk_eq]
      · obtain ⟨c, hc, h⟩ := List.mem_flatMap.1 h
        exact List.mem_cons_of_mem _ (List.mem_flatMap.2 ⟨c, hc, ih c hc h⟩)

theorem mem_walk_of_child {n m : Node} (h : m ∈ n.children) : m ∈ n.walk := by
  rw [walk_eq]
  exact List.mem_cons_of_mem _ (List.mem_flatMap.2 ⟨m, h, m.mem_walk_self⟩)

theorem forall_walk {Q : Node → Prop} {n : Node} :
    (∀ l ∈ n.walk, Q l) ↔ Q n ∧ ∀ m ∈ n.children, ∀ l ∈ m.walk, Q l := by
  rw [walk_eq, List.forall_mem_cons, List.forall_mem_flatMap]

end Node

namespace Reader

/-- A property `P` of nodes that the steps of recognition keep; `N` is what it asks of comments. -/
structure Inherited (P : Node → Prop) (N : Note → Prop) : Prop where
  child {n m : Node} : P n → m ∈ n.children → P m
  note {n : Node} {c : Comment} : P n → c ∈ n.comment → N c.note
  hang {n : Node} {notes : List Note} : P n → (∀ t ∈ notes, N t) → P (n.addNotes notes)
  uncommented {n : Node} : P n → P (n.withComment none)
  rekind {n : Node} {k : Kind Node} : P n → n.kind = k.raw → P (rekind n k)
  params {n name : Node} {ids : List Node} : P n → n.kind = .app name ids → (∀ m ∈ ids, m.symbol?.isSome) →
    P (.make (.identifiers ids) (paramsSpan name ids))

namespace Inherited

variable {P : Node → Prop} {N : Note → Prop} (hP : Inherited P N)

include hP

theorem notes {n : Node} (hn : P n) : ∀ t ∈ (n.comment.map Comment.note).toList, N t := by
  intro t ht
  simp only [Option.mem_toList, Option.map_eq_some_iff] at ht
  obtain ⟨c, hc, rfl⟩ := ht
  exact hP.note hn hc

theorem elements {n : Node} (hn : P n) {items : List Node} (h : n.kind = applicationOf items) :
    ∀ m ∈ items, P m := by
  intro m hm
  refine hP.child hn ?_
  rwa [Node.children, h, children_applicationOf]

theorem identifiers {n : Node} (hn : P n) {ids : List Node} (h : symbols? n = some ids) :
    P (Reader.rekind n (.identifiers ids)) :=
  hP.rekind hn (symbols?_eq_some h).1

theorem clause {n c : Node} (h : clause? n = some c) (hn : P n) : P c := by
  obtain ⟨test, body, hkind, rfl⟩ := clause?_eq_some h
  exact hP.rekind hn hkind

theorem binding {n b : Node} (h : binding? n = some b) (hn : P n) : P b := by
  obtain ⟨name, value, hkind, -, rfl⟩ := binding?_eq_some h
  exact hP.rekind hn hkind

/-- What holds of the expressions of a form holds of the children of what is made of them. -/
theorem formed {keyword : String} {items : List Node} {k : Kind Node} (h : Formed keyword items k)
    (hitems : ∀ n ∈ items, P n) : ∀ m ∈ k.children, P m := by
  cases h with
  | variableDef symbol => exact fun m hm => hitems m (List.mem_cons_of_mem _ hm)
  | @functionDef head target name body params header =>
      have htarget := hitems target (by simp)
      obtain ⟨hkind, hall⟩ := symbols?_eq_some header
      have hname := (List.forall_mem_cons.1 (hP.elements htarget hkind)).1
      have hnamed := hP.hang hname (hP.notes htarget)
      have hlist := hP.params htarget hkind (List.forall_mem_cons.1 hall).2
      simp [Kind.children, Kind.slots, Slot.nodes, hnamed, hlist, hitems body (by simp)]
  | @structDef head name fields ids symbol list =>
      have hids := hP.identifiers (hitems fields (by simp)) list
      simp [Kind.children, Kind.slots, Slot.nodes, hitems name (by simp), hids]
  | @lambda head args body ids list =>
      have hids := hP.identifiers (hitems args (by simp)) list
      simp [Kind.children, Kind.slots, Slot.nodes, hitems body (by simp), hids]
  | oneArm => exact fun m hm => hitems m (List.mem_cons_of_mem _ hm)
  | twoArms => exact fun m hm => hitems m (List.mem_cons_of_mem _ hm)
  | @cond _ clauses all =>
      have hclauses : ∀ c ∈ clauses, P c := by
        intro c hc
        obtain ⟨n, hn, hclause⟩ := exists_of_mapM all hc
        exact hP.clause hclause (hitems n (List.mem_of_mem_drop hn))
      simpa [Kind.children, Kind.slots, Slot.nodes] using hclauses
  | @letNothing form head list body empty =>
      have hbody := hP.hang (hitems body (by simp)) (hP.notes (hitems list (by simp)))
      simp [Kind.children, Kind.slots, Slot.nodes, hbody]
  | @letIn form head list body first rest bound =>
      have hlist := hitems list (by simp)
      obtain ⟨elements, hkind, hmap⟩ := bindings?_eq_some bound
      have hbindings : ∀ b ∈ first :: rest, P b := by
        intro b hb
        obtain ⟨n, hn, hbinding⟩ := exists_of_mapM hmap hb
        exact hP.binding hbinding (hP.elements hlist hkind n hn)
      obtain ⟨hfirst, hrest⟩ := List.forall_mem_cons.1 hbindings
      intro m hm
      simp only [Kind.children, Kind.slots, Slot.nodes, List.flatMap_cons, List.flatMap_nil,
        List.append_nil, List.cons_append, List.mem_cons, List.mem_append, List.not_mem_nil,
        or_false] at hm
      rcases hm with rfl | hm | rfl
      · exact hP.hang hfirst (hP.notes hlist)
      · exact hrest m hm
      · exact hitems m (by simp)
  | guarded form => simpa [Kind.children, Kind.slots, Slot.nodes] using (List.forall_mem_cons.1 hitems).2
  | sequence =>
      have hrest : ∀ n ∈ items.drop 1, P n := fun n hn => hitems n (List.mem_of_mem_drop hn)
      simpa [Kind.children, Kind.slots, Slot.nodes] using hrest

theorem passKeywordComment {items : List Node} (h : ∀ n ∈ items, P n) :
    ∀ n ∈ passKeywordComment items, P n := by
  rcases passKeywordComment_cases items with hpass | ⟨keyword, next, rest, c, rfl, hc, hpass⟩
  · rwa [hpass]
  · obtain ⟨hkeyword, hmore⟩ := List.forall_mem_cons.1 h
    obtain ⟨hnext, hrest⟩ := List.forall_mem_cons.1 hmore
    rw [hpass]
    refine List.forall_mem_cons.2 ⟨hP.uncommented hkeyword, List.forall_mem_cons.2 ⟨?_, hrest⟩⟩
    exact hP.hang hnext (by simpa using hP.note hkeyword hc)

/-- What holds of the expressions of a list holds of the children of what it is recognised as. -/
theorem children {items : List Node} (h : ∀ n ∈ items, P n) :
    ∀ m ∈ (recognise items).children, P m := by
  have hpass := hP.passKeywordComment h
  rcases recognise_cases items with ⟨-, hrec⟩ | ⟨keyword, -, -, hformed | hrec⟩
  · rwa [hrec, children_applicationOf]
  · exact hP.formed hformed hpass
  · rw [hrec]
    simpa [Kind.children, Kind.slots, Slot.nodes] using hpass

end Inherited

/-- A property of all nodes in a node is handed on if the steps of recognition keep it at the node they change. -/
theorem Inherited.throughout {Q : Node → Prop} {N : Note → Prop}
    (hnote : ∀ {n : Node} {c : Comment}, Q n → c ∈ n.comment → N c.note)
    (hhang : ∀ {n : Node} {notes : List Note}, Q n → (∀ t ∈ notes, N t) → Q (n.addNotes notes))
    (huncommented : ∀ {n : Node}, Q n → Q (n.withComment none))
    (hrekind : ∀ {n : Node} {k : Kind Node}, Q n → n.kind = k.raw → Q (Reader.rekind n k))
    (hparams : ∀ {n name : Node} {ids : List Node}, Q n → n.kind = .app name ids →
      (∀ m ∈ ids, m.symbol?.isSome) → Q (.make (.identifiers ids) (paramsSpan name ids))) :
    Inherited (fun n => ∀ m ∈ n.walk, Q m) N where
  child hn hm := (Node.forall_walk.1 hn).2 _ hm
  note hn hc := hnote (Node.forall_walk.1 hn).1 hc
  hang {n notes} hn hnotes := by
    obtain ⟨hself, hbelow⟩ := Node.forall_walk.1 hn
    refine Node.forall_walk.2 ⟨hhang hself hnotes, ?_⟩
    rwa [Node.children, Node.kind_addNotes]
  uncommented hn := by
    obtain ⟨hself, hbelow⟩ := Node.forall_walk.1 hn
    exact Node.forall_walk.2 ⟨huncommented hself, hbelow⟩
  rekind {n k} hn hkind := by
    obtain ⟨hself, hbelow⟩ := Node.forall_walk.1 hn
    refine Node.forall_walk.2 ⟨hrekind hself hkind, ?_⟩
    rwa [Node.children, hkind, Kind.children_raw] at hbelow
  params {n name ids} hn hkind hsymbols := by
    obtain ⟨hself, hbelow⟩ := Node.forall_walk.1 hn
    refine Node.forall_walk.2 ⟨hparams hself hkind hsymbols, fun m hm => hbelow m ?_⟩
    -- The parameters are what is left of the header without the name.
    rw [Node.children, hkind]
    simp only [Node.children, Node.make, Kind.children, Kind.slots, Slot.nodes, List.flatMap_cons,
      List.flatMap_nil, List.append_nil] at hm ⊢
    exact List.mem_append_right _ hm

/-- A property of the kinds and spans of all nodes in a node is handed on if it does not depend on the place that
a list has in a form, and a header hands it on to its parameters. -/
theorem Inherited.of_places {Q : Span → Kind Node → Prop} (hraw : ∀ s k, Q s k.raw → Q s k)
    (hparams : ∀ s name ids, Q s (.app name ids) → (∀ m ∈ ids, m.symbol?.isSome) →
      Q (paramsSpan name ids) (.identifiers ids)) :
    Inherited (fun n => ∀ m ∈ n.walk, Q m.span m.kind) fun _ => True := by
  refine .throughout (fun _ _ => trivial) (fun {n notes} h _ => ?_) id (fun {n k} h hkind => ?_)
    fun {n name ids} h hkind hsymbols => hparams n.span name ids (hkind ▸ h) hsymbols
  · rwa [Node.kind_addNotes, Node.span_addNotes]
  · exact hraw n.span k (hkind ▸ h)

/-- What leaves have, recognition hands on, and a list has if its children do, every root that was read has. -/
theorem Inherited.roots {P : Node → Prop} (hP : Inherited P fun _ => True) (hleaf : ∀ t, P (leaf t))
    (hlist : ∀ items span, (∀ m ∈ (recognise items).children, P m) → P (.make (recognise items) span))
    {text : String} {roots : List Node} (h : readDocument text = .ok roots) : ∀ n ∈ roots, P n := by
  have hattach : ∀ es : List Element, (∀ n, .expr n ∈ es → P n) → ∀ n ∈ Element.attach es, P n :=
    fun es hes => Element.attach_all (fun _ _ hn hnotes => hP.hang hn hnotes) hes fun _ _ => trivial
  obtain ⟨ls, es, -, -, hes, rfl⟩ := readDocument_eq_ok_iff.1 h
  have hall := elementsFrom_all (Q := fun e => ∀ n, e = .expr n → P n) ?_ ?_ ?_ (by simp) (by simp) hes
  · exact hattach es fun n hn => hall _ hn n rfl
  · rintro t - - n ⟨⟩
    exact hleaf t
  · rintro t - - n ⟨⟩
  · rintro es span hes n ⟨⟩
    refine hlist _ span (hP.children (hattach _ ?_))
    exact fun n hn => hes _ (List.mem_reverse.1 hn) n rfl

end Reader

end TreeEdit
