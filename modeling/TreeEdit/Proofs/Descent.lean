import TreeEdit.Proofs.Indices
import TreeEdit.Proofs.Surroundings

/-!
# The way down to an edit

A document with an edit made in it is read again. Root by root it says what it said before, but for the root
with the edit. If that root is still read as the same kind, the same goes for its children, and so on: on the
way down to the edit every node has its counterpart at the same path, as long as each is read as the kind it
was (`Edit.Rereads.way_down`). Beside the way nothing has changed, unless there are comments that could have
been hung elsewhere.
-/

namespace TreeEdit

open Edit Sign

/-! ## Nodes with an edit made in them -/

namespace Node

variable {e : Edit} {n : Node} (h : n.AsRead)

theorem name_edited (edits : List Edit) (n : Node) : (n.edited edits).kind.name = n.kind.name := by
  rw [kind_edited, Kind.name_refit, Kind.name_map]

include h

theorem AsRead.ne_pasted (text : String) : n.kind ≠ .pasted text := by
  intro hk
  have hregular := h.regular
  rw [hk] at hregular
  exact hregular

/-- In a node with an edit made in it, a text that was put in is that of the edit. -/
theorem AsRead.text_of_pasted {m : Node} (hm : m ∈ (n.edited [e]).walk) {text : String} (hk : m.kind = .pasted text) :
    text ∈ e.text? := by
  rcases mem_walk_edited hm with (⟨e', he', text', ht', place, rfl⟩ | ⟨span, rfl⟩) | ⟨l, hl, rfl⟩
  · obtain rfl := List.mem_singleton.1 he'
    cases hk
    exact ht'
  · cases hk
  · -- What was read is no such text, and it stays of its kind.
    exfalso
    have hread := h.of_mem_walk hl
    have hname := name_edited [e] l
    rw [hk] at hname
    cases hlk : l.kind with
    | pasted text' => exact hread.ne_pasted text' hlk
    | _ => simp [hlk, Kind.name] at hname

/-- With an edit made in it, a node still says one expression wherever it did, if the text put in does. -/
theorem AsRead.single_edited (htext : ∀ text ∈ e.text?, Single (signsOf text)) :
    ∀ m ∈ (n.edited [e]).walk, Single m.flatten :=
  single_flatten fun _ hm text hk => htext text (h.text_of_pasted hm hk)

theorem AsRead.regular_edited (hother : e.parent? ≠ some n.id) : (n.edited [e]).kind.Regular := by
  have hkind : (n.edited [e]).kind = n.kind.map (edited [e]) :=
    kind_edited_of_none fun e' he' => by rwa [List.mem_singleton.1 he']
  have hregular := h.regular
  rw [hkind]
  cases hk : n.kind with
  | functionDef name params body =>
      rw [hk] at hregular
      exact identifiers_edited_iff.2 hregular
  | pasted text => exact h.ne_pasted text hk
  | vacated =>
      rw [hk] at hregular
      exact hregular
  | _ => trivial

end Node

/-! ## One level -/

/-- The second forest says what the first says with the edit made, node by node, and each node is to be read
in the same way as its counterpart. -/
structure Edit.Rereads (e : Edit) (old new : List Node) : Prop where
  old_read : ∀ n ∈ old, n.AsRead
  new_read : ∀ n ∈ new, n.AsRead
  roles : new.map (·.kind.role) = old.map (·.kind.role)
  signs : new.map Node.flatten = old.map (Node.wording [e])

namespace Edit.Rereads

variable {e : Edit} {old new : List Node} (h : e.Rereads old new)

include h

theorem counterpart {i : Nat} {o : Node} (ho : old[i]? = some o) :
    ∃ n, new[i]? = some n ∧ n.flatten = o.wording [e] ∧ n.kind.role = o.kind.role := by
  have hsigns := congrArg (·[i]?) h.signs
  have hroles := congrArg (·[i]?) h.roles
  simp only [List.getElem?_map, ho, Option.map_some] at hsigns hroles
  obtain ⟨n, hn, hsign⟩ := Option.map_eq_some_iff.1 hsigns
  rw [hn] at hroles
  exact ⟨n, hn, hsign, Option.some.inj hroles⟩

/-- Nodes that the edit is not in are read as they were, where there are no comments. -/
theorem beside {j : Nat} (hnone : ∀ a ∈ old[j]?, ∀ id ∈ a.ids, e.parent? ≠ some id)
    (hold : ∀ n ∈ old, n.Uncommented) (hnew : ∀ n ∈ new, n.Uncommented) :
    old[j]?.map Node.bare = new[j]?.map Node.bare := by
  cases ha : old[j]? with
  | none =>
      have hlength : new.length = old.length := by simpa using congrArg List.length h.signs
      rw [List.getElem?_eq_none_iff, ← hlength] at ha
      rw [List.getElem?_eq_none ha]
  | some a =>
      obtain ⟨b, hb, hsigns, hrole⟩ := h.counterpart ha
      have hmem := List.mem_of_getElem? ha
      have hmem' := List.mem_of_getElem? hb
      have hself : a.edited [e] = a :=
        Node.edited_eq_self fun id hid => Node.inside_eq_nil fun e' he' => by
          rw [List.mem_singleton.1 he']
          exact hnone a ha id hid
      rw [Node.wording, hself] at hsigns
      rw [hb, Option.map_some, Option.map_some]
      exact congrArg some ((h.old_read a hmem).bare_eq (h.new_read b hmem') hrole.symm (hold a hmem) (hnew b hmem')
        hsigns.symm)

/-- What is said of a node and its counterpart goes for their children, if they are of one kind and the edit
is not in a place of the node. -/
theorem children (htext : ∀ text ∈ e.text?, Single (signsOf text)) {i : Nat} {o n : Node} (ho : old[i]? = some o)
    (hn : new[i]? = some n) (hname : n.kind.name = o.kind.name) (hother : e.parent? ≠ some o.id) :
    e.Rereads o.children n.children := by
  have hoRead := h.old_read o (List.mem_of_getElem? ho)
  have hnRead := h.new_read n (List.mem_of_getElem? hn)
  have hsigns : n.children.map Node.flatten = o.children.map (Node.wording [e]) := by
    obtain ⟨n', hn', hsaid, -⟩ := h.counterpart ho
    obtain rfl := Option.some.inj (hn.symm.trans hn')
    have hkind : (o.edited [e]).kind = o.kind.map (Node.edited [e]) :=
      Node.kind_edited_of_none fun e' he' => by rwa [List.mem_singleton.1 he']
    have hkids : (o.edited [e]).children = o.children.map (Node.edited [e]) := by
      rw [Node.children, hkind, Kind.children_map, Node.children]
    have heq := Node.children_flatten_eq hnRead.single (hoRead.single_edited htext) hsaid
      (hname.trans (Node.name_edited [e] o).symm) hnRead.regular (hoRead.regular_edited hother)
    rw [heq, hkids, List.map_map]
    rfl
  have hlength : n.children.length = o.children.length := by simpa using congrArg List.length hsigns
  refine ⟨hoRead.children, hnRead.children, ?_, hsigns⟩
  have hroles : n.children.map (·.kind.role) = Kind.rolesOf n.kind.name n.children.length := hnRead.cast
  rw [hroles, hname, hlength]
  exact hoRead.cast.symm

end Edit.Rereads

/-! ## The way down -/

theorem Forest.at?_cons_of_ne {ns : List Node} {i : Nat} {n : Node} (hn : ns[i]? = some n) {path : Path}
    (hpath : path ≠ []) : at? ns (i :: path) = at? n.children path := by
  rw [at?_cons, hn, Option.bind_some, n.at?_eq_children hpath]

/-- An identity that is found at one path only is in no sibling of the nodes on the way. -/
theorem Forest.not_mem_ids_beside {ns : List Node} {i : Nat} {path : Path} {id : NodeId}
    (hunique : ∀ q m, at? ns q = some m → m.id = id → q = i :: path) {j : Nat} (hj : j ≠ i) {a : Node}
    (ha : ns[j]? = some a) : id ∉ a.ids := by
  intro hid
  obtain ⟨m, hm, hid⟩ := List.mem_map.1 hid
  obtain ⟨q, hq⟩ := Node.mem_walk_iff.1 hm
  have hat : at? ns (j :: q) = some m := by rw [at?_cons, ha, Option.bind_some, hq]
  exact hj (List.cons.inj (hunique (j :: q) m hat hid)).1

/-- The node that the edit is in has its counterpart at the same path, if every node on the way down to it is
read as the kind it was; and without comments nothing beside the way has changed. -/
theorem Edit.Rereads.way_down {e : Edit} {old new : List Node} (h : e.Rereads old new)
    (htext : ∀ text ∈ e.text?, Single (signsOf text)) {path : Path} {parent : Node}
    (hparent : e.parent? = some parent.id) (hat : Forest.at? old path = some parent)
    (hunique : ∀ q m, Forest.at? old q = some m → m.id = parent.id → q = path)
    (hnames : ∀ q, q <+: path →
      (Forest.at? new q).map (·.kind.name) = (Forest.at? old q).map (·.kind.name)) :
    (∃ n, Forest.at? new path = some n ∧ n.AsRead ∧ parent.AsRead ∧ n.kind.name = parent.kind.name ∧
      n.flatten = parent.wording [e]) ∧
    ((∀ n ∈ old, n.Uncommented) → (∀ n ∈ new, n.Uncommented) → Forest.DifferOnlyAt path old new) := by
  induction path generalizing old new with
  | nil => cases hat
  | cons i path ih =>
      obtain ⟨o, ho, hato⟩ := Option.bind_eq_some_iff.1 hat
      obtain ⟨n, hn, hsaid, -⟩ := h.counterpart ho
      have hname : n.kind.name = o.kind.name := by
        have hnames' := hnames [i] (by simp)
        simp only [Forest.at?_cons, ho, hn, Option.bind_some] at hnames'
        exact Option.some.inj hnames'
      have hbeside : ∀ j, j ≠ i → ∀ a ∈ old[j]?, ∀ id ∈ a.ids, e.parent? ≠ some id := by
        intro j hj a ha id hid hin
        rw [hparent] at hin
        exact Forest.not_mem_ids_beside hunique hj ha (Option.some.inj hin ▸ hid)
      -- The induction goes down the path. At its end the edit is made; above it a node keeps its children but
      -- for the one on the way.
      by_cases hend : path = []
      · subst hend
        obtain rfl : o = parent := Option.some.inj hato
        refine ⟨⟨n, ?_, h.new_read n (List.mem_of_getElem? hn), h.old_read o (List.mem_of_getElem? ho), hname, hsaid⟩,
          fun hold hnew => ⟨o, n, ho, hn, fun j hj => h.beside (hbeside j hj) hold hnew, trivial⟩⟩
        rw [Forest.at?_cons, hn]
        rfl
      · have hother : e.parent? ≠ some o.id := by
          intro hin
          rw [hparent] at hin
          have hoat : Forest.at? old [i] = some o := by
            rw [Forest.at?_cons, ho]
            rfl
          exact hend (List.cons.inj (hunique [i] o hoat (Option.some.inj hin).symm)).2.symm
        rw [Forest.at?_cons_of_ne ho hend] at hat
        rw [Forest.at?_cons_of_ne hn hend]
        have hunique' : ∀ q m, Forest.at? o.children q = some m → m.id = parent.id → q = path := by
          intro q m hq hid
          rw [← Forest.at?_cons_of_ne ho (Forest.ne_nil_of_at? hq)] at hq
          exact (List.cons.inj (hunique (i :: q) m hq hid)).2
        have hnames' : ∀ q, q <+: path →
            (Forest.at? n.children q).map (·.kind.name) = (Forest.at? o.children q).map (·.kind.name) := by
          intro q hq
          by_cases hne : q = []
          · rw [hne, Forest.at?_nil, Forest.at?_nil]
          · rw [← Forest.at?_cons_of_ne ho hne, ← Forest.at?_cons_of_ne hn hne]
            exact hnames (i :: q) (List.cons_prefix_cons.2 ⟨rfl, hq⟩)
        obtain ⟨hfound, hdiffer⟩ := ih (h.children htext ho hn hname hother) hat hunique' hnames'
        refine ⟨hfound, fun hold hnew =>
          ⟨o, n, ho, hn, fun j hj => h.beside (hbeside j hj) hold hnew, hdiffer ?_ ?_⟩⟩
        · intro c hc
          exact (hold o (List.mem_of_getElem? ho)).of_mem (Node.mem_walk_of_child hc)
        · intro c hc
          exact (hnew n (List.mem_of_getElem? hn)).of_mem (Node.mem_walk_of_child hc)

/-! ## A document read again -/

namespace Session

/-- What the roots of a session are, and what they say. -/
theorem InStep.roots_read {s : Session String} (hs : s.InStep) :
    (∀ n ∈ s.tree.roots, n.AsRead ∧ n.kind.role = .standing ∧ n.Stamped) ∧
      ∃ ts, tokenize s.text = .ok ts ∧ ts.filterMap Token.sign? = s.tree.roots.flatMap Node.flatten := by
  constructor
  · obtain ⟨read, hread, hroots⟩ := hs.roots
    intro n hn
    have hmem := List.mem_map_of_mem (f := Node.anonymous) hn
    rw [hroots] at hmem
    obtain ⟨r, hr, hrn⟩ := List.mem_map.1 hmem
    have hbare : r.bare = n.bare := by rw [← r.bare_anonymous, hrn, n.bare_anonymous]
    refine ⟨(Node.asRead_of_readDocument hread r hr).of_bare hbare, ?_,
      (readDocument_stamped hread r hr).of_anonymous hrn⟩
    rw [← Kind.role_map Node.bare, ← Node.kind_map_of_bare hbare, Kind.role_map]
    exact (readDocument_standing hread r hr).role_eq
  · obtain ⟨doc, -, hplaced, htokens⟩ := hs.placed
    refine ⟨_, htokens, ?_⟩
    rw [Lexeme.filterMap_sign?_tokens, hplaced.fills.signs_eq, fill_parts, List.flatMap_def]

/-- Without comments a tree stands orderly in its document. -/
theorem InStep.orderly {s : Session String} (hs : s.InStep) (ht : s.tree.Distinct)
    (hcomments : ∀ n ∈ s.tree.nodes, n.comment = none) :
    ∃ doc, s.tree.Orderly doc ∧ Lexeme.text doc = s.text.toList := by
  obtain ⟨doc, hdoc, hplaced, -⟩ := hs.placed
  refine ⟨doc, ⟨ht, hplaced, fun n hn t _ _ hcontains => ?_⟩, hdoc⟩
  rwa [Node.range_of_uncommented (hcomments n hn)] at hcontains

/-- Once an edit that puts in a single expression is performed, the roots say what they said with the edit
made. -/
theorem perform_rereads {s s' : Session String} (hs : s.InStep) {doc : List Lexeme} (ht : s.tree.Orderly doc)
    (hdoc : Lexeme.text doc = s.text.toList) {e : Edit} {parent : Node} (hparent : parent ∈ s.tree.nodes)
    (hfits : e.Fits parent) (htext : ∀ text ∈ e.text?, Fragment text ∧ Single (signsOf text)) {committed : Committed}
    (hperform : s.perform [e] = (.ok committed, s')) : e.Rereads s.tree.roots s'.tree.roots := by
  obtain ⟨hold, -⟩ := hs.roots_read
  obtain ⟨hnew, ts, hts, hsaid⟩ := (hs.of_perform hperform).roots_read
  have hfits' : ∀ e' ∈ [e], ∃ m ∈ s.tree.nodes, e'.Fits m := List.forall_mem_singleton.2 ⟨parent, hparent, hfits⟩
  have htexts : ∀ e' ∈ [e], ∀ text ∈ e'.text?, Fragment text :=
    List.forall_mem_singleton.2 fun text hmem => (htext text hmem).1
  obtain ⟨committed', s'', hperform', ts', hts', hsaid'⟩ :=
    perform_batch hs ht hdoc hfits' htexts (List.pairwise_singleton _ e)
  cases hperform.symm.trans hperform'
  cases hts.symm.trans hts'
  rw [hsaid, show Edit.latestFirst [e] = [e] from List.mergeSort_singleton e] at hsaid'
  have hsigns : s'.tree.roots.map Node.flatten = s.tree.roots.map (Node.wording [e]) := by
    have hedited : ∀ m ∈ s.tree.roots.map (Node.edited [e]), Single m.flatten := by
      intro m hm
      obtain ⟨n, hn, rfl⟩ := List.mem_map.1 hm
      exact (hold n hn).1.single_edited (fun text hmem => (htext text hmem).2) _ (Node.mem_walk_self _)
    rw [Node.map_flatten_inj (fun n hn => (hnew n hn).1.single n n.mem_walk_self) hedited hsaid', List.map_map]
    rfl
  refine ⟨fun n hn => (hold n hn).1, fun n hn => (hnew n hn).1, ?_, hsigns⟩
  have hlength : s'.tree.roots.length = s.tree.roots.length := by simpa using congrArg List.length hsigns
  rw [List.map_eq_replicate_iff.2 fun n hn => (hnew n hn).2.1, List.map_eq_replicate_iff.2 fun n hn => (hold n hn).2.1,
    hlength]

end Session

end TreeEdit
