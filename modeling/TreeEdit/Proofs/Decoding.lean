import TreeEdit.Proofs.SlotOrder

/-!
# What the signs of a node tell

A reader that counts brackets knows where an expression ends, so the signs of several expressions say where
each of them starts: `Node.map_flatten_inj`. Two nodes of one kind with the same signs then have children
with the same signs, place by place: `Node.children_flatten_eq`.
-/

namespace TreeEdit

open Reader

/-! ## Where an expression ends -/

namespace Sign

/-- The signs behind the first expression, with some brackets open already; `none` if it does not end. -/
def behind : Nat → List Sign → Option (List Sign)
  | _, [] => none
  | depth, opening :: ss => behind (depth + 1) ss
  | 0, closing :: _ => none
  | 1, closing :: ss => some ss
  | depth + 2, closing :: ss => behind (depth + 1) ss
  | 0, word _ :: ss => some ss
  | depth + 1, word _ :: ss => behind (depth + 1) ss

/-- The signs of one expression: it ends where they end, and inside brackets it can be passed over. -/
structure Single (ss : List Sign) : Prop where
  ends : ∀ rest, behind 0 (ss ++ rest) = some rest
  passed : ∀ depth rest, behind (depth + 1) (ss ++ rest) = behind (depth + 1) rest

theorem single_word (text : String) : Single [word text] :=
  ⟨fun _ => rfl, fun _ _ => rfl⟩

/-- Expressions one behind the other can be passed over. -/
theorem behind_flatten {uss : List (List Sign)} (h : ∀ us ∈ uss, Single us) (depth : Nat) (rest : List Sign) :
    behind (depth + 1) (uss.flatten ++ rest) = behind (depth + 1) rest := by
  induction uss with
  | nil => rfl
  | cons us uss ih =>
      rw [List.flatten_cons, List.append_assoc, (h us List.mem_cons_self).passed]
      exact ih fun vs hvs => h vs (List.mem_cons_of_mem us hvs)

theorem single_bracketed {uss : List (List Sign)} (h : ∀ us ∈ uss, Single us) : Single (bracketed uss.flatten) := by
  constructor
  · intro rest
    show behind 1 ((uss.flatten ++ [closing]) ++ rest) = some rest
    rw [List.append_assoc, behind_flatten h]
    rfl
  · intro depth rest
    show behind (depth + 2) ((uss.flatten ++ [closing]) ++ rest) = behind (depth + 1) rest
    rw [List.append_assoc, behind_flatten h]
    rfl

/-- The first of two expressions that go on in the same way is told from what follows. -/
theorem Single.append_inj {us vs rest rest' : List Sign} (hus : Single us) (hvs : Single vs)
    (h : us ++ rest = vs ++ rest') : us = vs ∧ rest = rest' := by
  have hrest : rest = rest' := by
    have hends := hus.ends rest
    rw [h, hvs.ends] at hends
    exact (Option.some.inj hends).symm
  subst hrest
  exact ⟨List.append_cancel_right h, rfl⟩

theorem Single.ne_nil {us : List Sign} (h : Single us) : us ≠ [] := by
  rintro rfl
  cases h.ends []

/-- Signs are those of expressions one behind the other in at most one way. -/
theorem flatten_inj {uss vss : List (List Sign)} (hus : ∀ us ∈ uss, Single us) (hvs : ∀ vs ∈ vss, Single vs)
    (h : uss.flatten = vss.flatten) : uss = vss := by
  induction uss generalizing vss with
  | nil =>
      cases vss with
      | nil => rfl
      | cons vs vss =>
          have hnil : vs = [] := (List.append_eq_nil_iff.1 h.symm).1
          exact absurd hnil (hvs vs List.mem_cons_self).ne_nil
  | cons us uss ih =>
      cases vss with
      | nil =>
          have hnil : us = [] := (List.append_eq_nil_iff.1 h).1
          exact absurd hnil (hus us List.mem_cons_self).ne_nil
      | cons vs vss =>
          obtain ⟨rfl, htail⟩ := (hus us List.mem_cons_self).append_inj (hvs vs List.mem_cons_self) h
          rw [ih (fun ws hws => hus ws (List.mem_cons_of_mem us hws))
            (fun ws hws => hvs ws (List.mem_cons_of_mem us hws)) htail]

end Sign

open Sign

/-! ## The signs of a node as those of one expression -/

theorem bracketed_inj {us vs : List Sign} (h : bracketed us = bracketed vs) : us = vs :=
  List.append_cancel_right (List.cons.inj h).2

namespace Node

theorem flatten_raw (n : Node) : n.raw.flatten = n.flatten := by
  rw [flatten_eq, flatten_eq n]
  show fill flatten n.kind.raw.shape = fill flatten n.kind.shape
  cases n.kind with
  | identifiers ids => cases ids <;> simp [Kind.raw, applicationOf, Kind.shape, Kind.pattern]
  | _ => simp [Kind.raw, Kind.shape, Kind.pattern]

theorem flatten_keywordNode (keyword : String) : (keywordNode keyword).flatten = [.word keyword] := by
  rw [flatten_eq]
  rfl

theorem flatten_listNode (items : List Node) : (listNode items).flatten = bracketed (items.map flatten).flatten := by
  rw [flatten_eq]
  cases items with
  | nil => rfl
  | cons func args => simp [listNode, Node.make, applicationOf, Kind.shape, Kind.pattern, bracketed]

end Node

namespace Kind

/-- A list says what its elements say. -/
theorem fill_shape_of_isList {k : Kind Node} (h : k.isList) :
    fill Node.flatten k.shape = bracketed (k.written.map Node.flatten).flatten := by
  have hraw : ∀ ns : List Node, (ns.map Node.raw).map Node.flatten = ns.map Node.flatten := by
    intro ns
    simp [Node.flatten_raw]
  cases k with
  | literal value type => cases h
  | blank => cases h
  | pasted text => cases h
  | vacated => cases h
  | conditional test yes no =>
      cases no <;> simp [shape, pattern, written, bracketed, Node.flatten_raw, Node.flatten_keywordNode]
  | _ =>
      simp [shape, pattern, written, bracketed, hraw, Node.flatten_raw, Node.flatten_keywordNode,
        Node.flatten_listNode]

theorem form?_of_keyword? {k : Kind Node} {keyword : String} (h : k.keyword? = some keyword) :
    (form? keyword).isSome := by
  cases k with
  | letIn form bindings body =>
      cases h
      cases form <;> rfl
  | guarded form predicate exprs =>
      cases h
      cases form <;> rfl
  | _ =>
      cases h
      try rfl

/-- A list without an inner list of its own is written as its keyword and its parts. -/
theorem written_eq {k : Kind Node} (hdef : ∀ name params body, k ≠ .functionDef name params body)
    (hlet : ∀ form bindings body, k ≠ .letIn form bindings body) :
    k.written = k.keyword?.toList.map keywordNode ++ k.parts.map Node.raw := by
  cases k with
  | functionDef name params body => exact absurd rfl (hdef name params body)
  | letIn form bindings body => exact absurd rfl (hlet form bindings body)
  | conditional test yes no => cases no <;> rfl
  | _ => rfl

/-- The elements a kind is written as are its parts, its keyword, and a list of parts. -/
theorem mem_written {k : Kind Node} {m : Node} (h : m ∈ k.written) :
    (∃ x ∈ k.parts, m = x.raw) ∨ (∃ keyword, (form? keyword).isSome ∧ m = keywordNode keyword) ∨
      ∃ items ∈ k.plainLists, m = listNode items ∧ ∀ i ∈ items, ∃ x ∈ k.parts, i = x.raw := by
  by_cases hinner : (∀ name params body, k ≠ .functionDef name params body) ∧
      ∀ form bindings body, k ≠ .letIn form bindings body
  · rw [written_eq hinner.1 hinner.2] at h
    rcases List.mem_append.1 h with h | h
    · obtain ⟨keyword, hkeyword, rfl⟩ := List.mem_map.1 h
      exact .inr (.inl ⟨keyword, form?_of_keyword? (Option.mem_toList.1 hkeyword), rfl⟩)
    · obtain ⟨x, hx, rfl⟩ := List.mem_map.1 h
      exact .inl ⟨x, hx, rfl⟩
  · cases k with
    | functionDef name params body =>
        simp only [written, List.mem_cons, List.not_mem_nil, or_false] at h
        rcases h with rfl | rfl | rfl
        · exact .inr (.inl ⟨_, rfl, rfl⟩)
        · refine .inr (.inr ⟨_, List.mem_singleton_self _, rfl, ?_⟩)
          simp only [List.forall_mem_cons, List.forall_mem_map]
          exact ⟨⟨name, by simp, rfl⟩, fun i hi => ⟨i, by simp [hi], rfl⟩⟩
        · exact .inl ⟨body, by simp, rfl⟩
    | letIn form bindings body =>
        simp only [written, List.mem_cons, List.not_mem_nil, or_false] at h
        rcases h with rfl | rfl | rfl
        · exact .inr (.inl ⟨_, by cases form <;> rfl, rfl⟩)
        · refine .inr (.inr ⟨_, List.mem_singleton_self _, rfl, ?_⟩)
          simp only [List.forall_mem_map]
          exact fun b hb => ⟨b, by simp [hb], rfl⟩
        · exact .inl ⟨body, by simp, rfl⟩
    | _ => simp at hinner

end Kind

namespace Node

theorem flatten_of_isList {n : Node} (h : n.kind.isList) :
    n.flatten = bracketed (n.kind.written.map flatten).flatten := by
  rw [flatten_eq, Kind.fill_shape_of_isList h]

/-- A node says one expression if its parts do. -/
theorem single_of_parts {n : Node} (htext : ∀ text, n.kind = .pasted text → Single (signsOf text))
    (hparts : ∀ m ∈ n.kind.parts, Single m.flatten) : Single n.flatten := by
  by_cases hlist : n.kind.isList
  · rw [flatten_of_isList hlist]
    apply single_bracketed
    rw [List.forall_mem_map]
    intro m hm
    rcases Kind.mem_written hm with ⟨x, hx, rfl⟩ | ⟨keyword, -, rfl⟩ | ⟨items, -, rfl, hitems⟩
    · rw [flatten_raw]
      exact hparts x hx
    · rw [flatten_keywordNode]
      exact single_word keyword
    · rw [flatten_listNode]
      apply single_bracketed
      rw [List.forall_mem_map]
      intro i hi
      obtain ⟨x, hx, rfl⟩ := hitems i hi
      rw [flatten_raw]
      exact hparts x hx
  · rw [flatten_eq]
    cases hk : n.kind with
    | literal value type => exact single_word value
    | blank => exact single_word blankText
    | vacated => exact single_word blankText
    | pasted text =>
        show Single (fill flatten ((signsOf text).map .inl))
        rw [fill_signs]
        exact htext text hk
    | _ => simp [hk, Kind.isList] at hlist

/-- In a node everything says one expression, if each text put into it does. -/
theorem single_flatten {n : Node} (h : ∀ m ∈ n.walk, ∀ text, m.kind = .pasted text → Single (signsOf text)) :
    ∀ m ∈ n.walk, Single m.flatten := by
  induction n using induct with
  | step n ih =>
      have hbelow : ∀ c ∈ n.children, ∀ m ∈ c.walk, Single m.flatten := by
        intro c hc
        exact ih c hc fun m hm => h m (mem_walk_trans (mem_walk_of_child hc) hm)
      rw [walk_eq, List.forall_mem_cons, List.forall_mem_flatMap]
      refine ⟨single_of_parts (h n n.mem_walk_self) fun m hm => ?_, hbelow⟩
      obtain ⟨c, hc, hmc⟩ := part_below hm
      exact hbelow c hc m hmc

theorem Sound.single {n : Node} (h : n.Sound) : Single n.flatten := by
  induction h with
  | intro kind _ _ ih =>
      refine single_of_parts (fun text hk => ?_) ih
      rw [hk] at kind
      exact kind.elim

/-- Nodes one behind the other that say the same say the same one by one. -/
theorem map_flatten_inj {as bs : List Node} (ha : ∀ a ∈ as, Single a.flatten) (hb : ∀ b ∈ bs, Single b.flatten)
    (h : as.flatMap flatten = bs.flatMap flatten) : as.map flatten = bs.map flatten := by
  rw [List.flatMap_def, List.flatMap_def] at h
  exact flatten_inj (by simpa using ha) (by simpa using hb) h

/-- A form that has an inner list and one expression behind it says what is in the list and what is behind
it. -/
theorem map_flatten_inj_inner {w w' : String} {as bs : List Node} {x y : Node} (ha : ∀ a ∈ as, Single a.flatten)
    (hb : ∀ b ∈ bs, Single b.flatten)
    (h : bracketed (.word w :: (bracketed (as.flatMap flatten) ++ x.flatten)) =
      bracketed (.word w' :: (bracketed (bs.flatMap flatten) ++ y.flatten))) :
    as.map flatten = bs.map flatten ∧ x.flatten = y.flatten := by
  have hinner := (List.cons.inj (bracketed_inj h)).2
  have hsingle : ∀ {cs : List Node}, (∀ c ∈ cs, Single c.flatten) → Single (bracketed (cs.flatMap flatten)) := by
    intro cs hcs
    rw [List.flatMap_def]
    exact single_bracketed (by simpa using hcs)
  obtain ⟨hlists, hbehind⟩ := (hsingle ha).append_inj (hsingle hb) hinner
  exact ⟨map_flatten_inj ha hb (bracketed_inj hlists), hbehind⟩

end Node

/-! ## Nodes of one kind -/

namespace Kind

theorem isList_eq_name {α : Type} (k : Kind α) :
    k.isList = not (["Literal", "Blank", "FakeInsert", "FakeBlank"].contains k.name) := by
  cases k <;> rfl

theorem keyword?_isSome_eq_name {α : Type} (k : Kind α) : k.keyword?.isSome =
    ["VariableDefinition", "FunctionDefinition", "Lambda", "StructDefinition", "If", "Cond", "LetLike", "WhenUnless",
      "Sequence"].contains k.name := by
  cases k <;> rfl

theorem functionDef_of_name {α : Type} {k : Kind α} (h : k.name = "FunctionDefinition") :
    ∃ name params body, k = .functionDef name params body := by
  cases k with
  | functionDef name params body => exact ⟨name, params, body, rfl⟩
  | _ => simp [name] at h

theorem letIn_of_name {α : Type} {k : Kind α} (h : k.name = "LetLike") :
    ∃ form bindings body, k = .letIn form bindings body := by
  cases k with
  | letIn form bindings body => exact ⟨form, bindings, body, rfl⟩
  | _ => simp [name] at h

theorem children_of_not_isList {α : Type} {k : Kind α} (h : k.isList = false) : k.children = [] := by
  cases k with
  | literal value type => rfl
  | blank => rfl
  | pasted text => rfl
  | vacated => rfl
  | _ => cases h

end Kind

namespace Node

/-- A list without an inner list of its own says its keyword and what its children say. -/
theorem flatten_eq_children {n : Node} (hlist : n.kind.isList) (hdef : n.kind.name ≠ "FunctionDefinition")
    (hlet : n.kind.name ≠ "LetLike") :
    n.flatten = bracketed (n.kind.keyword?.toList.map .word ++ n.children.flatMap flatten) := by
  have hregular : n.kind.Regular := by
    cases hk : n.kind with
    | functionDef name params body => exact absurd (by rw [hk]; rfl) hdef
    | pasted text => simp [hk, Kind.isList] at hlist
    | vacated => simp [hk, Kind.isList] at hlist
    | _ => trivial
  rw [flatten_eq_signsBySlots hregular, signsBySlots, children]
  cases hk : n.kind with
  | functionDef name params body => exact absurd (by rw [hk]; rfl) hdef
  | letIn form bindings body => exact absurd (by rw [hk]; rfl) hlet
  | literal value type => simp [hk, Kind.isList] at hlist
  | blank => simp [hk, Kind.isList] at hlist
  | pasted text => simp [hk, Kind.isList] at hlist
  | vacated => simp [hk, Kind.isList] at hlist
  | _ => rfl

theorem children_identifiers {n : Node} {ids : List Node} (hk : n.kind = .identifiers ids) : n.children = ids := by
  simp [children, hk, Kind.children, Kind.slots, Slot.nodes]

theorem flatten_identifiers {n : Node} {ids : List Node} (hk : n.kind = .identifiers ids) :
    n.flatten = bracketed (ids.flatMap flatten) := by
  rw [flatten_eq, hk]
  simp [Kind.shape, Kind.pattern, bracketed, List.flatMap_def]

/-- What stands in the header of a function is single. -/
theorem single_header {n name params body : Node} (hn : ∀ m ∈ n.walk, Single m.flatten)
    (hk : n.kind = .functionDef name params body) : ∀ m ∈ name :: params.children, Single m.flatten := by
  have hname : name ∈ n.children := by simp [children_functionDef hk]
  have hparams : params ∈ n.children := by simp [children_functionDef hk]
  refine List.forall_mem_cons.2 ⟨hn name (mem_walk_of_child hname), fun m hm => ?_⟩
  exact hn m (mem_walk_trans (mem_walk_of_child hparams) (mem_walk_of_child hm))

variable {a b : Node} (ha : ∀ m ∈ a.walk, Single m.flatten) (hb : ∀ m ∈ b.walk, Single m.flatten)
  (h : a.flatten = b.flatten)

include ha hb h

/-- The name of a function is said inside its header, which is a child of its own. -/
theorem children_flatten_functionDef (hra : a.kind.Regular) (hrb : b.kind.Regular) {name params body : Node}
    (hk : a.kind = .functionDef name params body) {name' params' body' : Node}
    (hk' : b.kind = .functionDef name' params' body') : a.children.map flatten = b.children.map flatten := by
  rw [flatten_eq_signsBySlots hra, flatten_eq_signsBySlots hrb, signsBySlots, signsBySlots, hk, hk'] at h
  rw [hk] at hra
  rw [hk'] at hrb
  obtain ⟨ids, hids⟩ := hra
  obtain ⟨ids', hids'⟩ := hrb
  obtain ⟨hsame, hbody⟩ := map_flatten_inj_inner (single_header ha hk) (single_header hb hk') h
  obtain ⟨hnames, hparams⟩ := List.cons.inj hsame
  have hwhole : params.flatten = params'.flatten := by
    rw [flatten_identifiers hids, flatten_identifiers hids', List.flatMap_def, List.flatMap_def,
      ← children_identifiers hids, ← children_identifiers hids', hparams]
  rw [children_functionDef hk, children_functionDef hk']
  simp [hnames, hwhole, hbody]

/-- The bindings are said in a list of their own, whose end is where the body begins. -/
theorem children_flatten_letIn (hra : a.kind.Regular) (hrb : b.kind.Regular) {form form' : LetForm}
    {bindings bindings' : List Node} {body body' : Node} (hk : a.kind = .letIn form bindings body)
    (hk' : b.kind = .letIn form' bindings' body') : a.children.map flatten = b.children.map flatten := by
  have hac : ∀ c ∈ a.children, Single c.flatten := fun c hc => ha c (mem_walk_of_child hc)
  have hbc : ∀ c ∈ b.children, Single c.flatten := fun c hc => hb c (mem_walk_of_child hc)
  rw [flatten_eq_signsBySlots hra, flatten_eq_signsBySlots hrb, signsBySlots, signsBySlots, hk, hk'] at h
  rw [children, hk] at hac ⊢
  rw [children, hk'] at hbc ⊢
  simp only [Kind.children, Kind.slots, Slot.nodes, List.flatMap_cons, List.flatMap_nil, List.append_nil] at hac hbc ⊢
  obtain ⟨hsame, hbody⟩ := map_flatten_inj_inner (fun m hm => hac m (List.mem_append_left _ hm))
    (fun m hm => hbc m (List.mem_append_left _ hm)) h
  rw [List.map_append, List.map_append, hsame, List.map_singleton, List.map_singleton, hbody]

/-- Nodes of one kind that say the same have children that say the same, place by place. -/
theorem children_flatten_eq (hname : a.kind.name = b.kind.name) (hra : a.kind.Regular) (hrb : b.kind.Regular) :
    a.children.map flatten = b.children.map flatten := by
  by_cases hdef : a.kind.name = "FunctionDefinition"
  · obtain ⟨name, params, body, hk⟩ := Kind.functionDef_of_name hdef
    obtain ⟨name', params', body', hk'⟩ := Kind.functionDef_of_name (hname ▸ hdef)
    exact children_flatten_functionDef ha hb h hra hrb hk hk'
  by_cases hlet : a.kind.name = "LetLike"
  · obtain ⟨form, bindings, body, hk⟩ := Kind.letIn_of_name hlet
    obtain ⟨form', bindings', body', hk'⟩ := Kind.letIn_of_name (hname ▸ hlet)
    exact children_flatten_letIn ha hb h hra hrb hk hk'
  by_cases hlist : a.kind.isList
  · -- The keywords may differ, but both kinds have one or neither has.
    have hlist' : b.kind.isList := by rwa [Kind.isList_eq_name, ← hname, ← Kind.isList_eq_name]
    rw [flatten_eq_children hlist hdef hlet, flatten_eq_children hlist' (hname ▸ hdef) (hname ▸ hlet)] at h
    have hkeywords : (a.kind.keyword?.toList.map Sign.word).length = (b.kind.keyword?.toList.map Sign.word).length := by
      have hsome : a.kind.keyword?.isSome = b.kind.keyword?.isSome := by
        rw [Kind.keyword?_isSome_eq_name, hname, ← Kind.keyword?_isSome_eq_name]
      cases ha' : a.kind.keyword? <;> cases hb' : b.kind.keyword? <;> simp [ha', hb'] at hsome ⊢
    exact map_flatten_inj (fun c hc => ha c (mem_walk_of_child hc)) (fun c hc => hb c (mem_walk_of_child hc))
      (List.append_inj (bracketed_inj h) hkeywords).2
  · have hlist' : b.kind.isList = false := by
      rw [Kind.isList_eq_name, ← hname, ← Kind.isList_eq_name]
      simpa using hlist
    rw [children, children, Kind.children_of_not_isList (by simpa using hlist), Kind.children_of_not_isList hlist']

end Node

end TreeEdit
