import TreeEdit.Proofs.Decoding

/-!
# Nodes known by their signs

Some forms read their children in another way than these would be read on their own: the clauses of a `cond`,
the bindings of a `let` and lists of identifiers are such children. Which ones they are depends on nothing but
the kind of the form and the number of its children (`Kind.Cast`). So where there are no comments, the signs
of a node in its place say all there is to it: `Node.AsRead.bare_eq`.
-/

namespace TreeEdit

open Reader Sign

/-! ## What the children of a node are read as -/

/-- What a node is read as in its place: as it is on its own, or as a part of a form. -/
inductive Role where
  | standing
  | clause
  | binding
  | identifiers
deriving DecidableEq, Repr

namespace Kind

/-- The role of a node of the kind. -/
def role {α : Type} : Kind α → Role
  | .clause .. => .clause
  | .binding .. => .binding
  | .identifiers .. => .identifiers
  | _ => .standing

/-- The roles of the children of a node of a kind, given by its name, from how many there are. -/
def rolesOf (name : String) (count : Nat) : List Role :=
  match name with
  | "FunctionDefinition" => [.standing, .identifiers, .standing]
  | "Lambda" => [.identifiers, .standing]
  | "StructDefinition" => [.standing, .identifiers]
  | "Cond" => List.replicate count .clause
  | "LetLike" => List.replicate (count - 1) .binding ++ [.standing]
  | _ => List.replicate count .standing

/-- The children have the roles that the kind asks for. -/
def Cast (k : Kind Node) : Prop := k.children.map (·.kind.role) = rolesOf k.name k.children.length

theorem role_map {α β : Type} (f : α → β) (k : Kind α) : (k.map f).role = k.role := by
  cases k <;> rfl

theorem name_map {α β : Type} (f : α → β) (k : Kind α) : (k.map f).name = k.name := by
  cases k <;> rfl

theorem role_raw (k : Kind Node) : k.raw.role = .standing := by
  cases k with
  | identifiers ids => cases ids <;> rfl
  | _ => rfl

theorem raw_eq_of_role {k : Kind Node} (h : k.role = .standing) : k.raw = k := by
  cases k with
  | identifiers ids => cases h
  | clause test body => cases h
  | binding name value => cases h
  | _ => rfl

theorem identifiers_of_role {α : Type} {k : Kind α} (h : k.role = .identifiers) : ∃ ids, k = .identifiers ids := by
  cases k with
  | identifiers ids => exact ⟨ids, rfl⟩
  | _ => cases h

/-- A kind is known from its role and what it is on its own. -/
theorem map_bare_of_raw {k k' : Kind Node} (hrole : k.role = k'.role)
    (h : k.raw.map Node.bare = k'.raw.map Node.bare) : k.map Node.bare = k'.map Node.bare := by
  have hlists : ∀ as bs : List Node, (applicationOf as).map Node.bare = (applicationOf bs).map Node.bare →
      as.map Node.bare = bs.map Node.bare := by
    intro as bs happ
    have hchildren := congrArg Kind.children happ
    rwa [children_map, children_map, children_applicationOf, children_applicationOf] at hchildren
  by_cases hstanding : k.role = .standing
  · rwa [raw_eq_of_role hstanding, raw_eq_of_role (hrole ▸ hstanding)] at h
  · cases k with
    | identifiers ids =>
        obtain ⟨ids', rfl⟩ := identifiers_of_role hrole.symm
        rw [map, map, hlists ids ids' h]
    | clause test body =>
        cases k' with
        | clause test' body' =>
            obtain ⟨htest, hbody⟩ := Kind.app.inj h
            rw [map, map, htest, hbody]
        | _ => cases hrole
    | binding name value =>
        cases k' with
        | binding name' value' =>
            obtain ⟨hname, hvalue⟩ := Kind.app.inj h
            rw [map, map, hname, List.singleton_inj.1 hvalue]
        | _ => cases hrole
    | _ => exact absurd rfl hstanding

theorem cast_map_bare {k : Kind Node} : (k.map Node.bare).Cast ↔ k.Cast := by
  rw [Cast, Cast, name_map, children_map, List.length_map, List.map_map]
  simp only [Function.comp_def, Node.bare_kind, role_map]

theorem cast_raw {k : Kind Node} : k.raw.Cast ↔ k.Cast := by
  rw [Cast, Cast, children_raw]
  cases k with
  | identifiers ids => cases ids <;> rfl
  | _ => rfl

/-- A kind that asks for no other roles. -/
theorem cast_of_standing {k : Kind Node} (hname : ∀ count, rolesOf k.name count = List.replicate count .standing)
    (h : ∀ c ∈ k.children, c.kind.role = .standing) : k.Cast := by
  rw [Cast, hname, List.eq_replicate_iff]
  simpa using h

end Kind

namespace Reader

theorem clause?_role {n c : Node} (h : clause? n = some c) : c.kind.role = .clause := by
  obtain ⟨test, body, -, rfl⟩ := clause?_eq_some h
  rfl

theorem binding?_role {n b : Node} (h : binding? n = some b) : b.kind.role = .binding := by
  obtain ⟨name, value, -, -, rfl⟩ := binding?_eq_some h
  rfl

theorem mapM_role {f : Node → Option Node} {role : Role} (hf : ∀ n m, f n = some m → m.kind.role = role)
    {ns ms : List Node} (h : ns.mapM f = some ms) : ∀ m ∈ ms, m.kind.role = role := by
  intro m hm
  obtain ⟨n, -, hn⟩ := exists_of_mapM h hm
  exact hf n m hn

theorem role_of_symbol {n : Node} (h : n.symbol?.isSome) : n.kind.role = .standing := by
  obtain ⟨name, hname⟩ := Option.isSome_iff_exists.1 h
  rw [Node.kind_of_symbol? hname]
  rfl

theorem role_of_symbol_raw {n : Node} (h : n.raw.symbol?.isSome) : n.kind.role = .standing := by
  have hkind : n.raw.kind = n.kind.raw := rfl
  unfold Node.symbol? at h
  rw [hkind] at h
  cases hk : n.kind with
  | identifiers ids =>
      rw [hk] at h
      cases ids <;> cases h
  | clause test body =>
      rw [hk] at h
      cases h
  | binding name value =>
      rw [hk] at h
      cases h
  | _ => rfl

theorem letIn_cast {form : LetForm} {bs : List Node} {body : Node} (hbs : ∀ b ∈ bs, b.kind.role = .binding)
    (hbody : body.kind.role = .standing) : (Kind.letIn form bs body).Cast := by
  have hroles : bs.map (·.kind.role) = List.replicate bs.length .binding := by
    rw [List.eq_replicate_iff]
    simpa using hbs
  simp [Kind.Cast, Kind.children, Kind.slots, Slot.nodes, Kind.name, Kind.rolesOf, hroles, hbody]

/-- From elements that are as they are on their own, a form makes a kind whose children have their roles. -/
theorem Formed.cast {keyword : String} {items : List Node} {k : Kind Node} (h : Formed keyword items k)
    (hitems : ∀ n ∈ items, n.kind.role = .standing) : k.Cast := by
  cases h with
  | @variableDef head name body symbol =>
      refine Kind.cast_of_standing (fun _ => rfl) ?_
      simp [Kind.children, Kind.slots, Slot.nodes, hitems name (by simp), hitems body (by simp)]
  | @functionDef head target name body params header =>
      have hname := role_of_symbol ((symbols?_eq_some header).2 name (by simp))
      have hparams : (Node.make (.identifiers params) (paramsSpan name params)).kind.role = .identifiers := rfl
      simp [Kind.Cast, Kind.children, Kind.slots, Slot.nodes, Kind.name, Kind.rolesOf, Node.kind_addNotes, hname,
        hitems body (by simp), hparams]
  | @structDef head name fields ids symbol list =>
      show [name.kind.role, .identifiers] = [.standing, .identifiers]
      rw [hitems name (by simp)]
  | @lambda head args body ids list =>
      show [.identifiers, body.kind.role] = [.identifiers, .standing]
      rw [hitems body (by simp)]
  | oneArm =>
      refine Kind.cast_of_standing (fun _ => rfl) ?_
      simpa [Kind.children, Kind.slots, Slot.nodes] using (List.forall_mem_cons.1 hitems).2
  | twoArms =>
      refine Kind.cast_of_standing (fun _ => rfl) ?_
      simpa [Kind.children, Kind.slots, Slot.nodes] using (List.forall_mem_cons.1 hitems).2
  | @cond _ clauses all =>
      have hroles := mapM_role (fun _ _ => clause?_role) all
      have hchildren : (Kind.cond clauses).children = clauses := by simp [Kind.children, Kind.slots, Slot.nodes]
      rw [Kind.Cast, hchildren]
      refine List.eq_replicate_iff.2 ⟨List.length_map _, ?_⟩
      simpa using hroles
  | @letNothing form head list body empty =>
      refine letIn_cast (by simp) ?_
      rw [Node.kind_addNotes]
      exact hitems body (by simp)
  | @letIn form head list body first rest bound =>
      obtain ⟨elements, -, hmap⟩ := bindings?_eq_some bound
      obtain ⟨hfirst, hrest⟩ := List.forall_mem_cons.1 (mapM_role (fun _ _ => binding?_role) hmap)
      refine letIn_cast (List.forall_mem_cons.2 ⟨?_, hrest⟩) (hitems body (by simp))
      rw [Node.kind_addNotes]
      exact hfirst
  | guarded form =>
      refine Kind.cast_of_standing (fun _ => rfl) ?_
      simpa [Kind.children, Kind.slots, Slot.nodes] using (List.forall_mem_cons.1 hitems).2
  | sequence =>
      refine Kind.cast_of_standing (fun _ => rfl) fun c hc => hitems c ?_
      exact List.mem_of_mem_tail (by simpa [Kind.children, Kind.slots, Slot.nodes] using hc)

theorem passKeywordComment_role {items : List Node} (h : ∀ n ∈ items, n.kind.role = .standing) :
    ∀ n ∈ passKeywordComment items, n.kind.role = .standing := by
  rcases passKeywordComment_cases items with hpass | ⟨keyword, next, rest, c, rfl, -, hpass⟩
  · rwa [hpass]
  · rw [hpass]
    simp only [List.forall_mem_cons] at h ⊢
    rw [Node.kind_withComment, Node.kind_addNotes]
    exact h

theorem recognise_cast {items : List Node} (h : ∀ n ∈ items, n.kind.role = .standing) : (recognise items).Cast := by
  have hpassed := passKeywordComment_role h
  rcases recognise_cases items with ⟨-, hrec⟩ | ⟨keyword, -, -, hformed | hrec⟩
  · rw [hrec]
    cases items with
    | nil => rfl
    | cons func args =>
        refine Kind.cast_of_standing (fun _ => rfl) ?_
        rwa [children_applicationOf]
  · exact hformed.cast hpassed
  · rw [hrec]
    refine Kind.cast_of_standing (fun _ => rfl) ?_
    simpa [Kind.children, Kind.slots, Slot.nodes] using hpassed

end Reader

namespace Kind

theorem Readable.listReadable {k : Kind Node} (h : k.Readable) (hlist : k.isList) : k.ListReadable := by
  cases k with
  | literal value type => cases hlist
  | blank => cases hlist
  | pasted text => cases hlist
  | vacated => cases hlist
  | _ => exact h

/-- What can be read back has children in the roles that reading gives them. -/
theorem ListReadable.cast {k : Kind Node} (h : k.ListReadable) : k.Cast := by
  rw [← cast_raw, ← cast_map_bare, ← h.back, cast_map_bare]
  apply recognise_cast
  intro m hm
  rcases mem_written hm with ⟨x, -, rfl⟩ | ⟨keyword, -, rfl⟩ | ⟨items, -, rfl, -⟩
  · exact role_raw x.kind
  · rfl
  · cases items <;> rfl

theorem Readable.cast {k : Kind Node} (h : k.Readable) : k.Cast := by
  by_cases hlist : k.isList
  · exact (h.listReadable hlist).cast
  · refine cast_of_standing ?_ (by simp [children_of_not_isList (by simpa using hlist)])
    cases k with
    | literal value type => exact fun _ => rfl
    | blank => exact fun _ => rfl
    | pasted text => exact fun _ => rfl
    | vacated => exact fun _ => rfl
    | _ => cases hlist rfl

theorem parts_raw (k : Kind Node) : k.raw.parts = k.parts := by
  cases k with
  | identifiers ids => exact parts_applicationOf ids
  | _ => rfl

theorem Readable.raw {k : Kind Node} (h : k.Readable) : k.raw.Readable := by
  cases k with
  | identifiers ids =>
      have hread : (Kind.identifiers ids).ListReadable := h
      cases ids with
      | nil => exact ⟨fun _ hitems => absurd hitems List.not_mem_nil, hread.calm, hread.back⟩
      | cons func args => exact ⟨hread.plain, hread.calm, hread.back⟩
  | clause test body =>
      have hread : (Kind.clause test body).ListReadable := h
      exact ⟨hread.plain, hread.calm, hread.back⟩
  | binding name value =>
      have hread : (Kind.binding name value).ListReadable := h
      exact ⟨hread.plain, hread.calm, hread.back⟩
  | _ => exact h

end Kind

/-! ## Signs without comments -/

theorem keywordNode_standing {keyword : String} (h : (form? keyword).isSome) : (keywordNode keyword).Standing :=
  Node.standing_make (k := .literal keyword .symbol) ⟨Doc.keyword_ok h, by simp, rfl⟩ _

theorem Node.Sound.raw_standing {n : Node} (h : n.Sound) : n.raw.Standing := by
  obtain ⟨hkind, hcomment, hparts⟩ := Node.sound_iff.1 h
  refine ⟨Node.sound_iff.2 ⟨hkind.raw, hcomment, ?_⟩, Kind.raw_eq_of_role (Kind.role_raw n.kind)⟩
  show ∀ m ∈ n.kind.raw.parts, m.Sound
  rwa [Kind.parts_raw]

/-- The elements that a list is written as are as they are on their own. -/
theorem Node.Sound.written_standing {n : Node} (h : n.Sound) (hlist : n.kind.isList) :
    ∀ m ∈ n.kind.written, m.Standing := by
  obtain ⟨hkind, -, hparts⟩ := Node.sound_iff.1 h
  intro m hm
  rcases Kind.mem_written hm with ⟨x, hx, rfl⟩ | ⟨keyword, hform, rfl⟩ | ⟨items, hitems, rfl, hraw⟩
  · exact (hparts x hx).raw_standing
  · exact keywordNode_standing hform
  · refine Node.standing_make (applicationOf_standing ?_ ((hkind.listReadable hlist).plain items hitems)) _
    intro i hi
    obtain ⟨x, hx, rfl⟩ := hraw i hi
    exact (hparts x hx).raw_standing

/-- No comment hangs on a node or in it. -/
def Node.Uncommented (n : Node) : Prop := ∀ m ∈ n.walk, m.comment = none

namespace Node.Uncommented

variable {n : Node} (h : n.Uncommented)

include h

theorem of_mem {m : Node} (hm : m ∈ n.walk) : m.Uncommented := fun _ hl => h _ (mem_walk_trans hm hl)

theorem comment_eq : n.comment = none := h n n.mem_walk_self

theorem raw : n.raw.Uncommented := by
  have hchildren : n.raw.children = n.children := Kind.children_raw n.kind
  rw [Uncommented, walk_eq, List.forall_mem_cons, hchildren]
  rw [Uncommented, walk_eq, List.forall_mem_cons] at h
  exact h

theorem written : ∀ m ∈ n.kind.written, m.Uncommented := by
  intro m hm
  rcases Kind.mem_written hm with ⟨x, hx, rfl⟩ | ⟨keyword, -, rfl⟩ | ⟨items, -, rfl, hraw⟩
  · exact (h.of_mem (part_mem_walk hx)).raw
  · rw [Uncommented, walk_eq]
    simp [keywordNode, Node.make, children, Kind.children, Kind.slots]
  · have hchildren : (listNode items).children = items := children_applicationOf items
    rw [Uncommented, walk_eq, List.forall_mem_cons, hchildren, List.forall_mem_flatMap]
    refine ⟨rfl, fun i hi => ?_⟩
    obtain ⟨x, hx, rfl⟩ := hraw i hi
    exact (h.of_mem (part_mem_walk hx)).raw

end Node.Uncommented

theorem map_eq_of_map_eq {α β γ : Type} {f : α → β} {g : α → γ} {as bs : List α} (h : as.map f = bs.map f)
    (hfg : ∀ a ∈ as, ∀ b ∈ bs, f a = f b → g a = g b) : as.map g = bs.map g := by
  induction as generalizing bs with
  | nil => simpa using h
  | cons a as ih =>
      cases bs with
      | nil => cases h
      | cons b bs =>
          obtain ⟨hhead, htail⟩ := List.cons.inj h
          rw [List.map_cons, List.map_cons, hfg a (by simp) b (by simp) hhead,
            ih htail fun a ha b hb => hfg a (by simp [ha]) b (by simp [hb])]

namespace Node

/-- A sound node that is no list is what its word is read as. -/
theorem Sound.kind_of_word {n : Node} (h : n.Sound) (hlist : n.kind.isList = false) :
    ∃ word : String, n.flatten = [.word word] ∧
      n.kind = if word.toList.head? = some '"' then .literal word .string else Kind.ofAtom word := by
  obtain ⟨hkind, -, -⟩ := sound_iff.1 h
  have hatom : ∀ {value : String}, (Lexeme.atom value.toList).Ok → value.toList.head? ≠ some '"' := by
    rintro value ⟨-, hchars⟩ hhead
    cases hchars '"' (List.mem_of_mem_head? hhead)
  rw [flatten_eq]
  cases hk : n.kind with
  | literal value type =>
      refine ⟨value, rfl, ?_⟩
      rw [hk] at hkind
      cases type with
      | string =>
          obtain ⟨body, -, hvalue⟩ := hkind
          rw [hvalue]
          rfl
      | number => rw [if_neg (hatom hkind.1), hkind.2]
      | boolean => rw [if_neg (hatom hkind.1), hkind.2]
      | symbol => rw [if_neg (hatom hkind.1), hkind.2]
  | blank => exact ⟨blankText, rfl, rfl⟩
  | pasted text =>
      rw [hk] at hkind
      exact hkind.elim
  | vacated =>
      rw [hk] at hkind
      exact hkind.elim
  | _ => simp [hk, Kind.isList] at hlist

/-- Without comments, signs say all there is to a node that is as it is on its own. -/
theorem Standing.bare_eq {a b : Node} (ha : a.Standing) (hb : b.Standing) (hca : a.Uncommented)
    (hcb : b.Uncommented) (h : a.flatten = b.flatten) : a.bare = b.bare := by
  -- By induction on how much is said. The elements of a list say less than the list.
  induction hsize : a.flatten.length using Nat.strong_induction_on generalizing a b with
  | _ size ih =>
      rw [bare_eq_bare_iff, hca.comment_eq, hcb.comment_eq]
      refine ⟨?_, rfl⟩
      by_cases hlist : a.kind.isList
      · have hlist' : b.kind.isList := by
          by_contra hleaf
          obtain ⟨word, hword, -⟩ := hb.sound.kind_of_word (by simpa using hleaf)
          rw [flatten_of_isList hlist, hword] at h
          cases h
        have hwa := ha.sound.written_standing hlist
        have hwb := hb.sound.written_standing hlist'
        rw [flatten_of_isList hlist] at h hsize
        rw [flatten_of_isList hlist'] at h
        have hsigns : a.kind.written.map flatten = b.kind.written.map flatten :=
          flatten_inj (by simpa using fun m hm => (hwa m hm).sound.single)
            (by simpa using fun m hm => (hwb m hm).sound.single) (bracketed_inj h)
        have hwritten : a.kind.written.map bare = b.kind.written.map bare := by
          refine map_eq_of_map_eq hsigns fun x hx y hy hxy => ?_
          refine ih x.flatten.length ?_ (hwa x hx) (hwb y hy) (hca.written x hx) (hcb.written y hy) hxy rfl
          have hle := (List.sublist_flatten_of_mem (List.mem_map_of_mem (f := flatten) hx)).length_le
          rw [← hsize, bracketed, List.length_cons, List.length_append]
          omega
        have hra := (sound_iff.1 ha.sound).1.listReadable hlist
        have hrb := (sound_iff.1 hb.sound).1.listReadable hlist'
        have hkinds := recognise_congr hra.calm hwritten.symm
        rw [hra.back, hrb.back, ha.raw, hb.raw] at hkinds
        exact hkinds.symm
      · obtain ⟨word, hword, hkind⟩ := ha.sound.kind_of_word (by simpa using hlist)
        have hlist' : b.kind.isList = false := by
          by_contra hleaf
          rw [hword, flatten_of_isList (by simpa using hleaf)] at h
          cases h
        obtain ⟨word', hword', hkind'⟩ := hb.sound.kind_of_word hlist'
        rw [hword, hword'] at h
        cases h
        rw [hkind, hkind']

theorem Standing.role_eq {n : Node} (h : n.Standing) : n.kind.role = .standing := by
  rw [← h.raw]
  exact n.kind.role_raw

theorem Sound.standing {n : Node} (h : n.Sound) (hrole : n.kind.role = .standing) : n.Standing :=
  ⟨h, Kind.raw_eq_of_role hrole⟩

/-- The parameters of a function that can be read back are symbols. -/
theorem Sound.params_standing {n name params body : Node} (h : n.Sound)
    (hk : n.kind = .functionDef name params body) {ids : List Node} (hids : params.kind = .identifiers ids) :
    ∀ i ∈ ids, i.Standing := by
  obtain ⟨hkind, -, hparts⟩ := sound_iff.1 h
  rw [hk] at hkind hparts
  have hheader : params.header = ids := by rw [header, hids]
  have hback := hkind.back
  have hshape : shapeOf? [keywordNode "define", listNode (name.raw :: ids.map raw), body.raw] = some define? := rfl
  rw [Kind.written, hheader, recognise_of_some hshape, passKeywordComment_of_none rfl] at hback
  have hsymbols : ∀ x ∈ name.raw :: ids.map raw, x.symbol?.isSome := by
    by_contra hnone
    have hplain : symbols? (listNode (name.raw :: ids.map raw)) = none := by
      refine if_neg ?_
      simpa using hnone
    have hunknown : define? [keywordNode "define", listNode (name.raw :: ids.map raw), body.raw] = none := by
      simp only [define?, hplain]
      rfl
    rw [hunknown] at hback
    cases hback
  intro i hi
  have hpart : i ∈ (Kind.functionDef name params body).parts := by simp [hheader, hi]
  refine (hparts i hpart).standing (role_of_symbol_raw (hsymbols i.raw ?_))
  exact List.mem_cons_of_mem _ (List.mem_map_of_mem hi)

/-- The node can be read back, or it is a list of parameters that can. -/
def Legible (n : Node) : Prop := n.Sound ∨ ∃ ids, n.kind = .identifiers ids ∧ ∀ i ∈ ids, i.Standing

namespace Legible

variable {n : Node} (h : n.Legible)

include h

theorem children (hregular : n.kind.Regular) : ∀ c ∈ n.children, c.Legible := by
  intro c hc
  rcases h with hsound | ⟨ids, hids, hstanding⟩
  · rcases part_of_child hc with hpart | ⟨name, body, hk, -, -⟩
    · exact .inl ((sound_iff.1 hsound).2.2 c hpart)
    · rw [hk] at hregular
      obtain ⟨ids, hids⟩ := hregular
      exact .inr ⟨ids, hids, hsound.params_standing hk hids⟩
  · rw [children_identifiers hids] at hc
    exact .inl (hstanding c hc).sound

theorem cast : n.kind.Cast := by
  rcases h with hsound | ⟨ids, hids, hstanding⟩
  · exact (sound_iff.1 hsound).1.cast
  · rw [hids]
    refine Kind.cast_of_standing (fun _ => rfl) fun c hc => ?_
    have hmem : c ∈ ids := by simpa [Kind.children, Kind.slots, Slot.nodes] using hc
    exact (hstanding c hmem).role_eq

/-- The identifiers in a list of them are as they are on their own. -/
theorem identifiers_standing {ids : List Node} (hk : n.kind = .identifiers ids) : ∀ i ∈ ids, i.Standing := by
  intro i hi
  have hcast := h.cast
  rcases h with hsound | ⟨ids', hids, hstanding⟩
  · have hpart : i ∈ n.kind.parts := by rw [hk]; exact hi
    refine ((sound_iff.1 hsound).2.2 i hpart).standing ?_
    rw [hk] at hcast
    have hroles : ∀ c ∈ ids, c.kind.role = .standing := by
      simpa [Kind.children, Kind.slots, Slot.nodes] using (List.eq_replicate_iff.1 hcast).2
    exact hroles i hi
  · cases hk.symm.trans hids
    exact hstanding i hi

end Legible

/-- Without comments, signs say all there is to a node whose role is known. -/
theorem Legible.bare_eq {a b : Node} (ha : a.Legible) (hb : b.Legible) (hrole : a.kind.role = b.kind.role)
    (hca : a.Uncommented) (hcb : b.Uncommented) (h : a.flatten = b.flatten) : a.bare = b.bare := by
  rw [bare_eq_bare_iff, hca.comment_eq, hcb.comment_eq]
  refine ⟨?_, rfl⟩
  by_cases hids : a.kind.role = .identifiers
  · obtain ⟨ids, hk⟩ := Kind.identifiers_of_role hids
    obtain ⟨ids', hk'⟩ := Kind.identifiers_of_role (hrole ▸ hids)
    have hstanding := ha.identifiers_standing hk
    have hstanding' := hb.identifiers_standing hk'
    have hmem : ∀ i ∈ ids, i ∈ a.walk := fun i hi => mem_walk_of_child (children_identifiers hk ▸ hi)
    have hmem' : ∀ i ∈ ids', i ∈ b.walk := fun i hi => mem_walk_of_child (children_identifiers hk' ▸ hi)
    rw [flatten_identifiers hk, flatten_identifiers hk'] at h
    have hsigns : ids.map flatten = ids'.map flatten :=
      map_flatten_inj (fun i hi => (hstanding i hi).sound.single) (fun i hi => (hstanding' i hi).sound.single)
        (bracketed_inj h)
    have hbare : ids.map bare = ids'.map bare := by
      refine map_eq_of_map_eq hsigns fun i hi j hj hij => ?_
      exact (hstanding i hi).bare_eq (hstanding' j hj) (hca.of_mem (hmem i hi)) (hcb.of_mem (hmem' j hj)) hij
    rw [hk, hk', Kind.map, Kind.map, hbare]
  · have hsound : a.Sound := by
      refine ha.resolve_right ?_
      rintro ⟨ids, hk, -⟩
      exact hids (by rw [hk]; rfl)
    have hsound' : b.Sound := by
      refine hb.resolve_right ?_
      rintro ⟨ids, hk, -⟩
      exact hids (by rw [hrole, hk]; rfl)
    have hraw : a.raw.bare = b.raw.bare :=
      hsound.raw_standing.bare_eq hsound'.raw_standing hca.raw hcb.raw (by rwa [flatten_raw, flatten_raw])
    exact Kind.map_bare_of_raw hrole (bare_eq_bare_iff.1 hraw).1

end Node

/-! ## Nodes of documents that were read -/

theorem Kind.regular_map_bare {k : Kind Node} : (k.map Node.bare).Regular ↔ k.Regular := by
  cases k with
  | functionDef name params body =>
      show (∃ ids, params.bare.kind = .identifiers ids) ↔ ∃ ids, params.kind = .identifiers ids
      rw [Node.bare_kind]
      constructor
      · rintro ⟨ids, hids⟩
        exact identifiers_of_role (by rw [← role_map Node.bare, hids]; rfl)
      · rintro ⟨ids, hids⟩
        exact ⟨ids.map Node.bare, by rw [hids]; rfl⟩
  | _ => exact Iff.rfl

namespace Node

/-- The node is structurally equal to one that can be read in its place. -/
def AsRead (n : Node) : Prop := ∃ r : Node, r.Legible ∧ (∀ m ∈ r.walk, m.kind.Regular) ∧ r.bare = n.bare

theorem kind_map_of_bare {a b : Node} (h : a.bare = b.bare) : a.kind.map bare = b.kind.map bare :=
  (bare_eq_bare_iff.1 h).1

theorem children_of_bare {a b : Node} (h : a.bare = b.bare) : a.children.map bare = b.children.map bare := by
  rw [children, children, ← Kind.children_map, ← Kind.children_map, kind_map_of_bare h]

theorem walk_bare (n : Node) : n.bare.walk = n.walk.map bare := by
  induction n using induct with
  | step n ih =>
      have hchildren : n.bare.children = n.children.map bare := by
        rw [children, bare_kind, Kind.children_map, children]
      rw [walk_eq n.bare, walk_eq n, hchildren, List.map_cons, List.map_flatMap, List.flatMap_map]
      exact congrArg _ (List.flatMap_congr ih)

theorem Uncommented.of_bare {a b : Node} (h : a.bare = b.bare) (hb : b.Uncommented) : a.Uncommented := by
  intro m hm
  have hmem : m.bare ∈ b.walk.map bare := by
    rw [← walk_bare, ← h, walk_bare]
    exact List.mem_map_of_mem hm
  obtain ⟨l, hl, hlm⟩ := List.mem_map.1 hmem
  have hcomment := congrArg comment hlm
  rw [bare_comment, bare_comment, hb l hl] at hcomment
  exact Option.map_eq_none_iff.1 hcomment.symm

namespace AsRead

variable {n : Node} (h : n.AsRead)

include h

theorem of_bare {m : Node} (hbare : n.bare = m.bare) : m.AsRead := by
  obtain ⟨r, hlegible, hregular, hr⟩ := h
  exact ⟨r, hlegible, hregular, hr.trans hbare⟩

theorem children : ∀ c ∈ n.children, c.AsRead := by
  obtain ⟨r, hlegible, hregular, hbare⟩ := h
  intro c hc
  have hmem := List.mem_map_of_mem (f := bare) hc
  rw [← children_of_bare hbare] at hmem
  obtain ⟨d, hd, hdc⟩ := List.mem_map.1 hmem
  refine ⟨d, hlegible.children (hregular r r.mem_walk_self) d hd, fun m hm => ?_, hdc⟩
  exact hregular m (mem_walk_trans (mem_walk_of_child hd) hm)

theorem regular : n.kind.Regular := by
  obtain ⟨r, -, hregular, hbare⟩ := h
  rw [← Kind.regular_map_bare, ← kind_map_of_bare hbare, Kind.regular_map_bare]
  exact hregular r r.mem_walk_self

theorem cast : n.kind.Cast := by
  obtain ⟨r, hlegible, -, hbare⟩ := h
  rw [← Kind.cast_map_bare, ← kind_map_of_bare hbare, Kind.cast_map_bare]
  exact hlegible.cast

theorem of_mem_walk {m : Node} (hm : m ∈ n.walk) : m.AsRead := by
  induction n using induct with
  | step n ih =>
      rw [walk_eq] at hm
      rcases List.mem_cons.1 hm with rfl | hm
      · exact h
      · obtain ⟨c, hc, hmc⟩ := List.mem_flatMap.1 hm
        exact ih c hc (h.children c hc) hmc

theorem single : ∀ m ∈ n.walk, Single m.flatten := by
  refine single_flatten fun m hm text hk => ?_
  have hregular := (h.of_mem_walk hm).regular
  rw [hk] at hregular
  exact hregular.elim

end AsRead

/-- Without comments, signs say all there is to a node in its place. -/
theorem AsRead.bare_eq {a b : Node} (ha : a.AsRead) (hb : b.AsRead) (hrole : a.kind.role = b.kind.role)
    (hca : a.Uncommented) (hcb : b.Uncommented) (h : a.flatten = b.flatten) : a.bare = b.bare := by
  obtain ⟨r, hr, -, hra⟩ := ha
  obtain ⟨q, hq, -, hqb⟩ := hb
  have hroles : r.kind.role = q.kind.role := by
    rw [← Kind.role_map bare, kind_map_of_bare hra, Kind.role_map, hrole, ← Kind.role_map bare, ← kind_map_of_bare hqb,
      Kind.role_map]
  have hsigns : r.flatten = q.flatten := by
    rw [← r.flatten_bare, hra, a.flatten_bare, h, ← b.flatten_bare, ← hqb, q.flatten_bare]
  rw [← hra, ← hqb]
  exact hr.bare_eq hq hroles (hca.of_bare hra) (hcb.of_bare hqb) hsigns

theorem asRead_of_readDocument {text : String} {roots : List Node} (h : readDocument text = .ok roots) :
    ∀ n ∈ roots, n.AsRead := by
  intro n hn
  refine ⟨n, .inl (readDocument_standing h n hn).sound, fun m hm => ?_, rfl⟩
  exact readDocument_regular h m (List.mem_flatMap.2 ⟨n, hn, hm⟩)

end Node

end TreeEdit
