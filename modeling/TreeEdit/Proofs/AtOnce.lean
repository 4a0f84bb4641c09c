import Mathlib.Data.List.Nodup
import TreeEdit.Edit.Group
import TreeEdit.Proofs.Territory

/-!
# Edits made at once

`Node.edited` makes a batch of edits inside a node at once. It says of each place what becomes of it: a
child stays, goes, or gives way to a text; a required child that goes leaves a blank; and a text put in at
an index stands before the child that has this index now.

The program carries the edits out one after the other on a copy, latest first, and finds each place again
by the identity of its node and the index it had at first. `Turn.graftAll_eq` says that this comes to the
same, because an edit still to come is about a place in front of those that were changed already.
-/

namespace TreeEdit

universe u

/-! ## Every place of a kind changed -/

/-- What becomes of the places of a kind, by their names. -/
structure Refit (α : Type u) where
  required : String → α → α
  optional : String → Option α → Option α
  list : String → List α → List α

/-- A place changed. -/
def Slot.refit {α : Type u} (r : Refit α) : Slot α → Slot α
  | .required field n => .required field (r.required field n)
  | .optional field n => .optional field (r.optional field n)
  | .list field ns => .list field (r.list field ns)

/-- A kind with all its places changed. -/
def Kind.refit {α : Type u} (r : Refit α) : Kind α → Kind α
  | .literal value type => .literal value type
  | .blank => .blank
  | .app func args => .app (r.required "func" func) (r.list "args" args)
  | .identifiers ids => .identifiers (r.list "ids" ids)
  | .variableDef name body => .variableDef (r.required "name" name) (r.required "body" body)
  | .functionDef name params body =>
    .functionDef (r.required "name" name) (r.required "params" params) (r.required "body" body)
  | .lambda args body => .lambda (r.required "args" args) (r.required "body" body)
  | .structDef name fields => .structDef (r.required "name" name) (r.required "fields" fields)
  | .conditional test yes no =>
    .conditional (r.required "test" test) (r.required "then" yes) (r.optional "else" no)
  | .cond clauses => .cond (r.list "clauses" clauses)
  | .clause test body => .clause (r.required "test" test) (r.list "body" body)
  | .letIn form bindings body => .letIn form (r.list "bindings" bindings) (r.required "body" body)
  | .binding name value => .binding (r.required "name" name) (r.required "value" value)
  | .guarded form predicate exprs =>
    .guarded form (r.required "predicate" predicate) (r.list "exprs" exprs)
  | .sequence exprs => .sequence (r.list "exprs" exprs)
  | .unknown elts => .unknown (r.list "elts" elts)
  | .pasted text => .pasted text
  | .vacated => .vacated

@[simp] theorem Slot.field_refit {α : Type u} (s : Slot α) (r : Refit α) : (s.refit r).field = s.field := by
  cases s <;> rfl

theorem Kind.slots_refit {α : Type u} (r : Refit α) (k : Kind α) :
    (k.refit r).slots = k.slots.map (Slot.refit r) := by
  cases k <;> rfl

theorem Kind.name_refit {α : Type u} (r : Refit α) (k : Kind α) : (k.refit r).name = k.name := by
  cases k <;> rfl

/-- What it does to a node has no part in what becomes of the places. -/
structure Refit.Natural {α : Type u} (r : Refit α) (g : α → α) : Prop where
  required : ∀ name n, r.required name (g n) = g (r.required name n)
  optional : ∀ name n, r.optional name (n.map g) = (r.optional name n).map g
  list : ∀ name ns, r.list name (ns.map g) = (r.list name ns).map g

theorem Refit.Natural.refit_map {α : Type u} {r : Refit α} {g : α → α} (h : r.Natural g) (k : Kind α) :
    (k.map g).refit r = (k.refit r).map g := by
  cases k <;> simp only [Kind.refit, Kind.map, h.required, h.optional, h.list]

/-- What one edit does to a place. -/
def SlotEdit.apply {ε α : Type} (e : SlotEdit ε α) : InPlace ε (Slot α)
  | .required field n => (e.required n).map id (.required field)
  | .optional field n => (e.optional n).map id (.optional field)
  | .list field ns => (e.list ns).map id (.list field)

theorem map_eq_done_iff {ε α β : Type} {f : α → β} {x : Except ε Unit × α} {b : β} :
    x.map id f = (.ok (), b) ↔ ∃ a, x = (.ok (), a) ∧ f a = b := by
  obtain ⟨result, a⟩ := x
  simp [Prod.map_apply]

/-- An edit that takes one place of a kind from one change to another, where the other places do not
differ, takes the whole kind there. -/
theorem Kind.editSlot?_refit {ε α : Type} {k : Kind α} {field : String} {e : SlotEdit ε α} {r r' : Refit α}
    (hslot : ∃ s ∈ k.slots, s.field = field)
    (hthis : ∀ s ∈ k.slots, s.field = field → e.apply (s.refit r) = (.ok (), s.refit r'))
    (hother : ∀ s ∈ k.slots, s.field ≠ field → s.refit r = s.refit r') :
    (k.refit r).editSlot? field e = some (.ok (), k.refit r') := by
  obtain ⟨s, hs, rfl⟩ := hslot
  cases k with
  | literal value type => cases hs
  | blank => cases hs
  | pasted text => cases hs
  | vacated => cases hs
  | identifiers ids | cond clauses | sequence exprs | unknown elts =>
      obtain rfl := List.mem_singleton.1 hs
      simp_all [slots, Slot.field, SlotEdit.apply, Slot.refit, refit, editSlot?, map_eq_done_iff]
  | functionDef name params body | conditional test yes no =>
      simp only [slots, List.mem_cons, List.not_mem_nil, or_false] at hs
      rcases hs with rfl | rfl | rfl <;>
        simp_all [slots, Slot.field, SlotEdit.apply, Slot.refit, refit, editSlot?, map_eq_done_iff]
  | _ =>
      simp only [slots, List.mem_cons, List.not_mem_nil, or_false] at hs
      rcases hs with rfl | rfl <;>
        simp_all [slots, Slot.field, SlotEdit.apply, Slot.refit, refit, editSlot?, map_eq_done_iff]

/-! ## The batch as a whole -/

/-- What becomes of a child. -/
inductive Fate where
  | stays
  | goes
  | givesWay (new : Node)

namespace Edit

/-- What becomes of the child with an identity by one edit; `none` if the edit is not about it. -/
def fateOf? (e : Edit) (id : NodeId) : Option Fate :=
  match e.kind with
  | .deleteChild node _ _ _ => if node = id then some .goes else none
  | .replaceChild node _ _ _ text => if node = id then some (.givesWay (.pasted text e.start)) else none
  | _ => none

/-- What an edit puts in at an index of a place; `none` if it does not. -/
def putIn? (e : Edit) (field : String) (index : Nat) : Option Node :=
  match e.kind with
  | .insertChild _ field' index' text =>
    if field' = field ∧ index' = index then some (.pasted text e.start) else none
  | _ => none

/-- What becomes of the child with an identity. -/
def fate (edits : List Edit) (id : NodeId) : Fate := (edits.findSome? (·.fateOf? id)).getD .stays

/-- What is put in at an index of a place, in the order of the text; the edits are given latest first. -/
def putIn (edits : List Edit) (field : String) (index : Nat) : List Node :=
  edits.reverse.filterMap (·.putIn? field index)

/-- What is left of the child in its place. -/
def left (edits : List Edit) (n : Node) : Option Node :=
  match fate edits n.id with
  | .stays => some n
  | .goes => none
  | .givesWay new => some new

end Edit

/-- Elements woven from what stands before each index, counted from the first, and what is left of the
element there. -/
def weave {α β : Type} (before : Nat → List β) (left : α → Option β) : Nat → List α → List β
  | i, [] => before i
  | i, a :: as => before i ++ ((left a).toList ++ weave before left (i + 1) as)

/-- What becomes of the places of a node by the edits in them, given latest first. -/
def Edit.refit (edits : List Edit) : Refit Node where
  required _ n := (left edits n).getD (.vacated n.span)
  optional field n := (n.bind (left edits)).or (putIn edits field 0).head?
  list field ns := weave (putIn edits field) (left edits) 0 ns

@[simp] theorem Edit.refit_required (edits : List Edit) (field : String) (n : Node) :
    (refit edits).required field n = (left edits n).getD (.vacated n.span) := rfl

@[simp] theorem Edit.refit_optional (edits : List Edit) (field : String) (n : Option Node) :
    (refit edits).optional field n = (n.bind (left edits)).or (putIn edits field 0).head? := rfl

@[simp] theorem Edit.refit_list (edits : List Edit) (field : String) (ns : List Node) :
    (refit edits).list field ns = weave (putIn edits field) (left edits) 0 ns := rfl

/-- The edits in places of a node. -/
def Edit.inside (edits : List Edit) (id : NodeId) : List Edit := edits.filter (·.parent? = some id)

/-- A node with all edits made at once; they are given latest first. -/
def Node.edited (edits : List Edit) (n : Node) : Node :=
  n.fold fun n below => { n with kind := below.refit (Edit.refit (Edit.inside edits n.id)) }

theorem Node.edited_eq (edits : List Edit) (n : Node) :
    n.edited edits =
      { n with kind := (n.kind.map (edited edits)).refit (Edit.refit (Edit.inside edits n.id)) } := by
  rw [edited, fold_eq]
  rfl

/-! ## Woven lists -/

section Weave

variable {α β : Type} {before before' : Nat → List β} {left left' : α → Option β}

theorem weave_congr {i : Nat} {as : List α} (hbefore : ∀ j, i ≤ j → before j = before' j)
    (hleft : ∀ a ∈ as, left a = left' a) : weave before left i as = weave before' left' i as := by
  induction as generalizing i with
  | nil => exact hbefore i (le_refl i)
  | cons a as ih =>
      obtain ⟨ha, has⟩ := List.forall_mem_cons.1 hleft
      rw [weave, weave, hbefore i (le_refl i), ha, ih (fun j hj => hbefore j (by omega)) has]

theorem weave_filterMap (g : β → Option β) (i : Nat) (as : List α) :
    (weave before left i as).filterMap g =
      weave (fun j => (before j).filterMap g) (fun a => (left a).bind g) i as := by
  induction as generalizing i with
  | nil => rfl
  | cons a as ih =>
      rw [weave, weave, List.filterMap_append, List.filterMap_append, ih]
      cases left a with
      | none => rfl
      | some b => cases h : g b <;> simp [h]

theorem weave_nil (i : Nat) (as : List α) : weave (fun _ => []) left i as = as.filterMap left := by
  induction as generalizing i with
  | nil => rfl
  | cons a as ih => cases h : left a <;> simp [weave, ih, h]

theorem weave_map {γ : Type} (g : β → γ) (i : Nat) (as : List α) :
    (weave before left i as).map g = weave (fun j => (before j).map g) (fun a => (left a).map g) i as := by
  induction as generalizing i with
  | nil => rfl
  | cons a as ih =>
      rw [weave, weave, List.map_append, List.map_append, ih, Option.toList_map]

theorem map_weave {γ : Type} (g : γ → α) (i : Nat) (cs : List γ) :
    weave before left i (cs.map g) = weave before (left ∘ g) i cs := by
  induction cs generalizing i with
  | nil => rfl
  | cons c cs ih =>
      rw [List.map_cons, weave, weave, ih]
      rfl

theorem mem_weave {b : β} {i : Nat} {as : List α} (h : b ∈ weave before left i as) :
    (∃ j, b ∈ before j) ∨ ∃ a ∈ as, left a = some b := by
  induction as generalizing i with
  | nil => exact .inl ⟨i, h⟩
  | cons a as ih =>
      rw [weave, List.mem_append, List.mem_append] at h
      rcases h with h | h | h
      · exact .inl ⟨i, h⟩
      · exact .inr ⟨a, List.mem_cons_self, Option.mem_toList.1 h⟩
      · exact (ih h).imp_right fun ⟨a', ha', hb⟩ => ⟨a', List.mem_cons_of_mem _ ha', hb⟩

theorem mem_weave_of_left {a : α} {b : β} {i : Nat} {as : List α} (ha : a ∈ as) (h : left a = some b) :
    b ∈ weave before left i as := by
  induction as generalizing i with
  | nil => cases ha
  | cons a' as ih =>
      rw [weave, List.mem_append, List.mem_append]
      rcases List.mem_cons.1 ha with rfl | ha
      · exact .inr (.inl (Option.mem_toList.2 h))
      · exact .inr (.inr (ih ha))

/-- One more element put in at the start. -/
theorem weave_cons {i : Nat} {as : List α} {b : β} (hthis : before' i = b :: before i)
    (hothers : ∀ j, i < j → before' j = before j) :
    weave before' left i as = b :: weave before left i as := by
  cases as with
  | nil => exact hthis
  | cons a as =>
      have hrest : weave before' left (i + 1) as = weave before left (i + 1) as :=
        weave_congr (fun j hj => hothers j (by omega)) fun _ _ => rfl
      rw [weave, weave, hthis, hrest]
      rfl

/-- Up to the first index with something to do, the elements are left alone. -/
theorem weave_take {before : Nat → List α} {left : α → Option α} {i : Nat} {as : List α} (k : Nat)
    (hbefore : ∀ j, i ≤ j → j < i + k → before j = []) (hleft : ∀ a ∈ as.take k, left a = some a)
    (hk : k ≤ as.length) :
    weave before left i as = as.take k ++ weave before left (i + k) (as.drop k) := by
  induction k generalizing i as with
  | zero => rfl
  | succ k ih =>
      cases as with
      | nil => cases hk
      | cons a as =>
          rw [List.take_succ_cons] at hleft
          obtain ⟨ha, has⟩ := List.forall_mem_cons.1 hleft
          rw [weave, hbefore i (le_refl i) (by omega), ha, ih (fun j hj hlt => hbefore j (by omega) (by omega))
            has (Nat.le_of_succ_le_succ hk), Nat.add_right_comm]
          rfl

end Weave

theorem insertIdx_length_append {α : Type} (as bs : List α) (a : α) :
    (as ++ bs).insertIdx as.length a = as ++ a :: bs := by
  induction as with
  | nil => rfl
  | cons b as ih => exact congrArg (b :: ·) ih

/-- The one element of a list with an identity, found and replaced or taken away. -/
theorem change_only {ns : List Node} {target : NodeId} {n : Node}
    (h : ns.filter (·.id == target) = [n]) :
    ∃ i, ns.findIdx? (·.id == target) = some i ∧
      ns.eraseIdx i = ns.filterMap (fun m => if m.id = target then none else some m) ∧
      ∀ new, ns.set i new = ns.filterMap fun m => if m.id = target then some new else some m := by
  obtain ⟨as, bs, rfl, has, hn, hbs⟩ := List.filter_eq_cons_iff.1 h
  have hid : n.id = target := by simpa using hn
  have hskip : ∀ (new : Option Node) (ms : List Node), (∀ m ∈ ms, m.id ≠ target) →
      (ms.filterMap fun m => if m.id = target then new else some m) = ms := by
    intro new ms hms
    have hsome : ∀ m ∈ ms, (if m.id = target then new else some m) = some m := fun m hm => if_neg (hms m hm)
    rw [List.filterMap_congr hsome, List.filterMap_some]
  have has : ∀ m ∈ as, m.id ≠ target := fun m hm => by simpa using has m hm
  have hbs : ∀ m ∈ bs, m.id ≠ target := by simpa using List.filter_eq_nil_iff.1 hbs
  refine ⟨as.length, ?_, ?_, fun new => ?_⟩
  · rw [List.findIdx?_append, List.findIdx?_eq_none_iff.2 (by simpa using has)]
    simp [List.findIdx?_cons, hid]
  · rw [List.eraseIdx_append_of_length_le (le_refl _), List.filterMap_append, hskip none as has,
      List.filterMap_cons, if_pos hid, hskip none bs hbs]
    simp
  · rw [List.set_append_right _ _ (le_refl _), List.filterMap_append, hskip (some new) as has,
      List.filterMap_cons, if_pos hid, hskip (some new) bs hbs]
    simp

/-! ## One more edit -/

namespace Edit

variable {edits : List Edit} {e : Edit}

theorem putIn_append (field : String) (index : Nat) :
    putIn (edits ++ [e]) field index = (e.putIn? field index).toList ++ putIn edits field index := by
  rw [putIn, List.reverse_append, List.reverse_singleton, List.singleton_append, List.filterMap_cons]
  cases e.putIn? field index <;> rfl

theorem left_eq (edits : List Edit) (n : Node) (h : ∀ e ∈ edits, e.fateOf? n.id = none) :
    left edits n = some n := by
  have hnone : edits.findSome? (·.fateOf? n.id) = none := List.findSome?_eq_none_iff.2 h
  rw [left, fate, hnone]
  rfl

theorem left_append_of_none {n : Node} (h : e.fateOf? n.id = none) :
    left (edits ++ [e]) n = left edits n := by
  rw [left, left, fate, fate, List.findSome?_append, List.findSome?_singleton, h, Option.or_none]

theorem fate_append_of_first {id : NodeId} (h : ∀ e ∈ edits, e.fateOf? id = none) :
    fate (edits ++ [e]) id = (e.fateOf? id).getD .stays := by
  have hnone : edits.findSome? (·.fateOf? id) = none := List.findSome?_eq_none_iff.2 h
  rw [fate, List.findSome?_append, hnone, List.findSome?_singleton, Option.none_or]

/-- The text an edit puts into a node. -/
def text? (e : Edit) : Option String :=
  match e.kind with
  | .insertChild _ _ _ text => some text
  | .replaceChild _ _ _ _ text => some text
  | _ => none

/-- What was put in by an edit, or left in the place of a child that was taken away. -/
def Made (edits : List Edit) (n : Node) : Prop :=
  (∃ e ∈ edits, ∃ text ∈ e.text?, ∃ place, n = .pasted text place) ∨ ∃ span, n = .vacated span

theorem Made.mono {edits edits' : List Edit} (hsub : edits ⊆ edits') {n : Node} (h : Made edits n) :
    Made edits' n :=
  h.imp_left fun ⟨e, he, hrest⟩ => ⟨e, hsub he, hrest⟩

theorem Made.id_eq {n : Node} (h : Made edits n) : n.id = .unassigned := by
  rcases h with ⟨_, _, _, _, _, rfl⟩ | ⟨_, rfl⟩ <;> rfl

theorem Made.children_eq {n : Node} (h : Made edits n) : n.children = [] := by
  rcases h with ⟨_, _, _, _, _, rfl⟩ | ⟨_, rfl⟩ <;> rfl

theorem made_of_mem_putIn {field : String} {index : Nat} {n : Node} (h : n ∈ putIn edits field index) :
    Made edits n := by
  obtain ⟨e, hmem, he⟩ := List.mem_filterMap.1 h
  unfold putIn? at he
  split at he
  · rename_i hkind
    split at he
    · cases he
      exact .inl ⟨e, List.mem_reverse.1 hmem, _, by rw [text?, hkind]; rfl, _, rfl⟩
    · cases he
  · cases he

theorem made_of_fate {id : NodeId} {new : Node} (h : fate edits id = .givesWay new) : Made edits new := by
  unfold fate at h
  cases hfound : edits.findSome? (·.fateOf? id) with
  | none =>
      rw [hfound] at h
      cases h
  | some f =>
      rw [hfound] at h
      obtain ⟨e, hmem, he⟩ := List.exists_of_findSome?_eq_some hfound
      cases h
      unfold fateOf? at he
      split at he
      · split at he <;> cases he
      · rename_i hkind
        split at he
        · cases he
          exact .inl ⟨e, hmem, _, by rw [text?, hkind]; rfl, _, rfl⟩
        · cases he
      · cases he

/-- What is left of a child is the child itself or was made. -/
theorem left_eq_some {n m : Node} (h : left edits n = some m) : m = n ∨ Made edits m := by
  unfold left at h
  split at h
  · cases h
    exact .inl rfl
  · cases h
  · rename_i hfate
    cases h
    exact .inr (made_of_fate hfate)

/-- In a place that has been changed stand children of before and nodes that were made. -/
theorem mem_nodes_refit {s : Slot Node} {m : Node} (h : m ∈ (s.refit (refit edits)).nodes) :
    Made edits m ∨ m ∈ s.nodes ∧ left edits m = some m := by
  have hleft : ∀ {n : Node}, left edits n = some m → n ∈ s.nodes →
      Made edits m ∨ m ∈ s.nodes ∧ left edits m = some m := by
    intro n hn hmem
    rcases left_eq_some hn with rfl | hmade
    · exact .inr ⟨hmem, hn⟩
    · exact .inl hmade
  cases s with
  | required field n =>
      simp only [Slot.refit, refit_required, Slot.nodes, List.mem_singleton] at h
      cases hn : left edits n with
      | none =>
          rw [hn] at h
          exact .inl (.inr ⟨_, h⟩)
      | some l =>
          rw [hn, Option.getD_some] at h
          exact hleft (h ▸ hn) List.mem_cons_self
  | optional field n =>
      simp only [Slot.refit, refit_optional, Slot.nodes, Option.mem_toList,
        Option.or_eq_some_iff] at h
      rcases h with h | ⟨-, h⟩
      · obtain ⟨n, rfl, hn⟩ := Option.bind_eq_some_iff.1 h
        exact hleft hn (Option.mem_toList.2 rfl)
      · exact .inl (made_of_mem_putIn (List.mem_of_mem_head? h))
  | list field ns =>
      simp only [Slot.refit, refit_list, Slot.nodes] at h
      rcases mem_weave h with ⟨j, hj⟩ | ⟨n, hn, hm⟩
      · exact .inl (made_of_mem_putIn hj)
      · exact hleft hm hn

/-- A child that is left stays in its place. -/
theorem mem_nodes_refit_of_left {s : Slot Node} {n : Node} (hn : n ∈ s.nodes) (h : left edits n = some n) :
    n ∈ (s.refit (refit edits)).nodes := by
  cases s with
  | required field m =>
      obtain rfl := List.mem_singleton.1 hn
      simp [Slot.refit, Slot.nodes, h]
  | optional field m =>
      obtain rfl := Option.mem_toList.1 hn
      simp [Slot.refit, Slot.nodes, h]
  | list field ns => exact mem_weave_of_left hn h

/-- An edit leaves a place alone if it puts nothing in there and is about none of the children there. -/
theorem refit_append_of_none {s : Slot Node} (hput : ∀ index, e.putIn? s.field index = none)
    (hfate : ∀ n ∈ s.nodes, e.fateOf? n.id = none) :
    s.refit (refit (edits ++ [e])) = s.refit (refit edits) := by
  have hputIn : ∀ index, putIn (edits ++ [e]) s.field index = putIn edits s.field index := by
    intro index
    rw [putIn_append, hput]
    rfl
  cases s with
  | required field n =>
      simp only [Slot.refit, refit_required]
      rw [left_append_of_none (hfate n List.mem_cons_self)]
  | optional field n =>
      simp only [Slot.refit, refit_optional]
      rw [show putIn (edits ++ [e]) field 0 = putIn edits field 0 from hputIn 0]
      cases n with
      | none => rfl
      | some n =>
          rw [Option.bind_some, Option.bind_some, left_append_of_none (hfate n List.mem_cons_self)]
  | list field ns =>
      simp only [Slot.refit, refit_list]
      congr 1
      exact weave_congr (fun j _ => hputIn j) fun n hn => left_append_of_none (hfate n hn)

section Insertion

variable {parent : NodeId} {field : String} {index : Nat} {text : String}

theorem putIn?_insert (h : e.kind = .insertChild parent field index text) (field' : String) (index' : Nat) :
    e.putIn? field' index' =
      if field = field' ∧ index = index' then some (.pasted text e.start) else none := by
  rw [putIn?, h]

theorem fateOf?_insert (h : e.kind = .insertChild parent field index text) (id : NodeId) :
    e.fateOf? id = none := by
  rw [fateOf?, h]

/-- A text put in at an index before which nothing has been done yet. -/
theorem insertion_list {ns : List Node} (h : e.kind = .insertChild parent field index text)
    (hindex : index ≤ ns.length) (hput : ∀ j < index, putIn edits field j = [])
    (hleft : ∀ n ∈ ns.take index, left edits n = some n) :
    (insertion parent field index (.pasted text e.start)).apply ((Slot.list field ns).refit (refit edits)) =
      (.ok (), (Slot.list field ns).refit (refit (edits ++ [e]))) := by
  have hlefts : ∀ n, left (edits ++ [e]) n = left edits n :=
    fun n => left_append_of_none (fateOf?_insert h n.id)
  have hputs : ∀ j, j ≠ index → putIn (edits ++ [e]) field j = putIn edits field j := by
    intro j hj
    rw [putIn_append, putIn?_insert h, if_neg (by tauto)]
    rfl
  have hthis : putIn (edits ++ [e]) field index = .pasted text e.start :: putIn edits field index := by
    rw [putIn_append, putIn?_insert h, if_pos ⟨rfl, rfl⟩]
    rfl
  have hold := weave_take (i := 0) index (fun j _ hj => hput j (by omega)) hleft hindex
  have hnew : weave (putIn (edits ++ [e]) field) (left (edits ++ [e])) 0 ns =
      ns.take index ++ weave (putIn (edits ++ [e]) field) (left (edits ++ [e])) (0 + index) (ns.drop index) :=
    weave_take index (fun j _ hj => by rw [hputs j (by omega), hput j (by omega)])
      (fun n hn => by rw [hlefts, hleft n hn]) hindex
  rw [Nat.zero_add, funext hlefts, weave_cons hthis fun j hj => hputs j (by omega)] at hnew
  rw [Nat.zero_add] at hold
  simp only [Slot.refit, refit_list, SlotEdit.apply, insertion, Prod.map_apply, id_eq]
  rw [funext hlefts, hnew, hold]
  have hlength : (ns.take index).length = index := by simp [hindex]
  have hmin : min index (ns.take index ++ weave (putIn edits field) (left edits) index (ns.drop index)).length =
      (ns.take index).length := by
    rw [List.length_append, hlength]
    omega
  rw [hmin, insertIdx_length_append]

/-- A text put in at an optional place where nothing is. -/
theorem insertion_optional (h : e.kind = .insertChild parent field 0 text) (hput : putIn edits field 0 = []) :
    (insertion parent field 0 (.pasted text e.start)).apply ((Slot.optional field none).refit (refit edits)) =
      (.ok (), (Slot.optional field none).refit (refit (edits ++ [e]))) := by
  simp only [Slot.refit, refit_optional, Option.bind_none, Option.none_or]
  rw [putIn_append, putIn?_insert h, if_pos ⟨rfl, rfl⟩, hput]
  rfl

end Insertion

section Target

variable {target : NodeId} {field : String} {new : Option Node}

/-- What becomes of a child that one more edit is about, where the edits so far are not. -/
theorem left_append_of_target {n : Node} (hfate : ∀ e ∈ edits, e.fateOf? target = none)
    (he : ∀ id, e.fateOf? id = if id = target then some (new.elim .goes .givesWay) else none) :
    left (edits ++ [e]) n = if n.id = target then new else left edits n := by
  by_cases hid : n.id = target
  · rw [← hid] at hfate
    rw [if_pos hid, left, fate_append_of_first hfate, he, if_pos hid]
    cases new <;> rfl
  · rw [if_neg hid, left_append_of_none (by rw [he, if_neg hid])]

variable {ns : List Node} {n : Node}

/-- The child is still in the list, once. -/
theorem filter_weave (field : String) (htarget : target ≠ .unassigned) (hfate : ∀ e ∈ edits, e.fateOf? target = none)
    (hnodup : (ns.map Node.id).Nodup) (hn : n ∈ ns) (hid : n.id = target) :
    (weave (putIn edits field) (left edits) 0 ns).filter (·.id == target) = [n] := by
  have hguard : ∀ m : Node, Option.guard (fun m : Node => m.id == target) m =
      if m.id = target then some m else none := by
    intro m
    by_cases hm : m.id = target <;> simp [Option.guard, hm]
  rw [← List.filterMap_eq_filter, weave_filterMap]
  have hputs : ∀ j, (putIn edits field j).filterMap (Option.guard fun m : Node => m.id == target) = [] := by
    intro j
    refine List.filterMap_eq_nil_iff.2 fun m hm => ?_
    rw [hguard, if_neg]
    rw [(made_of_mem_putIn hm).id_eq]
    exact htarget.symm
  have hlefts : ∀ m ∈ ns, (left edits m).bind (Option.guard fun m : Node => m.id == target) =
      Option.guard (fun m : Node => m.id == target) m := by
    intro m _
    by_cases hm : m.id = target
    · rw [left_eq edits m (hm ▸ hfate), Option.bind_some]
    · rw [hguard, if_neg hm]
      refine Option.bind_eq_none_iff.2 fun l hl => ?_
      rw [hguard, if_neg]
      rcases left_eq_some hl with rfl | hl
      · exact hm
      · rw [hl.id_eq]
        exact htarget.symm
  rw [weave_congr (fun j _ => hputs j) hlefts, weave_nil, List.filterMap_eq_filter]
  obtain ⟨as, bs, rfl⟩ := List.append_of_mem hn
  rw [List.map_append, List.map_cons, List.nodup_middle, hid, ← List.map_append] at hnodup
  have hothers : ∀ m ∈ as ++ bs, (m.id == target) = false := by
    intro m hm
    have hne := fun heq : m.id = target => (List.nodup_cons.1 hnodup).1 (heq ▸ List.mem_map_of_mem hm)
    simpa using hne
  have has : as.filter (·.id == target) = [] :=
    List.filter_eq_nil_iff.2 fun m hm => by simp [hothers m (List.mem_append_left _ hm)]
  have hbs : bs.filter (·.id == target) = [] :=
    List.filter_eq_nil_iff.2 fun m hm => by simp [hothers m (List.mem_append_right _ hm)]
  rw [List.filter_append, has, List.filter_cons, if_pos (by simp [hid]), hbs]
  rfl

/-- In a woven list, what becomes of one child. -/
theorem filterMap_weave (htarget : target ≠ .unassigned) (hfate : ∀ e ∈ edits, e.fateOf? target = none)
    (he : ∀ id, e.fateOf? id = if id = target then some (new.elim .goes .givesWay) else none)
    (hput : ∀ index, e.putIn? field index = none) :
    (weave (putIn edits field) (left edits) 0 ns).filterMap (fun m => if m.id = target then new else some m) =
      weave (putIn (edits ++ [e]) field) (left (edits ++ [e])) 0 ns := by
  rw [weave_filterMap]
  refine weave_congr (fun j _ => ?_) fun m _ => ?_
  · rw [putIn_append, hput, Option.toList_none, List.nil_append]
    have hsome : ∀ m ∈ putIn edits field j, (if m.id = target then new else some m) = some m := by
      intro m hm
      rw [if_neg]
      rw [(made_of_mem_putIn hm).id_eq]
      exact htarget.symm
    rw [List.filterMap_congr hsome, List.filterMap_some]
  · rw [left_append_of_target hfate he]
    by_cases hm : m.id = target
    · rw [left_eq edits m (hm ▸ hfate), Option.bind_some, if_pos hm]
    · rw [if_neg hm]
      cases hleft : left edits m with
      | none => rfl
      | some l =>
          rw [Option.bind_some, if_neg]
          rcases left_eq_some hleft with rfl | hl
          · exact hm
          · rw [hl.id_eq]
            exact htarget.symm

variable {parent : NodeId} {index : Nat} {text : String} {s : Slot Node}

theorem deletion_slot (h : e.kind = .deleteChild target parent field index)
    (htarget : target ≠ .unassigned) (hfate : ∀ e ∈ edits, e.fateOf? target = none)
    (hnodup : (s.nodes.map Node.id).Nodup) (hn : n ∈ s.nodes) (hid : n.id = target)
    (hempty : ∀ field m, s = .optional field (some m) → putIn edits field 0 = []) :
    (deletion target field).apply (s.refit (refit edits)) = (.ok (), s.refit (refit (edits ++ [e]))) := by
  have hput : ∀ field' index', e.putIn? field' index' = none := by
    intro field' index'
    rw [putIn?, h]
  have he : ∀ id, e.fateOf? id = if id = target then some ((none : Option Node).elim .goes .givesWay) else none := by
    intro id
    rw [fateOf?, h]
    simp only [eq_comm]
    rfl
  have hold : left edits n = some n := left_eq edits n (hid ▸ hfate)
  have hnew : left (edits ++ [e]) n = none := by rw [left_append_of_target hfate he, if_pos hid]
  cases s with
  | required field' m =>
      obtain rfl := List.mem_singleton.1 hn
      simp only [Slot.refit, refit_required, SlotEdit.apply, deletion]
      rw [hold, hnew, Option.getD_some, if_pos hid]
      rfl
  | optional field' m =>
      obtain rfl := Option.mem_toList.1 hn
      have hnone : putIn (edits ++ [e]) field' 0 = [] := by
        rw [putIn_append, hput, hempty field' n rfl]
        rfl
      simp only [Slot.refit, refit_optional, SlotEdit.apply, deletion, Option.bind_some]
      rw [hold, hnew, hnone, Option.some_or, Option.none_or]
      simp only [hid, if_true]
      rfl
  | list field' ns =>
      simp only [Slot.nodes] at hnodup hn
      obtain ⟨i, hfind, herase, -⟩ := change_only (filter_weave field' htarget hfate hnodup hn hid)
      simp only [Slot.refit, refit_list, SlotEdit.apply, deletion]
      rw [hfind]
      simp only [Prod.map_apply, id_eq]
      rw [herase, filterMap_weave htarget hfate he (hput field')]

theorem replacement_slot (h : e.kind = .replaceChild target parent field index text)
    (htarget : target ≠ .unassigned) (hfate : ∀ e ∈ edits, e.fateOf? target = none)
    (hnodup : (s.nodes.map Node.id).Nodup) (hn : n ∈ s.nodes) (hid : n.id = target) :
    (replacement target field (.pasted text e.start)).apply (s.refit (refit edits)) =
      (.ok (), s.refit (refit (edits ++ [e]))) := by
  have hput : ∀ field' index', e.putIn? field' index' = none := by
    intro field' index'
    rw [putIn?, h]
  have he : ∀ id, e.fateOf? id =
      if id = target then some ((some (Node.pasted text e.start)).elim .goes .givesWay) else none := by
    intro id
    rw [fateOf?, h]
    simp only [eq_comm]
    rfl
  have hold : left edits n = some n := left_eq edits n (hid ▸ hfate)
  have hnew : left (edits ++ [e]) n = some (.pasted text e.start) := by
    rw [left_append_of_target hfate he, if_pos hid]
  cases s with
  | required field' m =>
      obtain rfl := List.mem_singleton.1 hn
      simp only [Slot.refit, refit_required, SlotEdit.apply, replacement]
      rw [hold, hnew, Option.getD_some, if_pos hid]
      rfl
  | optional field' m =>
      obtain rfl := Option.mem_toList.1 hn
      simp only [Slot.refit, refit_optional, SlotEdit.apply, replacement, Option.bind_some]
      rw [hold, hnew, Option.some_or, Option.some_or]
      simp only [hid, if_true]
      rfl
  | list field' ns =>
      simp only [Slot.nodes] at hnodup hn
      obtain ⟨i, hfind, -, hset⟩ := change_only (filter_weave field' htarget hfate hnodup hn hid)
      simp only [Slot.refit, refit_list, SlotEdit.apply, replacement]
      rw [hfind]
      simp only [Prod.map_apply, id_eq]
      rw [hset, filterMap_weave htarget hfate he (hput field')]

end Target

end Edit

end TreeEdit
