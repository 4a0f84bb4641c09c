import TreeEdit.Proofs.Batches
import TreeEdit.Proofs.Commuting

/-!
# Batches in two orders

A batch is sorted latest first, and edits of one range stay in the order they came in. So two orders of a batch
differ, once sorted, only where edits have one range. What does the same one element after the other in both orders
is said once for lists (`foldl_eq_of_agree`): any two elements either come in the same order in both lists
(`AgreeOn`) or may change places.

Groups do not change this. A group that takes in others has their members behind each other, but the members that
have one anchor stay in the order of the batch (`MembersInOrder`).
-/

namespace TreeEdit

open Lexeme

/-! ## Lists in two orders -/

section Lists

variable {α β : Type}

theorem foldl_moved {f : β → α → β} {P : β → Prop} (hstep : ∀ b x, P b → P (f b x)) {u v : List α} {x : α}
    (hcomm : ∀ y ∈ u, ∀ b, P b → f (f b x) y = f (f b y) x) {b : β} (hb : P b) :
    (u ++ x :: v).foldl f b = (u ++ v).foldl f (f b x) := by
  induction u generalizing b with
  | nil => rfl
  | cons y u ih =>
      obtain ⟨hy, hu⟩ := List.forall_mem_cons.1 hcomm
      rw [List.cons_append, List.foldl_cons, ih hu (hstep b y hb), ← hy b hb]
      rfl

/-- The members of a list picked by their indices. -/
theorem filterMap_indices (P : α → Bool) (as : List α) :
    ((List.range as.length).filter fun i => as[i]?.any P).filterMap (as[·]?) = as.filter P := by
  induction as using List.reverseRecOn with
  | nil => rfl
  | append_singleton as a ih =>
      have hfront : ∀ i ∈ List.range as.length, (as ++ [a])[i]? = as[i]? := fun i hi =>
        List.getElem?_append_left (List.mem_range.1 hi)
      have hpicked : (List.range as.length).filter (fun i => (as ++ [a])[i]?.any P) =
          (List.range as.length).filter fun i => as[i]?.any P :=
        List.filter_congr fun i hi => by rw [hfront i hi]
      have hvalues : ((List.range as.length).filter fun i => as[i]?.any P).filterMap ((as ++ [a])[·]?) =
          as.filter P := by
        rw [← ih]
        exact List.filterMap_congr fun i hi => hfront i (List.mem_filter.1 hi).1
      rw [List.length_append, List.length_singleton, List.range_succ, List.filter_append, List.filter_append,
        List.filterMap_append, hpicked, hvalues]
      by_cases ha : P a <;> simp [ha]

theorem filter_filterMap_getElem? (P : α → Bool) (as : List α) (is : List Nat) :
    (is.filterMap (as[·]?)).filter P = (is.filter fun i => as[i]?.any P).filterMap (as[·]?) := by
  rw [List.filter_filterMap, List.filterMap_filter]
  refine List.filterMap_congr fun i _ => ?_
  cases as[i]? with
  | none => rfl
  | some a => by_cases ha : P a <;> simp [ha]

variable [DecidableEq α]

/-- Of these two elements the lists have the same, in the same order. -/
def AgreeOn (x y : α) (l l' : List α) : Prop :=
  l.filter (fun z => z = x ∨ z = y) = l'.filter fun z => z = x ∨ z = y

instance (x y : α) (l l' : List α) : Decidable (AgreeOn x y l l') := inferInstanceAs (Decidable (_ = _))

namespace AgreeOn

variable {x y z : α} {l l' u v : List α}

/-- What agrees with the first element does not come before it. -/
theorem not_mem_front (h : AgreeOn x y (x :: l) (u ++ x :: v)) (hx : x ∉ u) : y ∉ u := by
  intro hy
  have hne : u.filter (fun z => z = x ∨ z = y) ≠ [] := fun hnil => by
    simpa using List.filter_eq_nil_iff.1 hnil y hy
  obtain ⟨z, zs, hz⟩ := List.exists_cons_of_ne_nil hne
  have hzmem : z ∈ u.filter fun z => z = x ∨ z = y := hz ▸ List.mem_cons_self
  rw [AgreeOn, List.filter_append, hz, List.filter_cons_of_pos (by simp)] at h
  obtain ⟨rfl, -⟩ := List.cons.inj h
  exact hx (List.mem_filter.1 hzmem).1

/-- Lists that agree still agree without the first element of the one. -/
theorem tail (h : AgreeOn y z (x :: l) (u ++ x :: v)) (hx : x ∉ u) : AgreeOn y z l (u ++ v) := by
  rw [AgreeOn, List.filter_append, List.filter_cons, List.filter_cons] at h
  rw [AgreeOn, List.filter_append]
  split at h
  · cases hu : u.filter (fun w => w = y ∨ w = z) with
    | nil =>
        rw [hu] at h
        exact (List.cons.inj h).2
    | cons w ws =>
        have hwmem : w ∈ u.filter fun w => w = y ∨ w = z := hu ▸ List.mem_cons_self
        rw [hu] at h
        obtain ⟨rfl, -⟩ := List.cons.inj h
        exact absurd (List.mem_filter.1 hwmem).1 hx
  · exact h

/-- Lists agree on what they have in common by some test. -/
theorem of_filter {P : α → Bool} (hx : P x) (hy : P y) (h : l.filter P = l'.filter P) : AgreeOn x y l l' := by
  have hpick : ∀ as : List α, as.filter (fun z => z = x ∨ z = y) = (as.filter P).filter fun z => z = x ∨ z = y := by
    intro as
    rw [List.filter_filter]
    refine List.filter_congr fun z _ => ?_
    by_cases hz : z = x ∨ z = y
    · have hpz : P z := by rcases hz with rfl | rfl <;> assumption
      simp [hz, hpz]
    · simp [hz]
  rw [AgreeOn, hpick l, hpick l', h]

theorem append {r r' : List α} (h : AgreeOn x y l l') (hr : x ∉ r ∧ y ∉ r) (hr' : x ∉ r' ∧ y ∉ r') :
    AgreeOn x y (l ++ r) (l' ++ r') := by
  have hnone : ∀ {as : List α}, x ∉ as ∧ y ∉ as → as.filter (fun z => z = x ∨ z = y) = [] := by
    rintro as ⟨hx, hy⟩
    refine List.filter_eq_nil_iff.2 fun z hz => ?_
    simp only [decide_eq_true_eq]
    rintro (rfl | rfl)
    · exact hx hz
    · exact hy hz
  rw [AgreeOn, List.filter_append, List.filter_append, hnone hr, hnone hr', h]

/-- Sorted lists with the same elements agree on any two that are not tied. -/
theorem of_sorted {le : α → α → Prop} (hl : l.Pairwise le) (hl' : l'.Pairwise le) (hperm : l'.Perm l)
    (h : le x y → le y x → x = y) : AgreeOn x y l l' := by
  refine List.Perm.eq_of_pairwise ?_ (hl.filter _) (hl'.filter _) (hperm.symm.filter _)
  intro a b ha hb hab hba
  have ha := (List.mem_filter.1 ha).2
  have hb := (List.mem_filter.1 hb).2
  simp only [decide_eq_true_eq] at ha hb
  rcases ha with rfl | rfl <;> rcases hb with rfl | rfl
  · rfl
  · exact h hab hba
  · exact (h hba hab).symm
  · rfl

end AgreeOn

/-- Lists with the same elements do the same one element after the other, if any two elements that may not change
places come in the same order in both. -/
theorem foldl_eq_of_agree {f : β → α → β} {P : β → Prop} (hstep : ∀ b x, P b → P (f b x)) {l l' : List α}
    (hperm : l'.Perm l) (h : ∀ x ∈ l, ∀ y ∈ l, AgreeOn x y l l' ∨ ∀ b, P b → f (f b x) y = f (f b y) x) {b : β}
    (hb : P b) : l.foldl f b = l'.foldl f b := by
  induction l generalizing l' b with
  | nil => rw [List.perm_nil.1 hperm]
  | cons x l ih =>
      -- What stands before the first element in the other list may change places with it.
      obtain ⟨u, v, rfl, hx⟩ := List.eq_append_cons_of_mem (hperm.mem_iff.2 List.mem_cons_self)
      have hrest : (u ++ v).Perm l := (List.perm_cons x).1 (List.perm_middle.symm.trans hperm)
      have hcomm : ∀ y ∈ u, ∀ b, P b → f (f b x) y = f (f b y) x := by
        intro y hy
        refine (h x List.mem_cons_self y ?_).resolve_left fun hagree => hagree.not_mem_front hx hy
        exact List.mem_cons_of_mem _ (hrest.subset (List.mem_append_left _ hy))
      rw [foldl_moved hstep hcomm hb, List.foldl_cons]
      refine ih hrest (fun y hy z hz => ?_) (hstep b x hb)
      exact (h y (List.mem_cons_of_mem _ hy) z (List.mem_cons_of_mem _ hz)).imp_left fun hagree => hagree.tail hx

theorem filterMap_eq_of_agree {g : α → Option β} {l l' : List α} (hperm : l'.Perm l)
    (h : ∀ x ∈ l, ∀ y ∈ l, AgreeOn x y l l' ∨ ∀ a ∈ g x, ∀ b ∈ g y, a = b) : l.filterMap g = l'.filterMap g := by
  have hfold : ∀ (as : List α) (acc : List β),
      as.foldl (fun acc x => acc ++ (g x).toList) acc = acc ++ as.filterMap g := by
    intro as
    induction as with
    | nil => simp
    | cons a as ih =>
        intro acc
        rw [List.foldl_cons, ih]
        cases hga : g a <;> simp [hga]
  have hsame := foldl_eq_of_agree (f := fun acc x => acc ++ (g x).toList) (P := fun _ => True) (fun _ _ _ => trivial)
    hperm (fun x hx y hy => (h x hx y hy).imp_right fun hgs acc _ => ?_) (b := []) trivial
  · simpa only [hfold, List.nil_append] using hsame
  · cases hgx : g x with
    | none => simp
    | some a =>
        cases hgy : g y with
        | none => simp
        | some b =>
            obtain rfl := hgs a hgx b hgy
            rfl

end Lists

/-! ## Sorted batches -/

section Sorted

variable {α : Type} [DecidableEq α] (range : α → Span)

/-- Batches sorted latest first agree where they agree on ties. -/
theorem agreeOn_mergeSort {as bs : List α} (hperm : bs.Perm as) {x y : α}
    (h : range x = range y → AgreeOn x y as bs) :
    AgreeOn x y (as.mergeSort fun a b => rangeLe (range b) (range a))
      (bs.mergeSort fun a b => rangeLe (range b) (range a)) := by
  by_cases htied : range x = range y
  · have hpair : ∀ cs : List α, (cs.filter fun z => z = x ∨ z = y).Pairwise fun a b =>
        rangeLe (range b) (range a) = true := by
      intro cs
      refine List.pairwise_of_forall_mem_list fun a ha b hb => ?_
      have ha := (List.mem_filter.1 ha).2
      have hb := (List.mem_filter.1 hb).2
      simp only [decide_eq_true_eq] at ha hb
      rcases ha with rfl | rfl <;> rcases hb with rfl | rfl <;> simp [htied, rangeLe_refl]
    rw [AgreeOn, filter_mergeSort_range range as _ (hpair as), filter_mergeSort_range range bs _ (hpair bs)]
    exact h htied
  · have hsorted : ∀ cs : List α, (cs.mergeSort fun a b => rangeLe (range b) (range a)).Pairwise fun a b =>
        rangeLe (range b) (range a) = true :=
      List.pairwise_mergeSort (fun _ _ _ hab hbc => rangeLe_trans hbc hab) fun _ _ => rangeLe_total _ _
    refine .of_sorted (hsorted as) (hsorted bs) ?_ fun hxy hyx => absurd (rangeLe_antisymm hyx hxy) htied
    exact (List.mergeSort_perm bs _).trans (hperm.trans (List.mergeSort_perm as _).symm)

end Sorted

/-! ## Members of groups in order -/

/-- Members of one group that have one anchor come in the order of the batch. -/
def MembersInOrder (anchors : List (Option Node)) (groups : List EditGroup) : Prop :=
  ∀ g ∈ groups, g.members.Pairwise fun i j =>
    ∀ b : Node, anchors[i]? = some (some b) → anchors[j]? = some (some b) → i < j

namespace MembersInOrder

variable {anchors : List (Option Node)} {groups : List EditGroup} (h : MembersInOrder anchors groups)
  (hgroups : Grouped anchors groups)

include h hgroups

theorem skip (anchor : Option Node) : MembersInOrder (anchors ++ [anchor]) groups := by
  intro g hg
  refine (h g hg).imp_of_mem fun {i j} hi hj hij b hib hjb => hij b ?_ ?_
  · obtain ⟨c, hc, -⟩ := (hgroups.members g hg i).1 hi
    rwa [List.getElem?_append_left (List.getElem?_eq_some_iff.1 hc).1] at hib
  · obtain ⟨c, hc, -⟩ := (hgroups.members g hg j).1 hj
    rwa [List.getElem?_append_left (List.getElem?_eq_some_iff.1 hc).1] at hjb

omit h in
theorem member_lt {g : EditGroup} (hg : g ∈ groups) {i : Nat} (hi : i ∈ g.members) : i < anchors.length := by
  obtain ⟨b, hb, -⟩ := (hgroups.members g hg i).1 hi
  exact (List.getElem?_eq_some_iff.1 hb).1

/-- One step: the new member of a group comes last, and groups that are taken in share no anchor. -/
theorem join {anchor : Node} (hnested : Nested (anchors ++ [some anchor])) :
    MembersInOrder (anchors ++ [some anchor]) (joinGroups groups anchor anchors.length) := by
  have hold := h.skip hgroups (some anchor)
  unfold joinGroups
  split
  · rename_i i hi
    obtain ⟨hlt, -, -⟩ := List.findIdx?_eq_some_iff_getElem.1 hi
    rw [List.modify_eq_take_cons_drop hlt]
    intro g hg
    rcases List.mem_append.1 hg with hg | hg
    · exact hold g (List.mem_of_mem_take hg)
    · rcases List.mem_cons.1 hg with rfl | hg
      · have hmem : groups[i] ∈ groups := List.getElem_mem hlt
        refine List.pairwise_append.2 ⟨hold _ hmem, List.pairwise_singleton _ _, fun j hj k hk b _ _ => ?_⟩
        rw [List.mem_singleton.1 hk]
        exact member_lt hgroups hmem hj
      · exact hold g (List.mem_of_mem_drop hg)
  · rw [List.partition_eq_filter_filter]
    intro g hg
    rcases List.mem_append.1 hg with hg | hg
    · exact hold g (List.mem_of_mem_filter hg)
    · rw [List.mem_singleton.1 hg]
      refine List.pairwise_append.2 ⟨?_, List.pairwise_singleton _ _, fun j hj k hk b _ _ => ?_⟩
      · refine List.pairwise_flatMap.2 ⟨fun g hg => hold g (List.mem_of_mem_filter hg), ?_⟩
        refine (hgroups.nodup_groups.filter _).imp_of_mem fun {g g'} hg hg' hne i hi j hj b hib hjb => ?_
        -- Both groups would be around this anchor.
        have hg := List.mem_of_mem_filter hg
        have hg' := List.mem_of_mem_filter hg'
        obtain ⟨c, hc, hgc⟩ := (hgroups.members g hg i).1 hi
        obtain ⟨c', hc', hgc'⟩ := (hgroups.members g' hg' j).1 hj
        rw [List.getElem?_append_left (member_lt hgroups hg hi), hc] at hib
        rw [List.getElem?_append_left (member_lt hgroups hg' hj), hc'] at hjb
        cases hib
        cases hjb
        exact absurd (hgroups.around_unique (List.subset_append_left _ _) hnested hg hg'
          (List.mem_append_left _ (List.mem_of_getElem? hc)) hgc hgc') hne
      · rw [List.mem_singleton.1 hk]
        obtain ⟨g, hg, hj⟩ := List.mem_flatMap.1 hj
        exact member_lt hgroups (List.mem_of_mem_filter hg) hj

end MembersInOrder

/-- A batch of edits made against a tree, with their anchors, falls into these groups. -/
structure FallsInto (t : Tree) (edits : List Edit) (anchors : List (Option Node)) (groups : List EditGroup) : Prop where
  anchored : List.Forall₂ (Edit.Anchor t) edits anchors
  stands : ∀ a, some a ∈ anchors → t.Stands a
  made : groupEdits t edits = .ok groups
  grouped : Grouped anchors groups
  inOrder : MembersInOrder anchors groups

theorem exists_fallsInto {t : Tree} {doc : List Lexeme} (ht : Placed t.roots doc) {edits : List Edit}
    (hparents : ∀ e ∈ edits, ∀ parent ∈ e.parent?, parent ∈ t.ids) :
    ∃ anchors groups, FallsInto t edits anchors groups := by
  obtain ⟨anchors, hanchors, hstands⟩ := exists_anchors hparents
  obtain ⟨groups, hgroups, hgrouped, horder⟩ := groupEdits_run
    (P := fun anchors groups => Grouped anchors groups ∧ MembersInOrder anchors groups)
    ⟨⟨by simp, by simp, by simp, .nil, by simp⟩, nofun⟩
    (fun _ _ ⟨hgrouped, horder⟩ => ⟨hgrouped.skip, horder.skip hgrouped none⟩)
    (fun _ _ _ hnested ⟨hgrouped, horder⟩ => ⟨hgrouped.join hnested, horder.join hgrouped hnested⟩) hanchors
    (ht.nested hstands)
  exact ⟨anchors, groups, hanchors, hstands, hgroups, hgrouped, horder⟩

namespace FallsInto

variable {t : Tree} {edits : List Edit} {anchors : List (Option Node)} {groups : List EditGroup}
  (h : FallsInto t edits anchors groups)

include h

theorem anchor_eq {e : Edit} {i : Nat} (hi : edits[i]? = some e) {a : Option Node} (ha : e.Anchor t a) :
    anchors[i]? = some a := by
  rcases anchor_at h.anchored i with ⟨hnone, -⟩ | ⟨e', anchor, he', hanchor, hea'⟩
  · cases hi.symm.trans hnone
  · cases hi.symm.trans he'
    rw [hanchor, ha.unique hea']

theorem mem_anchors_iff {a : Option Node} : a ∈ anchors ↔ ∃ e ∈ edits, e.Anchor t a := by
  constructor
  · intro ha
    obtain ⟨i, hi⟩ := List.getElem?_of_mem ha
    rcases anchor_at h.anchored i with ⟨-, hnone⟩ | ⟨e, anchor, he, hanchor, hea⟩
    · cases hi.symm.trans hnone
    · cases hi.symm.trans hanchor
      exact ⟨e, List.mem_of_getElem? he, hea⟩
  · rintro ⟨e, he, hea⟩
    obtain ⟨i, hi⟩ := List.getElem?_of_mem he
    exact List.mem_of_getElem? (h.anchor_eq hi hea)

variable {g : EditGroup} (hg : g ∈ groups)

include hg

theorem mem_members_iff {i : Nat} :
    i ∈ g.members ↔ ∃ e b, edits[i]? = some e ∧ e.Anchor t (some b) ∧ g.range.contains b.range := by
  rw [h.grouped.members g hg]
  constructor
  · rintro ⟨b, hb, hgb⟩
    rcases anchor_at h.anchored i with ⟨-, hnone⟩ | ⟨e, anchor, he, ha, hanchor⟩
    · cases hb.symm.trans hnone
    · cases hb.symm.trans ha
      exact ⟨e, b, he, hanchor, hgb⟩
  · rintro ⟨e, b, he, hanchor, hgb⟩
    exact ⟨b, h.anchor_eq he hanchor, hgb⟩

/-- The edits of a group are those with an anchor in its range. -/
theorem members_perm [DecidablePred fun e : Edit => ∃ b, e.Anchor t (some b) ∧ g.range.contains b.range] :
    (g.members.filterMap (edits[·]?)).Perm
      (edits.filter fun e => ∃ b, e.Anchor t (some b) ∧ g.range.contains b.range) := by
  rw [← filterMap_indices]
  refine List.Perm.filterMap _
    ((List.perm_ext_iff_of_nodup (h.grouped.nodup g hg) (List.nodup_range.filter _)).2 fun i => ?_)
  rw [h.mem_members_iff hg, List.mem_filter, List.mem_range]
  cases he : edits[i]? with
  | none => simp
  | some e =>
      have hlt := (List.getElem?_eq_some_iff.1 he).1
      simp [hlt]

/-- Edits of a group that have one anchor come in the order of the batch. -/
theorem members_filter {b : Node} (hgb : g.range.contains b.range) {P : Edit → Bool}
    (hP : ∀ e : Edit, P e → e.Anchor t (some b)) : (g.members.filterMap (edits[·]?)).filter P = edits.filter P := by
  have hpicked : ∀ i, edits[i]?.any P → i < edits.length ∧ i ∈ g.members ∧ anchors[i]? = some (some b) := by
    intro i hi
    obtain ⟨e, he, hpe⟩ := (Option.any_eq_true _ _).1 hi
    have hanchor := h.anchor_eq he (hP e hpe)
    exact ⟨(List.getElem?_eq_some_iff.1 he).1, (h.grouped.members g hg i).2 ⟨b, hanchor, hgb⟩, hanchor⟩
  rw [filter_filterMap_getElem?, ← filterMap_indices P edits]
  refine congrArg _ (List.Perm.eq_of_pairwise (fun i j _ _ hij hji => absurd hij (lt_asymm hji)) ?_
    (List.pairwise_lt_range.filter _) ?_)
  · refine ((h.inOrder g hg).filter _).imp_of_mem fun {i j} hi hj hij => ?_
    exact hij b (hpicked i (List.mem_filter.1 hi).2).2.2 (hpicked j (List.mem_filter.1 hj).2).2.2
  · refine (List.perm_ext_iff_of_nodup ((h.grouped.nodup g hg).filter _) (List.nodup_range.filter _)).2 fun i => ?_
    rw [List.mem_filter, List.mem_filter, List.mem_range]
    exact and_congr_left fun hi => ⟨fun _ => (hpicked i hi).1, fun _ => (hpicked i hi).2.1⟩

end FallsInto

/-! ## What groups are printed as -/

theorem mem_of_mapM {α β ε : Type} {f : α → Except ε β} {xs : List α} {ys : List β} (h : xs.mapM f = .ok ys) {y : β} :
    y ∈ ys ↔ ∃ x ∈ xs, f x = .ok y := by
  induction xs generalizing ys with
  | nil =>
      cases h
      simp
  | cons x xs ih =>
      obtain ⟨z, zs, hz, hzs, rfl⟩ := mapM_cons_eq_ok.1 h
      simp [ih hzs, hz, eq_comm (a := y)]

namespace FallsInto

variable {t : Tree} {edits : List Edit} {anchors : List (Option Node)} {groups : List EditGroup}
  (h : FallsInto t edits anchors groups) {doc : List Lexeme} (ht : Placed t.roots doc)

include h

/-- Every group is printed, over its range. -/
theorem exists_printed (width : Nat) :
    ∃ printed, groups.mapM (fun g => (g.toTextChange t edits width).1) = .ok printed ∧
      printed.map TextChange.span = groups.map EditGroup.range :=
  exists_mapM_map_eq fun _ hg => h.grouped.exists_toTextChange h.stands hg edits width

include ht

variable {width : Nat} {printed : List TextChange}
  (hprinted : groups.mapM (fun g => (g.toTextChange t edits width).1) = .ok printed)

include hprinted

theorem printed_proper {c : TextChange} (hc : c ∈ printed) : c.span.start < c.span.stop := by
  obtain ⟨g, hg, hgc⟩ := (mem_of_mapM hprinted).1 hc
  obtain ⟨c', hc', hrange⟩ := h.grouped.exists_toTextChange h.stands hg edits width
  cases hgc.symm.trans hc'
  rw [hrange]
  exact h.grouped.range_proper ht h.stands hg

theorem nodup_printed : printed.Nodup := by
  obtain ⟨printed', hprinted', hspans⟩ := h.exists_printed width
  cases hprinted.symm.trans hprinted'
  refine List.Nodup.of_map TextChange.span ?_
  rw [hspans]
  refine List.pairwise_map.2 ((h.grouped.separate ht h.stands).imp_of_mem fun hg _ hseparate => ?_)
  exact hseparate.ne (h.grouped.range_proper ht h.stands hg)

end FallsInto

end TreeEdit
