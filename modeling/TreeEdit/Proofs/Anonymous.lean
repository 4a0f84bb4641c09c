import Mathlib.Data.List.Basic
import TreeEdit.Identity.Reconcile

/-!
# What identities leave alone

Giving identities to the nodes of a document changes nothing else about them. `Node.anonymous` takes
all identities of a node away, those of comments included; kinds, texts, comments, fingerprints and
spans stay. Each way to give out identities (fresh numbers, a whole subtree taken over, a pairing in
order) leaves the anonymous node as it was, so a reconciled tree has the anonymous roots that were
read: `reconcile_anonymous`.
-/

namespace TreeEdit

/-! ## Children under several maps -/

namespace Kind

universe u v w

variable {α : Type u} {β : Type v} {γ : Type w}

theorem mapIdx_map (f : α → β) (g : Nat → β → γ) (k : Kind α) :
    (k.map f).mapIdx g = k.mapIdx fun i c => g i (f c) := by
  have hlist : ∀ (cs : List α) (g : Nat → β → γ),
      (cs.map f).mapIdx g = cs.mapIdx fun i c => g i (f c) := by
    intro cs g
    exact List.ext_getElem (by simp) fun i _ _ => by simp
  cases k <;> simp [map, mapIdx, hlist, Function.comp_def]

/-- An indexed map followed by one that forgets what the first did. -/
theorem map_mapIdx_eq {f : Nat → α → β} {g : β → γ} {h : α → γ} {k : Kind α}
    (hfg : ∀ i, ∀ c ∈ k.children, g (f i c) = h c) : (k.mapIdx f).map g = k.map h := by
  have hlist : ∀ (cs : List α) (j : Nat → Nat), (∀ c ∈ cs, c ∈ k.children) →
      (cs.mapIdx fun i => f (j i)).map g = cs.map h := by
    intro cs j hcs
    refine List.ext_getElem (by simp) ?_
    intro i hi _
    simp only [List.length_map, List.length_mapIdx] at hi
    simp [hfg (j i) _ (hcs _ (List.getElem_mem hi))]
  cases k with
  | conditional test yes no =>
      cases no <;> simp_all [map, mapIdx, children, slots, Slot.nodes]
  | _ => simp_all [map, mapIdx, children, slots, Slot.nodes]

theorem map_mapIdx_comp (f : Nat → α → β) (g : β → γ) (k : Kind α) :
    (k.mapIdx f).map g = k.mapIdx fun i c => g (f i c) := by
  have hlist : ∀ (cs : List α) (f : Nat → α → β),
      (cs.mapIdx f).map g = cs.mapIdx fun i c => g (f i c) := by
    intro cs f
    exact List.ext_getElem (by simp) fun i _ _ => by simp
  cases k <;> simp [map, mapIdx, hlist, Function.comp_def]

end Kind

/-! ## Children in sequence -/

section Sequence

variable {σ α β γ : Type}

theorem bind_apply (x : StateM σ α) (f : α → StateM σ β) (s : σ) :
    (x >>= f) s = f (x s).1 (x s).2 := rfl

theorem pure_apply (a : α) (s : σ) : (pure a : StateM σ α) s = (a, s) := rfl

theorem map_apply (f : α → β) (x : StateM σ α) (s : σ) :
    (f <$> x) s = (f (x s).1, (x s).2) := rfl

theorem map_fst_list_mapM {f : α → StateM σ β} {g : β → γ} {h : α → γ} {cs : List α}
    (hfg : ∀ c ∈ cs, ∀ s, g (f c s).1 = h c) (s : σ) : (cs.mapM f s).1.map g = cs.map h := by
  induction cs generalizing s with
  | nil => rfl
  | cons c cs ih =>
      have htail := ih (fun d hd => hfg d (List.mem_cons_of_mem c hd)) (f c s).2
      simp only [List.mapM_cons, bind_apply, pure_apply, List.map_cons]
      rw [hfg c List.mem_cons_self, htail]

/-- An action on each child followed by a map that forgets what the action did. -/
theorem Kind.map_fst_mapM {f : α → StateM σ β} {g : β → γ} {h : α → γ} {k : Kind α}
    (hfg : ∀ c ∈ k.children, ∀ s, g (f c s).1 = h c) (s : σ) : (k.mapM f s).1.map g = k.map h := by
  have hlist : ∀ (cs : List α), (∀ c ∈ cs, c ∈ k.children) → ∀ s,
      (cs.mapM f s).1.map g = cs.map h :=
    fun cs hcs s => map_fst_list_mapM (fun c hc => hfg c (hcs c hc)) s
  cases k with
  | conditional test yes no =>
      cases no <;> simp_all [mapM, map, children, slots, Slot.nodes, bind_apply, map_apply]
  | _ => simp_all [mapM, map, children, slots, Slot.nodes, bind_apply, map_apply, pure_apply]

theorem Kind.mapM_map {δ : Type} (f : α → β) (g : β → StateM σ δ) (k : Kind α) :
    (k.map f).mapM g = k.mapM fun c => g (f c) := by
  cases k with
  | conditional test yes no => cases no <;> simp [mapM, map]
  | _ => simp [mapM, map, List.mapM_map, Function.comp_def]

end Sequence

/-! ## Nodes without identities -/

/-- A comment without its identity. -/
def Comment.anonymous (c : Comment) : Comment := { c with id := .unassigned }

/-- A node without the identities in it; all else is kept. -/
def Node.anonymous (n : Node) : Node :=
  n.fold fun n below =>
    { n with id := .unassigned, kind := below, comment := n.comment.map Comment.anonymous }

theorem Node.anonymous_eq (n : Node) :
    n.anonymous = { n with
      id := .unassigned
      kind := n.kind.map Node.anonymous
      comment := n.comment.map Comment.anonymous } := by
  rw [anonymous, fold_eq]
  rfl

namespace Identity

theorem numberFresh_eq (n : Node) :
    numberFresh n = (do
      let id ← IdSource.fresh
      let comment ← n.comment.mapM fun c => return { c with id := ← IdSource.fresh }
      let kind ← n.kind.mapM numberFresh
      return { n with id := id, comment := comment, kind := kind }) := by
  rw [numberFresh, Node.fold_eq]
  simp only [Kind.mapM_map]
  rfl

theorem takeIds_none (n : Node) : takeIds n none = n := by
  rw [takeIds, Node.fold_eq]

theorem takeIds_some (n o : Node) :
    takeIds n (some o) = { n with
      id := o.id
      comment := inheritComment o.comment n.comment
      kind := n.kind.mapIdx fun i c => takeIds c o.children[i]? } := by
  rw [takeIds, Node.fold_eq]
  simp only [Kind.mapIdx_map]
  rfl

theorem inherit_fresh (n : Node) : (inherit n .fresh).1 = n := by
  rw [inherit, Node.fold_eq]

theorem inherit_whole (n o : Node) : (inherit n (.whole o)).1 = takeIds n (some o) := by
  rw [inherit, Node.fold_eq]

theorem inherit_paired (n o : Node) :
    (inherit n (.paired o)).1 = { n with
      id := o.id
      comment := inheritComment o.comment n.comment
      kind := n.kind.mapIdx fun i c =>
        (inherit c ((partners o.children (n.children.map Node.hash)).getD i .fresh)).1 } := by
  rw [inherit, Node.fold_eq]
  simp only [Kind.mapIdx_map]
  congr 1
  exact Kind.map_mapIdx_comp _ _ _

/-! ## Identities given out -/

theorem inheritComment_anonymous (old new : Option Comment) :
    (inheritComment old new).map Comment.anonymous = new.map Comment.anonymous := by
  cases old <;> cases new <;> rfl

theorem numberFresh_anonymous (n : Node) (s : IdSource) :
    (numberFresh n s).1.anonymous = n.anonymous := by
  induction n using Node.induct generalizing s with
  | step n ih =>
      have hkind := Kind.map_fst_mapM (f := numberFresh) (g := Node.anonymous) (h := Node.anonymous) ih
      rw [numberFresh_eq]
      simp only [bind_apply, pure_apply]
      rw [Node.anonymous_eq, Node.anonymous_eq n, hkind]
      cases n.comment <;> rfl

theorem takeIds_anonymous (n : Node) (old : Option Node) :
    (takeIds n old).anonymous = n.anonymous := by
  induction n using Node.induct generalizing old with
  | step n ih =>
      cases old with
      | none => rw [takeIds_none]
      | some o =>
          rw [takeIds_some, Node.anonymous_eq, Node.anonymous_eq n]
          simp only [inheritComment_anonymous]
          rw [Kind.map_mapIdx_eq fun i c hc => ih c hc _]

theorem inherit_anonymous (n : Node) (p : Partner) : (inherit n p).1.anonymous = n.anonymous := by
  induction n using Node.induct generalizing p with
  | step n ih =>
      cases p with
      | fresh => rw [inherit_fresh]
      | whole o => rw [inherit_whole, takeIds_anonymous]
      | paired o =>
          rw [inherit_paired, Node.anonymous_eq, Node.anonymous_eq n]
          simp only [inheritComment_anonymous]
          rw [Kind.map_mapIdx_eq fun i c hc => ih c hc _]

theorem takeWhole_length (old : List Node) (hashes : List UInt64) :
    (takeWhole old hashes).1.length = hashes.length := by
  induction hashes generalizing old with
  | nil => rfl
  | cons hash rest ih =>
      rw [takeWhole]
      cases takeFirst hash old with
      | none => simp [ih]
      | some found => simp [ih]

theorem pairLeft_length (taken : List (Option Node)) (left : List Node) :
    (pairLeft taken left).length = taken.length := by
  fun_induction pairLeft taken left <;> simp_all

theorem partners_length (old : List Node) (hashes : List UInt64) :
    (partners old hashes).length = hashes.length := by
  rw [partners, pairLeft_length, takeWhole_length]

theorem inheritAll_anonymous (old new : List Node) :
    (inheritAll old new).1.map Node.anonymous = new.map Node.anonymous := by
  have hlen : (partners old (new.map Node.hash)).length = new.length := by
    rw [partners_length, List.length_map]
  simp only [inheritAll]
  refine List.ext_getElem (by simp [hlen]) ?_
  intro i _ _
  simp [inherit_anonymous]

end Identity

open Identity in
/-- A reconciled tree has the roots that were read, but for their identities. -/
theorem reconcile_anonymous (old : Tree) (roots : List Node) (ids : IdSource) :
    (reconcile old roots ids).1.roots.map Node.anonymous = roots.map Node.anonymous := by
  have hroots : (reconcile old roots ids).1.roots =
      (inheritAll old.roots (roots.mapM numberFresh (old.roots.foldl reserveNode ids)).1).1 := rfl
  rw [hroots, inheritAll_anonymous]
  exact map_fst_list_mapM (fun n _ s => numberFresh_anonymous n s) _

end TreeEdit
