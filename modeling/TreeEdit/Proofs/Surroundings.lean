import Mathlib
import TreeEdit.Proofs.Collisions
import TreeEdit.Proofs.Lineage
import TreeEdit.Proofs.Refocus

/-!
# Identities around one place

Two forests may differ below one place only: beside the way down to it all siblings are structurally equal
(`Forest.DifferOnlyAt`). Whether the nodes on the way keep their identities is then decided level by level,
by fingerprints alone. Either the node on the way kept its fingerprint, and all siblings are twins in their
old places, or it is the one sibling left over on each side, provided that no later sibling looks like the
old or like the new node (`Forest.Settles`). Where each node on the way looks like none of its siblings,
both before and after, this is so at every level.

Main statement: `localized_edit_keeps_identities`. Everything outside the place keeps its identity.
-/

namespace TreeEdit

/-! ## Forests that differ at one place -/

theorem Node.at?_bare (n : Node) (path : Path) : n.bare.at? path = (n.at? path).map Node.bare := by
  refine Node.at?_map (fun n => ?_) n path
  rw [Node.children, Node.children, bare_kind, Kind.children_map]

/-- Structurally equal nodes have the same places below them. -/
theorem Node.isSome_at?_of_bare {a b : Node} (h : a.bare = b.bare) (path : Path) :
    (a.at? path).isSome = (b.at? path).isSome := by
  rw [← Option.isSome_map (f := Node.bare), ← at?_bare, h, at?_bare, Option.isSome_map]

/-- Identities have no part in fingerprints. -/
theorem Node.Stamped.of_anonymous {n n' : Node} (hn : n.Stamped) (h : n.anonymous = n'.anonymous) :
    n'.Stamped := by
  induction hn generalizing n' with
  | @intro n hash comment _ ih =>
      have hchildren : ∀ m' ∈ n'.children, m'.Stamped := by
        intro m' hm'
        have hmem : m'.anonymous ∈ n.children.map Node.anonymous := by
          rw [children_of_anonymous h]
          exact List.mem_map_of_mem hm'
        obtain ⟨m, hm, hsame⟩ := List.mem_map.1 hmem
        exact ih m hm hsame
      rw [anonymous_eq, anonymous_eq n', Node.mk.injEq] at h
      obtain ⟨-, -, hhash, hkind, hcomment⟩ := h
      have hkinds : n.kind.map Node.hash = n'.kind.map Node.hash := by
        have hmap := congrArg (Kind.map Node.hash) hkind
        simpa only [Kind.map_map, Function.comp_def, hash_anonymous] using hmap
      have hhashes : n.comment.map Comment.hash = n'.comment.map Comment.hash := by
        have hmap := congrArg (Option.map Comment.hash) hcomment
        simpa only [Option.map_map, Function.comp_def, Comment.anonymous] using hmap
      refine .intro ?_ ?_ hchildren
      · rw [← hhash, hash, Kind.fingerprint, Kind.fingerprint, hkinds, hhashes]
      · intro c' hc'
        rw [Option.mem_def] at hc'
        rw [hc', Option.map_some] at hcomment
        obtain ⟨c, hc, hsame⟩ := Option.map_eq_some_iff.1 hcomment
        have hstamp := comment c hc
        rw [Comment.anonymous, Comment.anonymous, Comment.mk.injEq] at hsame
        rw [← hsame.2.2.2, ← hsame.2.1, hstamp]

theorem Node.stamped_of_anonymous {ns ns' : List Node} (h : ns.map Node.anonymous = ns'.map Node.anonymous)
    (hns : ∀ n ∈ ns, n.Stamped) : ∀ n ∈ ns', n.Stamped := by
  intro n' hn'
  have hmem : n'.anonymous ∈ ns.map Node.anonymous := h ▸ List.mem_map_of_mem hn'
  obtain ⟨n, hn, hsame⟩ := List.mem_map.1 hmem
  exact (hns n hn).of_anonymous hsame

namespace Forest

/-- At every level on the way down a path the siblings beside the way are structurally equal, so there are
equally many of them. What stands at the end of the path is left open. -/
def DifferOnlyAt : Path → List Node → List Node → Prop
  | [], _, _ => True
  | i :: path, old, new =>
    ∃ o n, old[i]? = some o ∧ new[i]? = some n ∧
      (∀ j, j ≠ i → old[j]?.map Node.bare = new[j]?.map Node.bare) ∧
      DifferOnlyAt path o.children n.children

/-- The nodes on the way down a path have fingerprints that none of their siblings has. -/
def Apart : Path → List Node → Prop
  | [], _ => True
  | i :: path, ns =>
    ∀ n ∈ ns[i]?, (∀ m ∈ ns.eraseIdx i, m.hash ≠ n.hash) ∧ Apart path n.children

instance decidableApart : ∀ (p : Path) (ns : List Node), Decidable (Apart p ns)
  | [], _ => isTrue trivial
  | i :: path, ns =>
    have := fun n : Node => decidableApart path n.children
    inferInstanceAs (Decidable (∀ n ∈ ns[i]?, (∀ m ∈ ns.eraseIdx i, m.hash ≠ n.hash) ∧ Apart path n.children))

/-- On the way down a path, as far as the fingerprints of the two nodes differ, no later sibling has one
of the two. -/
def Settles : Path → List Node → List Node → Prop
  | [], _, _ => True
  | i :: path, old, new =>
    ∀ o n, old[i]? = some o → new[i]? = some n → o.hash = n.hash ∨
      (∀ m ∈ old.drop (i + 1), m.hash ≠ o.hash ∧ m.hash ≠ n.hash) ∧ Settles path o.children n.children

/-- Outside what may differ, both forests have the same places. -/
theorem DifferOnlyAt.isSome_at? {p q : Path} {old new : List Node} (h : DifferOnlyAt p old new)
    (hq : p <+: q → q = p) : (at? new q).isSome = (at? old q).isSome := by
  induction p generalizing old new q with
  | nil => rw [hq List.nil_prefix, at?_nil, at?_nil]
  | cons i p ih =>
      obtain ⟨o, n, ho, hn, hbeside, hbelow⟩ := h
      cases q with
      | nil => rfl
      | cons j q =>
          rw [at?_cons, at?_cons]
          by_cases hj : j = i
          · subst hj
            rw [ho, hn]
            cases q with
            | nil => rfl
            | cons k q =>
                have hinner : p <+: k :: q → k :: q = p := fun hp =>
                  (List.cons.inj (hq ((List.prefix_cons_inj j).2 hp))).2
                exact ih hbelow hinner
          · have hsame := hbeside j hj
            cases hold : old[j]? with
            | none =>
                rw [hold, Option.map_none, eq_comm, Option.map_eq_none_iff] at hsame
                rw [hsame]
            | some m =>
                rw [hold, Option.map_some, eq_comm] at hsame
                obtain ⟨m', hm', hbare⟩ := Option.map_eq_some_iff.1 hsame
                rw [hm']
                exact Node.isSome_at?_of_bare hbare q

/-- Identities have no part in it. -/
theorem DifferOnlyAt.of_anonymous {p : Path} {old new new' : List Node} (h : DifferOnlyAt p old new)
    (hnew : new.map Node.anonymous = new'.map Node.anonymous) : DifferOnlyAt p old new' := by
  induction p generalizing old new new' with
  | nil => trivial
  | cons i p ih =>
      obtain ⟨o, n, ho, hn, hbeside, hbelow⟩ := h
      obtain ⟨n', hn', hsame⟩ := Node.exists_getElem?_of_anonymous hnew hn
      refine ⟨o, n', ho, hn', ?_, ih hbelow (Node.children_of_anonymous hsame)⟩
      intro j hj
      have hbares := congrArg (·[j]?) (map_eq_of_anonymous Node.bare_anonymous hnew)
      simp only [List.getElem?_map] at hbares
      rw [hbeside j hj, hbares]

theorem Settles.of_anonymous {p : Path} {old new new' : List Node} (h : Settles p old new)
    (hnew : new.map Node.anonymous = new'.map Node.anonymous) : Settles p old new' := by
  induction p generalizing old new new' with
  | nil => trivial
  | cons i p ih =>
      intro o n' ho hn'
      obtain ⟨n, hn, hsame⟩ := Node.exists_getElem?_of_anonymous hnew.symm hn'
      have hhash : n'.hash = n.hash := by rw [← Node.hash_anonymous, hsame, Node.hash_anonymous]
      rw [hhash]
      rcases h o n ho hn with heq | ⟨hlater, hbelow⟩
      · exact .inl heq
      · exact .inr ⟨hlater, ih hbelow (Node.children_of_anonymous hsame.symm)⟩

/-- Siblings set apart from all others settle. -/
theorem Settles.of_apart {p : Path} {old new : List Node} (hdiff : DifferOnlyAt p old new)
    (hold : ∀ n ∈ old, n.Stamped) (hnew : ∀ n ∈ new, n.Stamped) (hapart : Apart p old)
    (hapart' : Apart p new) : Settles p old new := by
  induction p generalizing old new with
  | nil => trivial
  | cons i p ih =>
      obtain ⟨o, n, ho, hn, hbeside, hbelow⟩ := hdiff
      obtain ⟨hothers, hway⟩ := hapart o ho
      obtain ⟨hothers', hway'⟩ := hapart' n hn
      have hinner := ih hbelow (fun m hm => (hold o (List.mem_of_getElem? ho)).child hm)
        (fun m hm => (hnew n (List.mem_of_getElem? hn)).child hm) hway hway'
      rintro o' n' ho' hn'
      obtain rfl := Option.some.inj (ho.symm.trans ho')
      obtain rfl := Option.some.inj (hn.symm.trans hn')
      refine .inr ⟨fun m hm => ?_, hinner⟩
      have hsibling : ∀ {ns : List Node} {c : Node}, c ∈ ns.drop (i + 1) → c ∈ ns.eraseIdx i := by
        intro ns c hc
        rw [List.eraseIdx_eq_take_drop_succ]
        exact List.mem_append_right _ hc
      obtain ⟨k, hk⟩ := List.getElem?_of_mem hm
      rw [List.getElem?_drop] at hk
      -- The sibling stands on the new side too, with the same fingerprint.
      have hsame := hbeside (i + 1 + k) (by omega)
      rw [hk, Option.map_some, eq_comm] at hsame
      obtain ⟨m', hm', hbare⟩ := Option.map_eq_some_iff.1 hsame
      have hhash : m'.hash = m.hash := (hnew m' (List.mem_of_getElem? hm')).hash_eq_of_bare
        (hold m (List.mem_of_getElem? hk)) hbare
      rw [← List.getElem?_drop] at hm'
      refine ⟨hothers m (hsibling hm), ?_⟩
      rw [← hhash]
      exact hothers' m' (hsibling (List.mem_of_getElem? hm'))

/-- The fingerprints of the siblings differ at most at the place on the way. -/
theorem DifferOnlyAt.map_hash {i : Nat} {p : Path} {old new : List Node} {n : Node}
    (h : DifferOnlyAt (i :: p) old new) (hold : ∀ n ∈ old, n.Stamped) (hnew : ∀ n ∈ new, n.Stamped)
    (hn : new[i]? = some n) : new.map Node.hash = (old.map Node.hash).set i n.hash := by
  obtain ⟨o, n', ho, hn', hbeside, -⟩ := h
  obtain rfl := Option.some.inj (hn'.symm.trans hn)
  apply List.ext_getElem?
  intro j
  rw [List.getElem?_map, List.getElem?_set, List.length_map]
  by_cases hj : i = j
  · subst hj
    rw [if_pos rfl, if_pos (List.getElem?_eq_some_iff.1 ho).1, hn]
    rfl
  · rw [if_neg hj, List.getElem?_map]
    have hsame := hbeside j (Ne.symm hj)
    cases hm : old[j]? with
    | none =>
        rw [hm, Option.map_none, eq_comm, Option.map_eq_none_iff] at hsame
        rw [hsame]
    | some m =>
        rw [hm, Option.map_some, eq_comm] at hsame
        obtain ⟨m', hm', hbare⟩ := Option.map_eq_some_iff.1 hsame
        rw [hm', Option.map_some, Option.map_some, (hnew m' (List.mem_of_getElem? hm')).hash_eq_of_bare
          (hold m (List.mem_of_getElem? hm)) hbare]

end Forest

namespace Identity

/-! ## One fingerprint exchanged among siblings -/

section Exchange

variable {a : List UInt64} {i : Nat} {x y : UInt64}

/-- A place beside the exchange is its own twin, unless it comes later and looks like the old or the new. -/
theorem twin_set {j : Nat} {z : UInt64} (hi : a[i]? = some x) (hj : a[j]? = some z) (hji : j ≠ i)
    (hlater : i < j → z ≠ x ∧ z ≠ y) : Twin a (a.set i y) j j := by
  refine ⟨z, hj, by rw [List.getElem?_set_ne hji.symm, hj], ?_⟩
  rw [List.take_set]
  rcases Nat.lt_or_gt_of_ne hji with hlt | hgt
  · rw [List.set_eq_of_length_le (by simp; omega)]
  · obtain ⟨hzx, hzy⟩ := hlater hgt
    obtain ⟨hlen, hx⟩ := List.getElem?_eq_some_iff.1 hi
    have hlt : i < (a.take j).length := by
      rw [List.length_take]
      omega
    rw [List.count_set hlt, List.getElem_take, hx]
    simp [Ne.symm hzx, Ne.symm hzy]

/-- Where one fingerprint is exchanged, the last place with it is left over, and no other place. -/
theorem mem_spares_set_iff {k : Nat} (hi : a[i]? = some x) (hne : x ≠ y) :
    k ∈ spares a (a.set i y) ↔ a[k]? = some x ∧ x ∉ a.drop (k + 1) := by
  obtain ⟨hlen, hx⟩ := List.getElem?_eq_some_iff.1 hi
  have hcount : ∀ z, a[k]? = some z →
      a.count z = (a.take k).count z + 1 + (a.drop (k + 1)).count z := by
    intro z hz
    conv_lhs => rw [← List.take_append_drop (k + 1) a]
    rw [List.count_append, List.take_add_one, hz, List.count_append]
    simp
  rw [mem_spares_iff]
  constructor
  · rintro ⟨z, hz, hle⟩
    have hall := hcount z hz
    rw [List.count_set hlen, hx] at hle
    -- Only of the fingerprint that was given up there are fewer now.
    have hzx : x = z := by
      by_contra hother
      simp only [beq_iff_eq, hother, if_false] at hle
      omega
    subst hzx
    simp only [beq_self_eq_true, beq_iff_eq, Ne.symm hne, if_true, if_false] at hle
    refine ⟨hz, List.count_eq_zero.1 ?_⟩
    omega
  · rintro ⟨hk, hlast⟩
    have hall := hcount x hk
    rw [List.count_eq_zero_of_not_mem hlast] at hall
    refine ⟨x, hk, ?_⟩
    rw [List.count_set hlen, hx]
    simp only [beq_self_eq_true, beq_iff_eq, Ne.symm hne, if_true, if_false]
    omega

theorem spares_set (hi : a[i]? = some x) (hne : x ≠ y) (hlast : x ∉ a.drop (i + 1)) :
    spares a (a.set i y) = [i] := by
  have honly : ∀ k, k ∈ spares a (a.set i y) ↔ k ∈ [i] := by
    intro k
    rw [mem_spares_set_iff hi hne, List.mem_singleton]
    constructor
    · rintro ⟨hk, hklast⟩
      have hlate : ∀ {m n : Nat}, a[n]? = some x → x ∉ a.drop (m + 1) → ¬ m < n := by
        intro m n hn hm hlt
        refine hm (List.mem_of_getElem? (i := n - (m + 1)) ?_)
        rw [List.getElem?_drop, show m + 1 + (n - (m + 1)) = n by omega, hn]
      exact Nat.le_antisymm (Nat.not_lt.1 (hlate hk hlast)) (Nat.not_lt.1 (hlate hi hklast))
    · rintro rfl
      exact ⟨hi, hlast⟩
  exact List.perm_singleton.1 ((List.perm_ext_iff_of_nodup (spares_nodup _ _) (List.nodup_singleton i)).2 honly)

/-- The place of an exchange is paired with itself exactly if no later place looks like the old or the
new. -/
theorem residual_set_iff {b : List UInt64} (hb : b = a.set i y) (hi : a[i]? = some x) (hne : x ≠ y) :
    Residual a b i i ↔ x ∉ a.drop (i + 1) ∧ y ∉ a.drop (i + 1) := by
  obtain ⟨hlen, hx⟩ := List.getElem?_eq_some_iff.1 hi
  -- Seen from the other side, the old one was put in the place of the new one.
  have hi' : b[i]? = some y := by rw [hb, List.getElem?_set_self hlen]
  have hback : b.set i x = a := by rw [hb, List.set_set, ← hx, List.set_getElem_self]
  have hdrop : b.drop (i + 1) = a.drop (i + 1) := by rw [hb, List.drop_set_of_lt (Nat.lt_succ_self i)]
  have hspares : spares b a = spares b (b.set i x) := by rw [hback]
  constructor
  · rintro ⟨k, hold, hnew⟩
    rw [hb] at hold
    rw [hspares] at hnew
    refine ⟨((mem_spares_set_iff hi hne).1 (List.mem_of_getElem? hold)).2, ?_⟩
    rw [← hdrop]
    exact ((mem_spares_set_iff hi' hne.symm).1 (List.mem_of_getElem? hnew)).2
  · rintro ⟨hold, hnew⟩
    rw [← hdrop] at hnew
    refine ⟨0, ?_, ?_⟩
    · rw [hb, spares_set hi hne hold]
      rfl
    · rw [hspares, spares_set hi' hne.symm hnew]
      rfl

theorem pairs_set {b : List UInt64} (hb : b = a.set i y) (hi : a[i]? = some x) (hne : x ≠ y)
    (hlast : y ∉ a.drop (i + 1)) : Pairs a b := by
  obtain ⟨hlen, hx⟩ := List.getElem?_eq_some_iff.1 hi
  have hi' : b[i]? = some y := by rw [hb, List.getElem?_set_self hlen]
  have hback : b.set i x = a := by rw [hb, List.set_set, ← hx, List.set_getElem_self]
  rw [← List.drop_set_of_lt (a := y) (Nat.lt_succ_self i), ← hb] at hlast
  right
  rw [← hback, spares_set hi' hne.symm hlast]
  exact le_rfl

end Exchange

/-! ## Identities outside the place -/

theorem inheritAll_getElem {old new : List Node} {j : Nat} {n : Node} {partner : Partner} (hn : new[j]? = some n)
    (hpartner : (partners old (new.map Node.hash))[j]? = some partner) :
    (inheritAll old new).1[j]? = some (inherit n partner).1 := by
  simp only [inheritAll, List.map_zipWith, List.getElem?_zipWith_eq_some]
  exact ⟨n, partner, hn, hpartner, rfl⟩

/-- A sibling that is its own twin keeps the identities at the places that stood below it before. -/
theorem inheritAll_map_id_of_twin {old new : List Node} {j : Nat} {path : Path} {o n : Node}
    (htwin : Twin (old.map Node.hash) (new.map Node.hash) j j) (ho : old[j]? = some o) (hn : new[j]? = some n)
    (hsome : (n.at? path).isSome = (o.at? path).isSome) :
    (Forest.at? (inheritAll old new).1 (j :: path)).map Node.id = (o.at? path).map Node.id := by
  rw [Forest.at?_cons, inheritAll_getElem hn (partners_whole_iff.2 ⟨j, ho, htwin⟩), Option.bind_some,
    inherit_whole]
  have hsame : ((takeIds n (some o)).at? path).isSome = (o.at? path).isSome := by
    rw [← Option.isSome_map (f := Node.anonymous), ← Node.at?_anonymous, takeIds_anonymous, Node.at?_anonymous,
      Option.isSome_map, hsome]
  cases hr : (takeIds n (some o)).at? path with
  | none =>
      rw [hr, Option.isSome_none, eq_comm, Option.isSome_eq_false_iff, Option.isNone_iff_eq_none] at hsame
      rw [hsame]
  | some r =>
      rw [hr, Option.isSome_some, eq_comm] at hsame
      obtain ⟨d, hd⟩ := Option.isSome_iff_exists.1 hsame
      rw [hd, Option.map_some, Option.map_some, (takeIds_carries n o path r d hr hd).1]

/-- On a way that settles, a sibling is its own twin if it stands beside the way or the node on the way kept
its fingerprint. -/
theorem twin_of_settles {i j : Nat} {p : Path} {old new : List Node} {o n m : Node}
    (hdiff : Forest.DifferOnlyAt (i :: p) old new) (hsettles : Forest.Settles (i :: p) old new)
    (hold : ∀ n ∈ old, n.Stamped) (hnew : ∀ n ∈ new, n.Stamped) (ho : old[i]? = some o) (hn : new[i]? = some n)
    (hm : old[j]? = some m) (hside : o.hash = n.hash ∨ j ≠ i) :
    Twin (old.map Node.hash) (new.map Node.hash) j j := by
  have ho' : (old.map Node.hash)[i]? = some o.hash := by rw [List.getElem?_map, ho, Option.map_some]
  have hm' : (old.map Node.hash)[j]? = some m.hash := by rw [List.getElem?_map, hm, Option.map_some]
  rw [hdiff.map_hash hold hnew hn]
  by_cases hkept : o.hash = n.hash
  · have hset : (old.map Node.hash).set i n.hash = old.map Node.hash := by
      obtain ⟨hlen, hget⟩ := List.getElem?_eq_some_iff.1 ho'
      rw [← hkept, ← hget, List.set_getElem_self]
    rw [hset]
    exact ⟨m.hash, hm', hm', rfl⟩
  · have hji : j ≠ i := hside.resolve_left hkept
    obtain ⟨hlater, -⟩ := (hsettles o n ho hn).resolve_left hkept
    apply twin_set ho' hm' hji
    intro hlt
    apply hlater m
    refine List.mem_of_getElem? (i := j - (i + 1)) ?_
    rw [List.getElem?_drop, show i + 1 + (j - (i + 1)) = j by omega, hm]

/-- On a way that settles, a node on the way with another fingerprint is paired with the old one. -/
theorem paired_of_settles {i : Nat} {p : Path} {old new : List Node} {o n : Node}
    (hdiff : Forest.DifferOnlyAt (i :: p) old new) (hsettles : Forest.Settles (i :: p) old new)
    (hold : ∀ n ∈ old, n.Stamped) (hnew : ∀ n ∈ new, n.Stamped) (ho : old[i]? = some o) (hn : new[i]? = some n)
    (hchanged : o.hash ≠ n.hash) : (partners old (new.map Node.hash))[i]? = some (.paired o) := by
  have ho' : (old.map Node.hash)[i]? = some o.hash := by rw [List.getElem?_map, ho, Option.map_some]
  have hset := hdiff.map_hash hold hnew hn
  obtain ⟨hlater, -⟩ := (hsettles o n ho hn).resolve_left hchanged
  have hlast : o.hash ∉ (old.map Node.hash).drop (i + 1) ∧ n.hash ∉ (old.map Node.hash).drop (i + 1) := by
    rw [← List.map_drop]
    refine ⟨fun hmem => ?_, fun hmem => ?_⟩
    · obtain ⟨m, hm, heq⟩ := List.mem_map.1 hmem
      exact (hlater m hm).1 heq
    · obtain ⟨m, hm, heq⟩ := List.mem_map.1 hmem
      exact (hlater m hm).2 heq
  apply partners_paired_iff.2
  exact ⟨pairs_set hset ho' hchanged hlast.2, i, ho, (residual_set_iff hset ho' hchanged).2 hlast⟩

/-- Where the way settles, everything outside the place at its end has the identity that stood there. -/
theorem inheritAll_map_id {p q : Path} {old new : List Node} (hdiff : Forest.DifferOnlyAt p old new)
    (hsettles : Forest.Settles p old new) (hold : ∀ n ∈ old, n.Stamped) (hnew : ∀ n ∈ new, n.Stamped)
    (hq : p <+: q → q = p) :
    (Forest.at? (inheritAll old new).1 q).map Node.id = (Forest.at? old q).map Node.id := by
  induction p generalizing old new q with
  | nil => rw [hq List.nil_prefix, Forest.at?_nil, Forest.at?_nil]
  | cons i p ih =>
      obtain ⟨o, n, ho, hn, hbeside, hbelow⟩ := id hdiff
      have hlen : new.length = old.length := by simpa using congrArg List.length (hdiff.map_hash hold hnew hn)
      cases q with
      | nil => rfl
      | cons j q =>
          rw [Forest.at?_cons old]
          cases hm : old[j]? with
          | none =>
              have hnone : (inheritAll old new).1[j]? = none := by
                have hlen' := congrArg List.length (map_hash_inheritAll old new)
                rw [List.length_map, List.length_map] at hlen'
                rw [List.getElem?_eq_none_iff] at hm ⊢
                omega
              rw [Forest.at?_cons, hnone]
          | some m =>
              rw [Option.bind_some]
              by_cases hside : o.hash = n.hash ∨ j ≠ i
              · have hlt : j < new.length := by
                  rw [hlen]
                  exact (List.getElem?_eq_some_iff.1 hm).1
                have hsome := hdiff.isSome_at? hq
                rw [Forest.at?_cons, Forest.at?_cons, hm, List.getElem?_eq_getElem hlt] at hsome
                exact inheritAll_map_id_of_twin (twin_of_settles hdiff hsettles hold hnew ho hn hm hside) hm
                  (List.getElem?_eq_getElem hlt) hsome
              · rw [not_or, not_not] at hside
                obtain ⟨hchanged, rfl⟩ := hside
                obtain rfl := Option.some.inj (ho.symm.trans hm)
                rw [Forest.at?_cons, inheritAll_getElem hn
                  (paired_of_settles hdiff hsettles hold hnew ho hn hchanged), Option.bind_some]
                cases q with
                | nil => simp [inherit_paired]
                | cons k q =>
                    obtain ⟨-, hinner⟩ := (hsettles o n ho hn).resolve_left hchanged
                    rw [Node.at?_eq_children _ (List.cons_ne_nil k q), children_inherit_paired]
                    refine ih hbelow hinner (fun c hc => (hold o (List.mem_of_getElem? ho)).child hc)
                      (fun c hc => (hnew n (List.mem_of_getElem? hn)).child hc) fun hp => ?_
                    exact (List.cons.inj (hq ((List.prefix_cons_inj j).2 hp))).2

/-- If a place on the way continues itself, the way settles. -/
theorem Kin.settles {p : Path} {old new : List Node} (hkin : Kin old new p p)
    (hdiff : Forest.DifferOnlyAt p old new) (hold : ∀ n ∈ old, n.Stamped) (hnew : ∀ n ∈ new, n.Stamped) :
    Forest.Settles p old new := by
  induction p generalizing old new with
  | nil => trivial
  | cons i p ih =>
      intro o n ho hn
      have ho' : (old.map Node.hash)[i]? = some o.hash := by rw [List.getElem?_map, ho, Option.map_some]
      have hset := hdiff.map_hash hold hnew hn
      obtain ⟨o', n', ho₁, hn₁, -, hbelow⟩ := hdiff
      obtain rfl := Option.some.inj (ho₁.symm.trans ho)
      obtain rfl := Option.some.inj (hn₁.symm.trans hn)
      by_cases hchanged : o'.hash = n'.hash
      · exact .inl hchanged
      · have hlater : Residual (old.map Node.hash) (new.map Node.hash) i i →
            ∀ m ∈ old.drop (i + 1), m.hash ≠ o'.hash ∧ m.hash ≠ n'.hash := by
          intro hres m hm
          have hmem : m.hash ∈ (old.map Node.hash).drop (i + 1) := by
            rw [← List.map_drop]
            exact List.mem_map_of_mem hm
          obtain ⟨hx, hy⟩ := (residual_set_iff hset ho' hchanged).1 hres
          exact ⟨fun heq => hx (heq ▸ hmem), fun heq => hy (heq ▸ hmem)⟩
        right
        cases hkin with
        | twin htwin =>
            -- Twins have one fingerprint.
            obtain ⟨h, hx, hy, -⟩ := htwin
            rw [List.getElem?_map, ho, Option.map_some, Option.some.injEq] at hx
            rw [List.getElem?_map, hn, Option.map_some, Option.some.injEq] at hy
            exact absurd (hx.trans hy.symm) hchanged
        | residual hres => exact ⟨hlater hres, trivial⟩
        | inside hres ho₂ hn₂ hkin =>
            obtain rfl := Option.some.inj (ho.symm.trans ho₂)
            obtain rfl := Option.some.inj (hn.symm.trans hn₂)
            refine ⟨hlater hres, ih hkin hbelow ?_ ?_⟩
            · exact fun c hc => (hold _ (List.mem_of_getElem? ho)).child hc
            · exact fun c hc => (hnew _ (List.mem_of_getElem? hn)).child hc

end Identity

/-- Where the way settles, what is read again keeps its identities outside the place at its end. -/
theorem reconcile_map_id {t : Tree} {roots : List Node} {p q : Path}
    (hdiff : Forest.DifferOnlyAt p t.roots roots) (hsettles : Forest.Settles p t.roots roots)
    (hold : ∀ n ∈ t.roots, n.Stamped) (hnew : ∀ n ∈ roots, n.Stamped) (ids : IdSource) (hq : p <+: q → q = p) :
    ((reconcile t roots ids).1.at? q).map Node.id = (t.at? q).map Node.id := by
  have hfresh := (freshRoots_anonymous t roots ids).symm
  exact Identity.inheritAll_map_id (hdiff.of_anonymous hfresh) (hsettles.of_anonymous hfresh) hold
    (Node.stamped_of_anonymous hfresh hnew) hq

/-- If newly read roots differ from those of a tree only at one place, and no node on the way down to it has
the fingerprint of one of its siblings, neither in the tree nor in the new roots, then the nodes on the way,
the one at its end, and all nodes beside it have the identities of the nodes at their paths in the tree. Only
what is below the place may have others. -/
theorem localized_edit_keeps_identities {t : Tree} {roots : List Node} {p : Path}
    (hold : ∀ n ∈ t.roots, n.Stamped) (hnew : ∀ n ∈ roots, n.Stamped)
    (hdiff : Forest.DifferOnlyAt p t.roots roots) (hapart : Forest.Apart p t.roots)
    (hapart' : Forest.Apart p roots) (ids : IdSource) (q : Path) (hq : p <+: q → q = p) :
    ((reconcile t roots ids).1.at? q).map Node.id = (t.at? q).map Node.id :=
  reconcile_map_id hdiff (.of_apart hdiff hold hnew hapart hapart') hold hnew ids hq

/-- The last argument of a call changes its own argument, beside equal siblings: the place itself, the call and
what stands around it keep their identities. -/
theorem localized_edit_keeps_identities_last_argument :
    let atom (id : UInt64) (text : String) : Node := { Node.make (.literal text .symbol) default with id := ⟨id⟩ }
    let call (id : UInt64) (head : Node) (args : List Node) : Node :=
      { Node.make (.app head args) default with id := ⟨id⟩ }
    let old := [call 1 (atom 2 "f") [atom 3 "x", atom 4 "x", call 5 (atom 6 "g") [atom 7 "a"]],
      atom 8 "b", atom 9 "b"]
    let new := [call 0 (atom 0 "f") [atom 0 "x", atom 0 "x", call 0 (atom 0 "g") [call 0 (atom 0 "x") []]],
      atom 0 "b", atom 0 "b"]
    Forest.DifferOnlyAt [0, 3, 1] old new ∧ Forest.Apart [0, 3, 1] old ∧ Forest.Apart [0, 3, 1] new ∧
      ((reconcile (.ofRoots old) new .new).1.at? [0, 3, 1]).map Node.id = some ⟨7⟩ := by
  intro atom call old new
  have hdiff : Forest.DifferOnlyAt [0, 3, 1] old new := by
    refine ⟨_, _, rfl, rfl, ?_, _, _, rfl, rfl, ?_, _, _, rfl, rfl, ?_, trivial⟩
    · rintro (_ | _ | _ | j) hj <;> first | exact absurd rfl hj | rfl
    · rintro (_ | _ | _ | _ | j) hj <;> first | exact absurd rfl hj | rfl
    · rintro (_ | _ | j) hj <;> first | exact absurd rfl hj | rfl
  have hapart : Forest.Apart [0, 3, 1] old := by decide +kernel
  have hapart' : Forest.Apart [0, 3, 1] new := by decide +kernel
  have hid : ∀ {n : Node} (id : NodeId), n.Stamped → { n with id := id }.Stamped :=
    fun _ ⟨hash, comment, children⟩ => ⟨hash, comment, children⟩
  have hatom : ∀ id text, (atom id text).Stamped := fun id text =>
    hid _ (Node.stamped_make (fun m hm => by cases hm) _)
  have hcall : ∀ id head args, head.Stamped → (∀ m ∈ args, m.Stamped) → (call id head args).Stamped := by
    intro id head args hhead hargs
    refine hid _ (Node.stamped_make ?_ _)
    simpa [Kind.children, Kind.slots, Slot.nodes] using And.intro hhead hargs
  have hold : ∀ n ∈ old, n.Stamped := by
    have hroot := hcall 1 (atom 2 "f") [atom 3 "x", atom 4 "x", call 5 (atom 6 "g") [atom 7 "a"]] (hatom _ _)
    simpa [old, hatom] using hroot (by simp [hatom, hcall])
  have hnew : ∀ n ∈ new, n.Stamped := by
    have hroot := hcall 0 (atom 0 "f") [atom 0 "x", atom 0 "x", call 0 (atom 0 "g") [call 0 (atom 0 "x") []]]
    simpa [new, hatom] using hroot (hatom _ _) (by simp [hatom, hcall])
  exact ⟨hdiff, hapart, hapart', localized_edit_keeps_identities (t := .ofRoots old) hold hnew hdiff hapart
    hapart' .new [0, 3, 1] fun _ => rfl⟩

end TreeEdit
