import Mathlib
import TreeEdit.Proofs.RoundTrip

/-!
# Siblings matched in order

What each new sibling continues is worked out by taking old siblings out of a list one after the other.
Here the outcome is said without that list. Of each fingerprint the siblings on the two sides are matched
in order, the first with the first and so on (`Twin`). What one side has too many of is left over, in
order, and if anything is to be paired at all, the leftovers of the two sides are paired in order too
(`Residual`). Both relations look the same from either side.

Main statement: `matched_in_order`. Wherever old and new siblings are compared, each new sibling that has
a twin carries all identities of its twin, down to the leaves.
-/

namespace TreeEdit

namespace Identity

/-! ## Twins and leftovers -/

/-- Two places of one fingerprint, with as many places of it before the one as before the other. -/
def Twin (a b : List UInt64) (i j : Nat) : Prop :=
  ∃ h, a[i]? = some h ∧ b[j]? = some h ∧ (a.take i).count h = (b.take j).count h

/-- The items that a list of keys leaves over, if each item in turn uses up one place of its key. -/
def leftOver {α : Type} (key : α → UInt64) : List UInt64 → List α → List α
  | _, [] => []
  | keys, x :: xs =>
    if key x ∈ keys then leftOver key (keys.erase (key x)) xs else x :: leftOver key keys xs

/-- The places of the first list that the second one leaves over. -/
def spares (a b : List UInt64) : List Nat := (leftOver Prod.fst b a.zipIdx).map Prod.snd

/-- Two places that are left over, with as many places left over before the one as before the other. -/
def Residual (a b : List UInt64) (i j : Nat) : Prop :=
  ∃ k : Nat, (spares a b)[k]? = some i ∧ (spares b a)[k]? = some j

/-- Whether siblings left over are paired: some fingerprint is on both sides, or at most one new sibling
is left over. -/
def Pairs (old new : List UInt64) : Prop := (∃ h ∈ old, h ∈ new) ∨ (spares new old).length ≤ 1

theorem Twin.symm {a b : List UInt64} {i j : Nat} (h : Twin a b i j) : Twin b a j i := by
  obtain ⟨x, ha, hb, hcount⟩ := h
  exact ⟨x, hb, ha, hcount.symm⟩

theorem Residual.symm {a b : List UInt64} {i j : Nat} (h : Residual a b i j) : Residual b a j i := by
  obtain ⟨k, ha, hb⟩ := h
  exact ⟨k, hb, ha⟩

/-- A key at a place is the first, second, and so on, of its kind. -/
theorem count_take_lt {a : List UInt64} {i : Nat} {x : UInt64} (h : a[i]? = some x) :
    (a.take i).count x < a.count x := by
  obtain ⟨hlt, hx⟩ := List.getElem?_eq_some_iff.1 h
  calc (a.take i).count x < (a.take (i + 1)).count x := by
        rw [List.take_add_one, h, List.count_append]
        simp
    _ ≤ a.count x := (List.take_sublist _ _).count_le x

theorem eq_of_count_take {a : List UInt64} {i j : Nat} {x : UInt64} (hi : a[i]? = some x)
    (hj : a[j]? = some x) (h : (a.take i).count x = (a.take j).count x) : i = j := by
  have hlt : ∀ {i j : Nat}, a[i]? = some x → i < j → (a.take i).count x < (a.take j).count x := by
    intro i j hi hij
    have hi' : (a.take j)[i]? = some x := by rw [List.getElem?_take_of_lt hij, hi]
    simpa [List.take_take, Nat.min_eq_left hij.le] using count_take_lt hi'
  rcases Nat.lt_trichotomy i j with hij | hij | hij
  · exact absurd h (hlt hi hij).ne
  · exact hij
  · exact absurd h (hlt hj hij).ne'

theorem Twin.unique {a b : List UInt64} {i i' j : Nat} (h : Twin a b i j) (h' : Twin a b i' j) : i = i' := by
  obtain ⟨x, ha, hb, hcount⟩ := h
  obtain ⟨y, ha', hb', hcount'⟩ := h'
  obtain rfl := Option.some.inj (hb.symm.trans hb')
  exact eq_of_count_take ha ha' (hcount.trans hcount'.symm)

theorem leftOver_sublist {α : Type} (key : α → UInt64) (keys : List UInt64) (xs : List α) :
    (leftOver key keys xs).Sublist xs := by
  fun_induction leftOver key keys xs with
  | case1 => exact .refl _
  | case2 keys x xs _ ih => exact ih.cons x
  | case3 keys x xs _ ih => exact ih.cons_cons x

theorem leftOver_map {α γ : Type} (key : γ → UInt64) (f : α → γ) (keys : List UInt64) (xs : List α) :
    leftOver key keys (xs.map f) = (leftOver (key ∘ f) keys xs).map f := by
  induction xs generalizing keys with
  | nil => rfl
  | cons x xs ih =>
      simp only [List.map_cons, leftOver, Function.comp_apply, ih]
      split <;> rfl

/-- A place is left over if there are as many places of its key before it as in the other list. -/
theorem mem_leftOver_zipIdx {a b : List UInt64} {n i : Nat} {x : UInt64} :
    (x, i) ∈ leftOver Prod.fst b (a.zipIdx n) ↔
      ∃ m, i = n + m ∧ a[m]? = some x ∧ b.count x ≤ (a.take m).count x := by
  induction a generalizing b n with
  | nil => simp [leftOver]
  | cons y a ih =>
      have hsplit : (∃ m, i = n + m ∧ (y :: a)[m]? = some x ∧ b.count x ≤ ((y :: a).take m).count x) ↔
          (i = n ∧ y = x ∧ b.count x = 0) ∨
            ∃ m, i = n + 1 + m ∧ a[m]? = some x ∧ b.count x ≤ (y :: a.take m).count x := by
        constructor
        · rintro ⟨m, rfl, hx, hcount⟩
          cases m with
          | zero => exact .inl ⟨rfl, by simpa using hx, by simpa using hcount⟩
          | succ m => exact .inr ⟨m, by omega, by simpa using hx, by simpa using hcount⟩
        · rintro (⟨rfl, rfl, hcount⟩ | ⟨m, rfl, hx, hcount⟩)
          · exact ⟨0, by simp [hcount]⟩
          · exact ⟨m + 1, by omega, by simpa using hx, by simpa using hcount⟩
      rw [hsplit, List.zipIdx_cons, leftOver]
      split
      · -- The key is used up here, so it is not left over at this place.
        rename_i hmem
        have hpos := List.count_pos_iff.2 hmem
        rw [ih]
        constructor
        · rintro ⟨m, hi, hx, hcount⟩
          refine .inr ⟨m, hi, hx, ?_⟩
          rw [List.count_erase, List.count_cons] at *
          simp only [beq_iff_eq] at *
          grind
        · rintro (⟨-, rfl, hzero⟩ | ⟨m, hi, hx, hcount⟩)
          · simp only at hpos
            omega
          · refine ⟨m, hi, hx, ?_⟩
            rw [List.count_cons] at hcount
            rw [List.count_erase]
            simp only [beq_iff_eq] at *
            grind
      · rename_i hmem
        simp only at hmem
        rw [List.mem_cons, ih, Prod.mk.injEq]
        constructor
        · rintro (⟨rfl, rfl⟩ | ⟨m, hi, hx, hcount⟩)
          · exact .inl ⟨rfl, rfl, List.count_eq_zero_of_not_mem hmem⟩
          · exact .inr ⟨m, hi, hx, hcount.trans List.count_le_count_cons⟩
        · rintro (⟨rfl, rfl, -⟩ | ⟨m, hi, hx, hcount⟩)
          · exact .inl ⟨rfl, rfl⟩
          · refine .inr ⟨m, hi, hx, ?_⟩
            by_cases hyx : y = x
            · subst hyx
              rw [List.count_eq_zero_of_not_mem hmem]
              exact Nat.zero_le _
            · rwa [List.count_cons_of_ne hyx] at hcount

theorem mem_spares_iff {a b : List UInt64} {i : Nat} :
    i ∈ spares a b ↔ ∃ x, a[i]? = some x ∧ b.count x ≤ (a.take i).count x := by
  simp only [spares, List.mem_map, Prod.exists, exists_eq_right, mem_leftOver_zipIdx, Nat.zero_add]
  simp

theorem spares_nodup (a b : List UInt64) : (spares a b).Nodup := by
  have hsub := (leftOver_sublist Prod.fst b a.zipIdx).map Prod.snd
  rw [List.zipIdx_map_snd] at hsub
  exact List.Nodup.sublist hsub List.nodup_range'

theorem Residual.unique {a b : List UInt64} {i i' j : Nat} (h : Residual a b i j)
    (h' : Residual a b i' j) : i = i' := by
  obtain ⟨k, ha, hb⟩ := h
  obtain ⟨k', ha', hb'⟩ := h'
  obtain ⟨hk, hbk⟩ := List.getElem?_eq_some_iff.1 hb
  obtain ⟨hk', hbk'⟩ := List.getElem?_eq_some_iff.1 hb'
  have hkk : k = k' := (spares_nodup b a).getElem_inj_iff.1 (hbk.trans hbk'.symm)
  subst hkk
  exact Option.some.inj (ha.symm.trans ha')

/-- What has a twin is not left over. -/
theorem Twin.not_residual {a b : List UInt64} {i i' j : Nat} (h : Twin a b i j) : ¬ Residual a b i' j := by
  rintro ⟨k, -, hb⟩
  obtain ⟨x, ha, hbj, hcount⟩ := h
  obtain ⟨y, hy, hle⟩ := mem_spares_iff.1 (List.mem_of_getElem? hb)
  obtain rfl := Option.some.inj (hbj.symm.trans hy)
  have hlt := count_take_lt ha
  omega

/-! ## What a new sibling continues -/

theorem takeFirst_eq_none_iff {hash : UInt64} {old : List Node} :
    takeFirst hash old = none ↔ hash ∉ old.map Node.hash := by
  induction old with
  | nil => simp [takeFirst]
  | cons o old ih =>
      rw [takeFirst]
      split
      · rename_i heq
        simp [heq]
      · rename_i hne
        rw [Option.map_eq_none_iff, ih, List.map_cons, List.mem_cons, not_or]
        exact ⟨fun hold => ⟨fun heq => hne heq.symm, hold⟩, And.right⟩

/-- What is taken is the first of its fingerprint, and nothing else is taken. -/
theorem takeFirst_eq_some {hash : UInt64} {old others : List Node} {found : Node}
    (h : takeFirst hash old = some (found, others)) :
    ∃ before after, old = before ++ found :: after ∧ others = before ++ after ∧ found.hash = hash ∧
      hash ∉ before.map Node.hash := by
  induction old generalizing others with
  | nil => cases h
  | cons o old ih =>
      rw [takeFirst] at h
      split at h
      · rename_i heq
        cases h
        exact ⟨[], old, rfl, rfl, heq, List.not_mem_nil⟩
      · rename_i hne
        obtain ⟨⟨m, ms⟩, htake, hm⟩ := Option.map_eq_some_iff.1 h
        cases hm
        obtain ⟨before, after, rfl, rfl, hhash, hbefore⟩ := ih htake
        refine ⟨o :: before, after, rfl, rfl, hhash, ?_⟩
        rw [List.map_cons, List.mem_cons, not_or]
        exact ⟨fun heq => hne heq.symm, hbefore⟩

/-- The siblings with a fingerprint. -/
def ofHash (hash : UInt64) (ns : List Node) : List Node := ns.filter (·.hash == hash)

theorem ofHash_eq_nil {hash : UInt64} {ns : List Node} (h : hash ∉ ns.map Node.hash) : ofHash hash ns = [] := by
  refine List.filter_eq_nil_iff.2 fun n hn heq => h ?_
  exact List.mem_map.2 ⟨n, hn, beq_iff_eq.1 heq⟩

theorem count_map_hash (hash : UInt64) (ns : List Node) :
    (ns.map Node.hash).count hash = (ofHash hash ns).length := by
  rw [ofHash, ← List.countP_eq_length_filter, List.count, List.countP_map]
  rfl

/-- The place of a sibling among those of its fingerprint is the number of those before it. -/
theorem ofHash_getElem?_iff {hash : UInt64} {ns : List Node} {k : Nat} {n : Node} :
    (ofHash hash ns)[k]? = some n ↔
      ∃ i, ns[i]? = some n ∧ n.hash = hash ∧ ((ns.map Node.hash).take i).count hash = k := by
  induction ns generalizing k with
  | nil => simp [ofHash]
  | cons m ns ih =>
      have hsplit : (∃ i, (m :: ns)[i]? = some n ∧ n.hash = hash ∧
            (((m :: ns).map Node.hash).take i).count hash = k) ↔
          (m = n ∧ n.hash = hash ∧ 0 = k) ∨ ∃ i, ns[i]? = some n ∧ n.hash = hash ∧
            (m.hash :: (ns.map Node.hash).take i).count hash = k := by
        constructor
        · rintro ⟨i, hi, hhash, hcount⟩
          cases i with
          | zero => exact .inl ⟨by simpa using hi, hhash, by simpa using hcount⟩
          | succ i => exact .inr ⟨i, by simpa using hi, hhash, by simpa using hcount⟩
        · rintro (⟨rfl, hhash, rfl⟩ | ⟨i, hi, hhash, hcount⟩)
          · exact ⟨0, rfl, hhash, rfl⟩
          · exact ⟨i + 1, by simpa using hi, hhash, by simpa using hcount⟩
      rw [hsplit]
      by_cases hm : m.hash = hash
      · have hcons : ofHash hash (m :: ns) = m :: ofHash hash ns := by simp [ofHash, hm]
        rw [hcons]
        cases k with
        | zero =>
            simp only [List.getElem?_cons_zero, Option.some.injEq, hm, List.count_cons_self]
            grind
        | succ k =>
            simp [ih, hm]
      · have hcons : ofHash hash (m :: ns) = ofHash hash ns := by simp [ofHash, hm]
        rw [hcons, ih]
        simp only [List.count_cons_of_ne hm]
        grind

/-- The first sibling of a fingerprint stands in front of the others that have it. -/
theorem ofHash_of_first {before after : List Node} {found : Node} {first hash : UInt64} (hfound : found.hash = first)
    (hbefore : first ∉ before.map Node.hash) :
    ofHash hash (before ++ found :: after) =
      if first = hash then found :: ofHash hash (before ++ after) else ofHash hash (before ++ after) := by
  split
  · rename_i heq
    subst heq
    have hnil := ofHash_eq_nil hbefore
    simp only [ofHash] at hnil ⊢
    simp [hfound, hnil]
  · rename_i hne
    simp [ofHash, hfound, hne]

/-- Each fingerprint takes the old siblings that have it in order. -/
theorem takeWhole_getElem? (old : List Node) {hashes : List UInt64} {j : Nat} {hash : UInt64}
    (h : hashes[j]? = some hash) :
    (takeWhole old hashes).1[j]? = some (ofHash hash old)[(hashes.take j).count hash]? := by
  induction hashes generalizing old j with
  | nil => cases h
  | cons first rest ih =>
      rw [takeWhole]
      cases htake : takeFirst first old with
      | none =>
          have hnone := takeFirst_eq_none_iff.1 htake
          cases j with
          | zero =>
              obtain rfl : first = hash := by simpa using h
              simp [ofHash_eq_nil hnone]
          | succ j =>
              have hrest : rest[j]? = some hash := by simpa using h
              by_cases heq : first = hash
              · subst heq
                simpa [ofHash_eq_nil hnone] using ih old hrest
              · simpa [heq] using ih old hrest
      | some taken =>
          obtain ⟨found, others⟩ := taken
          obtain ⟨before, after, rfl, rfl, hfound, hbefore⟩ := takeFirst_eq_some htake
          rw [ofHash_of_first hfound hbefore]
          cases j with
          | zero =>
              obtain rfl : first = hash := by simpa using h
              simp
          | succ j =>
              have hrest : rest[j]? = some hash := by simpa using h
              have htail := ih (before ++ after) hrest
              by_cases heq : first = hash
              · subst heq
                simpa using htail
              · simpa [heq] using htail

theorem leftOver_none (old : List Node) : leftOver Node.hash [] old = old := by
  induction old with
  | nil => rfl
  | cons o old ih => simp [leftOver, ih]

/-- A fingerprint that no sibling has changes nothing in what is left over. -/
theorem leftOver_cons_of_not_mem {old : List Node} {hash : UInt64} (rest : List UInt64)
    (h : hash ∉ old.map Node.hash) : leftOver Node.hash (hash :: rest) old = leftOver Node.hash rest old := by
  induction old generalizing rest with
  | nil => rfl
  | cons o old ih =>
      rw [List.map_cons, List.mem_cons, not_or] at h
      obtain ⟨hne, hold⟩ := h
      simp [leftOver, Ne.symm hne, hne, ih _ hold]

/-- A fingerprint uses up the first sibling that has it. -/
theorem leftOver_cons_of_first {before after : List Node} {found : Node} (rest : List UInt64)
    (h : found.hash ∉ before.map Node.hash) :
    leftOver Node.hash (found.hash :: rest) (before ++ found :: after) =
      leftOver Node.hash rest (before ++ after) := by
  induction before generalizing rest with
  | nil => simp [leftOver]
  | cons o before ih =>
      rw [List.map_cons, List.mem_cons, not_or] at h
      obtain ⟨hne, hold⟩ := h
      simp [leftOver, Ne.symm hne, hne, ih _ hold]

/-- The old siblings not taken are those that the new fingerprints leave over. -/
theorem takeWhole_left (old : List Node) (hashes : List UInt64) :
    (takeWhole old hashes).2 = leftOver Node.hash hashes old := by
  induction hashes generalizing old with
  | nil => exact (leftOver_none old).symm
  | cons hash rest ih =>
      rw [takeWhole]
      cases htake : takeFirst hash old with
      | none => exact (ih old).trans (leftOver_cons_of_not_mem rest (takeFirst_eq_none_iff.1 htake)).symm
      | some taken =>
          obtain ⟨found, others⟩ := taken
          obtain ⟨before, after, rfl, rfl, rfl, hbefore⟩ := takeFirst_eq_some htake
          exact (ih _).trans (leftOver_cons_of_first rest hbefore).symm

/-- The places of the new siblings that took nothing, counted from a number. -/
def empties : List (Option Node) → Nat → List Nat
  | [], _ => []
  | some _ :: taken, n => empties taken (n + 1)
  | none :: taken, n => n :: empties taken (n + 1)

theorem le_of_mem_empties {taken : List (Option Node)} {n i : Nat} (h : i ∈ empties taken n) : n ≤ i := by
  fun_induction empties taken n with
  | case1 => cases h
  | case2 _ taken n ih => exact (Nat.le_succ n).trans (ih h)
  | case3 taken n ih =>
      rcases List.mem_cons.1 h with rfl | h
      · exact le_rfl
      · exact (Nat.le_succ n).trans (ih h)

/-- The new siblings that took nothing are those that the old fingerprints leave over. -/
theorem empties_takeWhole (old : List Node) (hashes : List UInt64) (n : Nat) :
    empties (takeWhole old hashes).1 n =
      (leftOver Prod.fst (old.map Node.hash) (hashes.zipIdx n)).map Prod.snd := by
  induction hashes generalizing old n with
  | nil => rfl
  | cons hash rest ih =>
      rw [takeWhole, List.zipIdx_cons, leftOver]
      cases htake : takeFirst hash old with
      | none =>
          have hnone := takeFirst_eq_none_iff.1 htake
          rw [if_neg hnone, List.map_cons, ← ih]
          rfl
      | some taken =>
          obtain ⟨found, others⟩ := taken
          obtain ⟨before, after, rfl, rfl, rfl, hbefore⟩ := takeFirst_eq_some htake
          have herase : ((before ++ found :: after).map Node.hash).erase found.hash =
              (before ++ after).map Node.hash := by
            rw [List.map_append, List.map_cons, List.erase_append_right _ hbefore, List.erase_cons_head,
              List.map_append]
          rw [if_pos (by simp), herase, ← ih]
          rfl

theorem pairLeft_whole_iff {taken : List (Option Node)} {left : List Node} {j : Nat} {o : Node} :
    (pairLeft taken left)[j]? = some (.whole o) ↔ taken[j]? = some (some o) := by
  fun_induction pairLeft taken left generalizing j with
  | case1 => simp
  | case2 left o' rest ih => cases j <;> simp [ih]
  | case3 rest o' left ih => cases j <;> simp [ih]
  | case4 rest ih => cases j <;> simp [ih]

theorem pairLeft_paired_iff {taken : List (Option Node)} {left : List Node} {j : Nat} {o : Node} (n : Nat) :
    (pairLeft taken left)[j]? = some (.paired o) ↔
      ∃ k : Nat, (empties taken n)[k]? = some (n + j) ∧ left[k]? = some o := by
  have hlate : ∀ {taken : List (Option Node)} {n k : Nat}, (empties taken (n + 1))[k]? ≠ some n :=
    fun h => absurd (le_of_mem_empties (List.mem_of_getElem? h)) (Nat.not_succ_le_self _)
  fun_induction pairLeft taken left generalizing j n with
  | case1 => simp [empties]
  | case2 left o' rest ih =>
      rw [empties]
      cases j with
      | zero => simp [hlate]
      | succ j =>
          rw [show n + (j + 1) = n + 1 + j by omega]
          exact ih (n + 1)
  | case3 rest o' left ih =>
      rw [empties]
      cases j with
      | zero =>
          constructor
          · rintro ⟨⟩
            exact ⟨0, rfl, rfl⟩
          · rintro ⟨k, hk, ho⟩
            cases k with
            | zero => simpa using ho
            | succ k => exact absurd hk hlate
      | succ j =>
          rw [show n + (j + 1) = n + 1 + j by omega]
          refine (ih (n + 1)).trans ?_
          constructor
          · rintro ⟨k, hk, ho⟩
            exact ⟨k + 1, hk, ho⟩
          · rintro ⟨k, hk, ho⟩
            cases k with
            | zero => exact absurd (Option.some.inj hk) (by omega)
            | succ k => exact ⟨k, hk, ho⟩
  | case4 rest ih => cases j <;> simp [ih 0]

/-- A new sibling takes over its twin as a whole. -/
theorem partners_whole_iff {old : List Node} {hashes : List UInt64} {j : Nat} {o : Node} :
    (partners old hashes)[j]? = some (.whole o) ↔
      ∃ i, old[i]? = some o ∧ Twin (old.map Node.hash) hashes i j := by
  simp only [partners, pairLeft_whole_iff]
  cases hj : hashes[j]? with
  | none =>
      have hnone : (takeWhole old hashes).1[j]? = none := by
        rw [List.getElem?_eq_none_iff, takeWhole_length]
        exact List.getElem?_eq_none_iff.1 hj
      simp [hnone, Twin, hj]
  | some hash =>
      rw [takeWhole_getElem? old hj, Option.some.injEq, ofHash_getElem?_iff]
      constructor
      · rintro ⟨i, hi, rfl, hcount⟩
        exact ⟨i, hi, o.hash, by simp [hi], hj, hcount⟩
      · rintro ⟨i, hi, h, hold, hnew, hcount⟩
        obtain rfl : hash = h := Option.some.inj (hj.symm.trans hnew)
        exact ⟨i, hi, by simpa [hi] using hold, hcount⟩

/-- The old siblings left over, with their places. -/
theorem takeWhole_left_getElem?_iff {old : List Node} {hashes : List UInt64} {k : Nat} {o : Node} :
    (takeWhole old hashes).2[k]? = some o ↔
      ∃ i, (spares (old.map Node.hash) hashes)[k]? = some i ∧ old[i]? = some o := by
  have hplaced : (leftOver (Node.hash ∘ Prod.fst) hashes old.zipIdx).map Prod.fst =
      (takeWhole old hashes).2 := by
    rw [takeWhole_left, ← leftOver_map, List.zipIdx_map_fst]
  have hplaces : (leftOver (Node.hash ∘ Prod.fst) hashes old.zipIdx).map Prod.snd =
      spares (old.map Node.hash) hashes := by
    rw [spares, List.zipIdx_map, leftOver_map, List.map_map]
    rfl
  rw [← hplaced, ← hplaces]
  have hplace : ∀ {o i}, (leftOver (Node.hash ∘ Prod.fst) hashes old.zipIdx)[k]? = some (o, i) →
      old[i]? = some o := by
    intro o i hk
    have hmem := (leftOver_sublist _ _ _).subset (List.mem_of_getElem? hk)
    exact List.mk_mem_zipIdx_iff_getElem?.1 hmem
  simp only [List.getElem?_map, Option.map_eq_some_iff, Prod.exists]
  constructor
  · rintro ⟨o', i, hk, rfl⟩
    exact ⟨i, ⟨o', i, hk, rfl⟩, hplace hk⟩
  · rintro ⟨_, ⟨o', i, hk, rfl⟩, hi⟩
    obtain rfl := Option.some.inj (hi.symm.trans (hplace hk))
    exact ⟨o, i, hk, rfl⟩

theorem length_empties (taken : List (Option Node)) (n : Nat) :
    (empties taken n).length = taken.countP Option.isNone := by
  fun_induction empties taken n with
  | case1 => rfl
  | case2 _ taken n ih => simpa using ih
  | case3 taken n ih => simpa using ih

theorem pairsLeft_iff {old : List Node} {hashes : List UInt64} :
    pairsLeft (takeWhole old hashes).1 = true ↔ Pairs (old.map Node.hash) hashes := by
  have hnone : (takeWhole old hashes).1.countP Option.isNone = (spares hashes (old.map Node.hash)).length := by
    rw [← length_empties _ 0, empties_takeWhole]
    rfl
  have hsome : (∃ o, some o ∈ (takeWhole old hashes).1) ↔ ∃ h ∈ old.map Node.hash, h ∈ hashes := by
    constructor
    · rintro ⟨o, ho⟩
      obtain ⟨j, hj⟩ := List.getElem?_of_mem ho
      have hpartner : (partners old hashes)[j]? = some (.whole o) := pairLeft_whole_iff.2 hj
      obtain ⟨i, hi, h, hold, hnew, -⟩ := partners_whole_iff.1 hpartner
      exact ⟨h, List.mem_of_getElem? hold, List.mem_of_getElem? hnew⟩
    · rintro ⟨h, hold, hnew⟩
      obtain ⟨before, after, rfl, hfirst⟩ := List.eq_append_cons_of_mem hnew
      have hj : (before ++ h :: after)[before.length]? = some h := by simp
      have htaken := takeWhole_getElem? old hj
      rw [List.take_left, List.count_eq_zero_of_not_mem hfirst] at htaken
      have hpos : 0 < (ofHash h old).length := by
        rw [← count_map_hash]
        exact List.count_pos_iff.2 hold
      rw [List.getElem?_eq_getElem hpos] at htaken
      exact ⟨_, List.mem_of_getElem? htaken⟩
  rw [pairsLeft, Bool.or_eq_true, List.any_eq_true, decide_eq_true_iff, hnone, Pairs, ← hsome]
  refine or_congr_left ?_
  constructor
  · rintro ⟨_ | o, ho, hisSome⟩
    · cases hisSome
    · exact ⟨o, ho⟩
  · rintro ⟨o, ho⟩
    exact ⟨some o, ho, rfl⟩

/-- A new sibling left over is paired with the old one left over in its place, if any are paired. -/
theorem partners_paired_iff {old : List Node} {hashes : List UInt64} {j : Nat} {o : Node} :
    (partners old hashes)[j]? = some (.paired o) ↔
      Pairs (old.map Node.hash) hashes ∧ ∃ i, old[i]? = some o ∧ Residual (old.map Node.hash) hashes i j := by
  have hempties : empties (takeWhole old hashes).1 0 = spares hashes (old.map Node.hash) :=
    empties_takeWhole old hashes 0
  simp only [partners, pairLeft_paired_iff 0, Nat.zero_add, hempties]
  by_cases hpairs : pairsLeft (takeWhole old hashes).1 = true
  · rw [if_pos hpairs]
    simp only [takeWhole_left_getElem?_iff, pairsLeft_iff.1 hpairs, true_and, Residual]
    constructor
    · rintro ⟨k, hk, i, hi, ho⟩
      exact ⟨i, ho, k, hi, hk⟩
    · rintro ⟨i, ho, k, hi, hk⟩
      exact ⟨k, hk, i, hi, ho⟩
  · rw [if_neg hpairs]
    have hnot : ¬ Pairs (old.map Node.hash) hashes := fun h => hpairs (pairsLeft_iff.2 h)
    simp [hnot]

end Identity

/-! ## Identities carried by twins -/

/-- Wherever both nodes have a node below them, the first one's has the identity of the second one's,
and its comment that of the comment there, if there are two. -/
def Node.Carries (n o : Node) : Prop :=
  ∀ path m old, n.at? path = some m → o.at? path = some old →
    m.id = old.id ∧ ∀ c ∈ m.comment, ∀ d ∈ old.comment, c.id = d.id

namespace Identity

theorem children_takeIds (n o : Node) :
    (takeIds n (some o)).children = n.children.mapIdx fun i c => takeIds c o.children[i]? := by
  rw [takeIds_some]
  exact Kind.children_mapIdx (fun i c => takeIds c o.children[i]?) n.kind

theorem takeIds_carries (n o : Node) : (takeIds n (some o)).Carries o := by
  intro path
  induction path generalizing n o with
  | nil =>
      rintro m old ⟨⟩ ⟨⟩
      rw [takeIds_some]
      refine ⟨rfl, ?_⟩
      intro c hc d hd
      rw [Option.mem_def] at hc hd
      cases hn : n.comment <;> simp_all [inheritComment]
      rw [← hc]
  | cons i path ih =>
      intro m old hm hold
      obtain ⟨c, hc, hm⟩ := Option.bind_eq_some_iff.1 hm
      obtain ⟨d, hd, hold⟩ := Option.bind_eq_some_iff.1 hold
      rw [children_takeIds, List.getElem?_mapIdx] at hc
      obtain ⟨c, -, rfl⟩ := Option.map_eq_some_iff.1 hc
      rw [hd] at hm
      exact ih c d m old hm hold

theorem inheritAll_getElem? {old new : List Node} {j : Nat} {r : Node} (h : (inheritAll old new).1[j]? = some r) :
    ∃ n p, new[j]? = some n ∧ (partners old (new.map Node.hash))[j]? = some p ∧ r = (inherit n p).1 := by
  simp only [inheritAll, List.map_zipWith, List.getElem?_zipWith_eq_some] at h
  obtain ⟨n, p, hn, hp, rfl⟩ := h
  exact ⟨n, p, hn, hp, rfl⟩

theorem map_hash_inheritAll (old new : List Node) :
    (inheritAll old new).1.map Node.hash = new.map Node.hash :=
  map_eq_of_anonymous Node.hash_anonymous (inheritAll_anonymous old new)

/-- Below a node that is paired with an old one, their children are compared in turn. -/
theorem children_inherit_paired (n o : Node) :
    (inherit n (.paired o)).1.children = (inheritAll o.children n.children).1 := by
  have hkids : (inherit n (.paired o)).1.children = n.children.mapIdx fun i c =>
      (inherit c ((partners o.children (n.children.map Node.hash)).getD i .fresh)).1 := by
    rw [inherit_paired]
    exact Kind.children_mapIdx
      (fun i c => (inherit c ((partners o.children (n.children.map Node.hash)).getD i .fresh)).1) n.kind
  have hlen : (partners o.children (n.children.map Node.hash)).length = n.children.length := by
    rw [partners_length, List.length_map]
  rw [hkids]
  simp only [inheritAll]
  refine List.ext_getElem (by simp [hlen]) ?_
  intro i hi _
  have hi' : i < (partners o.children (n.children.map Node.hash)).length := by simpa [hlen] using hi
  simp [List.getElem?_eq_getElem hi']

/-- A new sibling with a twin has all identities of its twin. -/
theorem inheritAll_twin {old new : List Node} {i j : Nat} {o r : Node}
    (htwin : Twin (old.map Node.hash) (new.map Node.hash) i j) (ho : old[i]? = some o)
    (hr : (inheritAll old new).1[j]? = some r) : ∃ n, new[j]? = some n ∧ r = takeIds n (some o) := by
  obtain ⟨n, p, hn, hp, rfl⟩ := inheritAll_getElem? hr
  have hwhole := partners_whole_iff.2 ⟨i, ho, htwin⟩
  obtain rfl := Option.some.inj (hp.symm.trans hwhole)
  exact ⟨n, hn, inherit_whole n o⟩

/-- Of each fingerprint the new siblings carry the identities of the old ones in order, as far as there
are both. -/
def MatchedInOrder (old new : List Node) : Prop :=
  ∀ hash k, k < min ((old.map Node.hash).count hash) ((new.map Node.hash).count hash) →
    ∃ o n, (ofHash hash old)[k]? = some o ∧ (ofHash hash new)[k]? = some n ∧ n.Carries o

theorem matchedInOrder_inheritAll (old new : List Node) : MatchedInOrder old (inheritAll old new).1 := by
  intro hash k hk
  rw [count_map_hash, count_map_hash, Nat.lt_min] at hk
  have ho := List.getElem?_eq_getElem hk.1
  have hr := List.getElem?_eq_getElem hk.2
  refine ⟨_, _, ho, hr, ?_⟩
  obtain ⟨i, hi, hohash, hocount⟩ := ofHash_getElem?_iff.1 ho
  obtain ⟨j, hj, hrhash, hrcount⟩ := ofHash_getElem?_iff.1 hr
  rw [map_hash_inheritAll] at hrcount
  have hnew : (new.map Node.hash)[j]? = some hash := by
    rw [← map_hash_inheritAll old new, List.getElem?_map, hj, Option.map_some, hrhash]
  have htwin : Twin (old.map Node.hash) (new.map Node.hash) i j :=
    ⟨hash, by rw [List.getElem?_map, hi, Option.map_some, hohash], hnew, hocount.trans hrcount.symm⟩
  obtain ⟨n, -, hn⟩ := inheritAll_twin htwin hi hj
  rw [hn]
  exact takeIds_carries _ _

/-- The lists of siblings that are compared when two lists of siblings are: these two, and the children of
any two of them that are paired. -/
inductive Descends : List Node → List Node → List Node → List Node → Prop
  | here (old new : List Node) : Descends old new old new
  | into {old new olds news : List Node} {i j : Nat} {o n : Node}
      (pairs : Pairs (old.map Node.hash) (new.map Node.hash))
      (residual : Residual (old.map Node.hash) (new.map Node.hash) i j) (ho : old[i]? = some o)
      (hn : new[j]? = some n) (below : Descends o.children n.children olds news) :
      Descends old new olds news

theorem Descends.matchedInOrder {old result olds news : List Node} (h : Descends old result olds news)
    {new : List Node} (hresult : result = (inheritAll old new).1) : MatchedInOrder olds news := by
  induction h generalizing new with
  | here old result =>
      rw [hresult]
      exact matchedInOrder_inheritAll old new
  | into pairs residual ho hn _ ih =>
      subst hresult
      rw [map_hash_inheritAll] at pairs residual
      obtain ⟨m, p, -, hp, rfl⟩ := inheritAll_getElem? hn
      have hpaired := partners_paired_iff.2 ⟨pairs, _, ho, residual⟩
      obtain rfl := Option.some.inj (hp.symm.trans hpaired)
      exact ih (children_inherit_paired m _)

end Identity

section Roots

open Identity

/-- The roots that were read, each with fresh identities, before any are carried over. -/
def freshRoots (t : Tree) (roots : List Node) (ids : IdSource) : List Node :=
  (roots.mapM numberFresh (t.roots.foldl reserveNode ids)).1

theorem roots_reconcile (t : Tree) (roots : List Node) (ids : IdSource) :
    (reconcile t roots ids).1.roots = (inheritAll t.roots (freshRoots t roots ids)).1 := rfl

theorem freshRoots_anonymous (t : Tree) (roots : List Node) (ids : IdSource) :
    (freshRoots t roots ids).map Node.anonymous = roots.map Node.anonymous :=
  map_fst_list_mapM (fun n _ s => numberFresh_anonymous n s) _

/-- An old root of whose content enough roots are read again passes on all its identities. -/
theorem reconcile_root_survives {t : Tree} {roots : List Node} {i : Nat} {o : Node}
    (ho : t.roots[i]? = some o)
    (hmany : ((t.roots.map Node.hash).take i).count o.hash < (roots.map Node.hash).count o.hash)
    (hsame : ∀ n ∈ roots, n.hash = o.hash → n.bare = o.bare) (ids : IdSource) :
    ∃ n ∈ (reconcile t roots ids).1.roots, n.bare = o.bare ∧
      n.walk.map Node.label = o.walk.map Node.label := by
  have hhashes := map_eq_of_anonymous Node.hash_anonymous (freshRoots_anonymous t roots ids)
  have hbares := map_eq_of_anonymous Node.bare_anonymous (freshRoots_anonymous t roots ids)
  rw [← hhashes, count_map_hash] at hmany
  obtain ⟨j, hj, hhash, hcount⟩ := ofHash_getElem?_iff.1 (List.getElem?_eq_getElem hmany)
  set n := (ofHash o.hash (freshRoots t roots ids))[((t.roots.map Node.hash).take i).count o.hash]
  have htwin : Twin (t.roots.map Node.hash) ((freshRoots t roots ids).map Node.hash) i j :=
    ⟨o.hash, by simp [ho], by simp [hj, hhash], hcount.symm⟩
  have hbare : n.bare = o.bare := by
    have hread := congrArg (·[j]?) hhashes
    have hcontent := congrArg (·[j]?) hbares
    simp only [List.getElem?_map, hj, Option.map_some] at hread hcontent
    obtain ⟨m, hm, hmhash⟩ := Option.map_eq_some_iff.1 hread.symm
    rw [hm, Option.map_some, Option.some.injEq] at hcontent
    rw [hcontent]
    exact hsame m (List.mem_of_getElem? hm) (hmhash.trans hhash)
  have hlen : (reconcile t roots ids).1.roots.length = (freshRoots t roots ids).length := by
    rw [roots_reconcile]
    simpa using congrArg List.length (inheritAll_anonymous t.roots (freshRoots t roots ids))
  obtain ⟨hlt, -⟩ := List.getElem?_eq_some_iff.1 hj
  have hr := List.getElem?_eq_getElem (hlen ▸ hlt)
  obtain ⟨n', hn', hr'⟩ := inheritAll_twin htwin ho hr
  obtain rfl := Option.some.inj (hj.symm.trans hn')
  refine ⟨_, List.mem_of_getElem? hr, ?_⟩
  rw [hr']
  refine ⟨?_, takeIds_labels hbare⟩
  rw [← Node.bare_anonymous, takeIds_anonymous, Node.bare_anonymous, hbare]

/-- Reading the text of a tree again keeps all its identities. -/
theorem reconcile_same_text {t : Tree} {roots : List Node} {text : String} (hshows : t.Shows text)
    (hread : readDocument text = .ok roots) (ids : IdSource) :
    (reconcile t roots ids).1.nodes.map Node.label = t.nodes.map Node.label := by
  obtain ⟨_, hread', hroots⟩ := hshows
  obtain rfl := Except.ok.inj (hread.symm.trans hread')
  exact reconcile_keeps_labels ids (map_eq_of_anonymous Node.bare_anonymous hroots).symm
    (map_eq_of_anonymous Node.hash_anonymous hroots).symm

/-- Wherever old and new siblings are compared, the new siblings of each fingerprint carry all identities
of the old ones, in order, as far as there are both. So an old root of whose content enough roots are read
again passes on all its identities, wherever they stand and whatever else is read; and reading the text of
a tree again keeps them all. -/
theorem matched_in_order (t : Tree) (roots : List Node) (ids : IdSource) :
    (reconcile t roots ids).1.roots.map Node.anonymous = roots.map Node.anonymous ∧
    (∀ olds news, Descends t.roots (reconcile t roots ids).1.roots olds news → MatchedInOrder olds news) ∧
    (∀ i o, t.roots[i]? = some o →
      ((t.roots.map Node.hash).take i).count o.hash < (roots.map Node.hash).count o.hash →
      (∀ n ∈ roots, n.hash = o.hash → n.bare = o.bare) →
      ∃ n ∈ (reconcile t roots ids).1.roots, n.bare = o.bare ∧
        n.walk.map Node.label = o.walk.map Node.label) ∧
    ∀ text, t.Shows text → readDocument text = .ok roots →
      (reconcile t roots ids).1.ids = t.ids ∧ (reconcile t roots ids).1.commentIds = t.commentIds := by
  refine ⟨reconcile_anonymous t roots ids, ?_, ?_, ?_⟩
  · intro olds news hdescends
    exact hdescends.matchedInOrder (roots_reconcile t roots ids)
  · intro i o ho hmany hsame
    exact reconcile_root_survives ho hmany hsame ids
  · intro text hshows hread
    have hlabels := reconcile_same_text hshows hread ids
    refine ⟨?_, ?_⟩
    · have hids := congrArg (List.map Prod.fst) hlabels
      rwa [List.map_map, List.map_map] at hids
    · have hids := congrArg (List.filterMap Prod.snd) hlabels
      rwa [List.filterMap_map, List.filterMap_map] at hids

/-- Two calls change places, and one gets another argument. The one that did not change passes on all its
identities; the arguments of the other are compared in turn. -/
theorem matched_in_order_swapped_calls :
    let atom (id : UInt64) (text : String) (hash : UInt64) : Node :=
      ⟨⟨id⟩, default, hash, .literal text .symbol, none⟩
    let call (id : UInt64) (hash : UInt64) (args : List Node) : Node :=
      ⟨⟨id⟩, default, hash, .app (atom (id + 1) "f" 1) args, none⟩
    let t := Tree.ofRoots [call 10 20 [atom 12 "x" 2, atom 13 "y" 3], call 30 21 []]
    let roots := [call 0 21 [], call 0 22 [atom 0 "x" 2, atom 0 "z" 4]]
    (∃ n ∈ (reconcile t roots .new).1.roots, n.bare = (call 30 21 []).bare ∧
      n.walk.map Node.label = (call 30 21 []).walk.map Node.label) ∧
    ∃ n, (reconcile t roots .new).1.roots[1]? = some n ∧
      MatchedInOrder [atom 11 "f" 1, atom 12 "x" 2, atom 13 "y" 3] n.children := by
  intro atom call t roots
  have hlaw := matched_in_order t roots .new
  refine ⟨hlaw.2.2.1 1 (call 30 21 []) rfl (by decide) ?_, _, rfl, ?_⟩
  · intro n hn hhash
    rcases List.mem_cons.1 hn with rfl | hn
    · rfl
    · obtain rfl := List.mem_singleton.1 hn
      exact absurd hhash (by decide)
  · refine hlaw.2.1 _ _ (.into (i := 0) (j := 1) (.inl ?_) ⟨0, rfl, rfl⟩ rfl rfl (.here _ _))
    exact ⟨21, by decide, by decide⟩

end Roots

end TreeEdit
