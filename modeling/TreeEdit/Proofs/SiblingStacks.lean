import Mathlib
import TreeEdit.Identity.Reconcile

/-!
# Siblings on stacks

The old siblings not taken yet can be kept in a map: for each fingerprint the places of the siblings with it, as
a stack with the earliest on top, and for each place a flag that says whether it was taken. To take a sibling is
then to pop a stack and to set a flag. A sibling is on its stack as long as its flag is not set (`Stacked`), so
what is taken is the first with its fingerprint, and what is left are the siblings without a flag:
`partnersByStacks_eq`.
-/

namespace TreeEdit

namespace Identity

/-- For each fingerprint the places of siblings with it, the top of the stack first. -/
abbrev Stacks := Std.HashMap UInt64 (List Nat)

/-- A sibling pushed at its place. -/
def Stacks.push (byHash : Stacks) (place : Node × Nat) : Stacks :=
  byHash.insert place.1.hash (place.2 :: byHash.getD place.1.hash [])

/-- All siblings pushed, the last one first, so that the earliest comes to the top. -/
def Stacks.ofSiblings (old : List Node) : Stacks := old.zipIdx.reverse.foldl push ∅

/-- For each new fingerprint in turn the place popped from its stack, and the flags in the end. -/
def popAll (byHash : Stacks) (taken : List Bool) : List UInt64 → List (Option Nat) × List Bool
  | [] => ([], taken)
  | hash :: rest =>
    match byHash.getD hash [] with
    | [] =>
      let (places, taken) := popAll byHash taken rest
      (none :: places, taken)
    | place :: below =>
      let (places, taken) := popAll (byHash.insert hash below) (taken.set place true) rest
      (some place :: places, taken)

/-- The siblings without a flag. -/
def untaken (old : List Node) (taken : List Bool) : List Node :=
  (old.zip taken).filterMap fun (n, flag) => if flag then none else some n

/-- What each new sibling continues, from stacks and flags. -/
def partnersByStacks (old : List Node) (new : List UInt64) : List Partner :=
  let (places, taken) := popAll (.ofSiblings old) (List.replicate old.length false) new
  let found := places.map fun place => place.bind (old[·]?)
  let pairs := taken.any id || found.countP Option.isNone ≤ 1
  pairLeft found (if pairs then untaken old taken else [])

/-! ## Places not taken -/

/-- The siblings not taken, with their places. -/
def openPlaces (old : List Node) (taken : List Bool) : List (Node × Nat) :=
  old.zipIdx.filter fun place => taken[place.2]? = some false

/-- The stacks hold the places not taken, each under its fingerprint and in order. -/
def Stacked (old : List Node) (taken : List Bool) (byHash : Stacks) : Prop :=
  ∀ hash, byHash.getD hash [] = ((openPlaces old taken).filter (·.1.hash = hash)).map Prod.snd

theorem map_fst_openPlaces (old : List Node) (taken : List Bool) :
    (openPlaces old taken).map Prod.fst = untaken old taken := by
  -- The places count from zero, so the induction counts from anywhere.
  suffices h : ∀ k before, before.length = k →
      ((old.zipIdx k).filter fun place => (before ++ taken)[place.2]? = some false).map Prod.fst = untaken old taken
    from h 0 [] rfl
  unfold untaken
  induction old generalizing taken with
  | nil => simp
  | cons n old ih =>
      intro k before hk
      cases taken with
      | nil =>
          have hnone : ∀ place ∈ (n :: old).zipIdx k, ¬ (before ++ [])[place.2]? = some false := by
            rintro ⟨m, i⟩ hplace
            have hle := (List.mem_zipIdx hplace).1
            simp [List.getElem?_eq_none (show before.length ≤ i by omega)]
          rw [List.filter_eq_nil_iff.2 (by simpa using hnone)]
          simp
      | cons flag taken =>
          have hrest := ih taken (k + 1) (before ++ [flag]) (by simp [hk])
          rw [List.append_assoc, List.singleton_append] at hrest
          have hflag : (before ++ flag :: taken)[k]? = some flag := by simp [← hk]
          cases flag with
          | true => simpa [List.zipIdx_cons, hflag] using hrest
          | false => simpa [List.zipIdx_cons, hflag] using hrest

theorem nodup_openPlaces (old : List Node) (taken : List Bool) : ((openPlaces old taken).map Prod.snd).Nodup := by
  refine List.Nodup.sublist ((List.filter_sublist).map _) ?_
  rw [List.zipIdx_map_snd]
  exact List.nodup_range'

theorem openPlaces_set (old : List Node) (taken : List Bool) (i : Nat) :
    openPlaces old (taken.set i true) = (openPlaces old taken).filter (·.2 ≠ i) := by
  rw [openPlaces, openPlaces, List.filter_filter]
  refine List.filter_congr fun place _ => ?_
  rcases eq_or_ne i place.2 with rfl | hne
  · simp [List.getElem?_set]
  · simp [List.getElem?_set_ne hne, hne.symm]

theorem takeFirst_places {places : List (Node × Nat)} (hnodup : (places.map Prod.snd).Nodup) (hash : UInt64) :
    takeFirst hash (places.map Prod.fst) = (places.filter (·.1.hash = hash)).head?.map fun place =>
      (place.1, (places.filter (·.2 ≠ place.2)).map Prod.fst) := by
  induction places with
  | nil => rfl
  | cons place places ih =>
      rw [List.map_cons, List.nodup_cons] at hnodup
      obtain ⟨hnew, hnodup⟩ := hnodup
      have hothers : ∀ other ∈ places, other.2 ≠ place.2 :=
        fun other hother heq => hnew (heq ▸ List.mem_map_of_mem hother)
      rw [List.map_cons, takeFirst]
      by_cases hhash : place.1.hash = hash
      · have hkept : places.filter (·.2 ≠ place.2) = places := by simpa using hothers
        rw [if_pos hhash, List.filter_cons_of_pos (by simpa using hhash), List.head?_cons, Option.map_some,
          List.filter_cons_of_neg (by simp), hkept]
      · rw [if_neg hhash, ih hnodup, List.filter_cons_of_neg (by simpa using hhash), Option.map_map]
        refine Option.map_congr fun other hother => ?_
        have hmem := List.mem_of_mem_filter (List.mem_of_mem_head? hother)
        simp [(hothers other hmem).symm]

namespace Stacked

variable {old : List Node} {taken : List Bool} {byHash : Stacks} (h : Stacked old taken byHash)
  {hash : UInt64}

include h

/-- An empty stack: no sibling with the fingerprint is left. -/
theorem takeFirst_of_nil (hempty : byHash.getD hash [] = []) : takeFirst hash (untaken old taken) = none := by
  rw [h hash, List.map_eq_nil_iff] at hempty
  rw [← map_fst_openPlaces, takeFirst_places (nodup_openPlaces old taken), hempty]
  rfl

variable {place : Nat} {below : List Nat} (htop : byHash.getD hash [] = place :: below)

include htop

/-- The top of a stack is the first sibling with the fingerprint. -/
theorem takeFirst_of_cons : ∃ n, old[place]? = some n ∧ taken[place]? = some false ∧
    takeFirst hash (untaken old taken) = some (n, untaken old (taken.set place true)) := by
  rw [h hash] at htop
  obtain ⟨⟨n, i⟩, rest, hfilter, rfl, -⟩ := List.map_eq_cons_iff.1 htop
  have hmem : (n, i) ∈ openPlaces old taken :=
    List.mem_of_mem_filter (p := fun place => place.1.hash = hash) (by rw [hfilter]; exact List.mem_cons_self)
  obtain ⟨hplace, hfree⟩ := List.mem_filter.1 hmem
  refine ⟨n, by simpa using List.mk_mem_zipIdx_iff_getElem?.1 hplace, by simpa using hfree, ?_⟩
  rw [← map_fst_openPlaces, takeFirst_places (nodup_openPlaces old taken), hfilter, ← map_fst_openPlaces,
    openPlaces_set]
  rfl

/-- When it is popped and its flag is set, the stacks hold the places not taken again. -/
theorem pop : Stacked old (taken.set place true) (byHash.insert hash below) := by
  intro other
  have hstack := h hash
  rw [htop] at hstack
  obtain ⟨⟨n, i⟩, rest, hfilter, rfl, hbelow⟩ := List.map_eq_cons_iff.1 hstack.symm
  have hnodup := nodup_openPlaces old taken
  have htopMem : (n, i) ∈ (openPlaces old taken).filter (·.1.hash = hash) := by simp [hfilter]
  obtain ⟨htopOpen, hhash⟩ := List.mem_filter.1 htopMem
  rw [openPlaces_set, List.filter_comm, Std.HashMap.getD_insert]
  by_cases hother : hash = other
  · subst hother
    have hstackNodup := hnodup.sublist ((List.filter_sublist (p := fun place => place.1.hash = hash)).map _)
    rw [hfilter, List.map_cons, List.nodup_cons] at hstackNodup
    have hrest : rest.filter (·.2 ≠ i) = rest := by
      refine List.filter_eq_self.2 fun x hx => ?_
      have hne : x.2 ≠ i := fun heq => hstackNodup.1 (List.mem_map.2 ⟨x, hx, heq⟩)
      simpa using hne
    rw [if_pos (by simp), hfilter, List.filter_cons_of_neg (by simp), hrest, hbelow]
  · have hkept : ((openPlaces old taken).filter (·.1.hash = other)).filter (·.2 ≠ i) =
        (openPlaces old taken).filter (·.1.hash = other) := by
      refine List.filter_eq_self.2 fun x hx => ?_
      obtain ⟨hx, hxhash⟩ := List.mem_filter.1 hx
      have hne : x.2 ≠ i := by
        intro heq
        have hsame : x = (n, i) := List.inj_on_of_nodup_map hnodup hx htopOpen heq
        rw [hsame] at hxhash
        exact hother ((of_decide_eq_true hhash).symm.trans (of_decide_eq_true hxhash))
      simpa using hne
    rw [if_neg (by simpa using hother), h other, hkept]

end Stacked

theorem openPlaces_replicate (old : List Node) : openPlaces old (List.replicate old.length false) = old.zipIdx := by
  refine List.filter_eq_self.2 fun place hplace => ?_
  have hlt := (List.mem_zipIdx hplace).2.1
  simp [show place.2 < old.length by simpa using hlt]

theorem stacked_ofSiblings (old : List Node) :
    Stacked old (List.replicate old.length false) (.ofSiblings old) := by
  intro hash
  rw [openPlaces_replicate, Stacks.ofSiblings, List.foldl_reverse]
  induction old.zipIdx with
  | nil => simp
  | cons place places ih =>
      rw [List.foldr_cons, Stacks.push, Std.HashMap.getD_insert]
      by_cases hhash : place.1.hash = hash
      · subst hhash
        simp [ih]
      · simp [hhash, ih]

/-- Popping is taking by fingerprint: same partners, same siblings left, and a flag is set when one was taken. -/
theorem popAll_eq {old : List Node} {taken : List Bool} {byHash : Stacks} (h : Stacked old taken byHash)
    (new : List UInt64) :
    ((popAll byHash taken new).1.map fun place => place.bind (old[·]?)) = (takeWhole (untaken old taken) new).1 ∧
      untaken old (popAll byHash taken new).2 = (takeWhole (untaken old taken) new).2 ∧
      (popAll byHash taken new).2.any id =
        (taken.any id || (takeWhole (untaken old taken) new).1.any Option.isSome) := by
  induction new generalizing taken byHash with
  | nil => simp [popAll, takeWhole]
  | cons hash new ih =>
      rw [popAll, takeWhole]
      cases htop : byHash.getD hash [] with
      | nil =>
          obtain ⟨hfound, hleft, hany⟩ := ih h
          simp only [h.takeFirst_of_nil htop]
          exact ⟨by simp [hfound], hleft, by simpa using hany⟩
      | cons place below =>
          obtain ⟨n, hn, hfree, htake⟩ := h.takeFirst_of_cons htop
          obtain ⟨hfound, hleft, hany⟩ := ih (h.pop htop)
          simp only [htake]
          refine ⟨by simp [hfound, hn], hleft, ?_⟩
          have hlt : place < taken.length := (List.getElem?_eq_some_iff.1 hfree).1
          have hset : (taken.set place true).any id = true :=
            List.any_eq_true.2 ⟨true, List.mem_iff_getElem?.2 ⟨place, by simp [hlt]⟩, rfl⟩
          simp [hany, hset]

/-- Stacks and flags give every new sibling the partner it has. -/
theorem partnersByStacks_eq (old : List Node) (new : List UInt64) : partnersByStacks old new = partners old new := by
  obtain ⟨hfound, hleft, hany⟩ := popAll_eq (stacked_ofSiblings old) new
  have hall : untaken old (List.replicate old.length false) = old := by
    rw [← map_fst_openPlaces, openPlaces_replicate, List.zipIdx_map_fst]
  have hnone : (List.replicate old.length false).any id = false := by simp
  rw [hall] at hfound hleft hany
  rw [hnone, Bool.false_or] at hany
  simp only [partnersByStacks, partners, pairsLeft, hfound, hleft, hany]
  rfl

end Identity

end TreeEdit
