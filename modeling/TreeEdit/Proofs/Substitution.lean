import Mathlib
import TreeEdit.Proofs.Changes

/-!
# Changes made at once

A batch of changes can be made in a text exactly if every range is one of the text and no two ranges overlap
(`Admissible`). What comes of it is said here without any order of work: the text is walked over once, and at
each position stands what the changes put there and then the character, unless a change takes it up
(`substituted`). Insertions at one position stand in the reverse of their order in the batch, all of them in
front of the text of a change that starts there.

Applying the changes works from the end of the text, by offsets, on a sorted list of which only neighbours were
compared. Main statement: `applyChanges_eq_ok_iff_substituted`, the two are the same. A live text that is
changed in turn, by positions looked up in what has become of it, ends up the same too:
`writing_in_turn_reaches_applied_text`.
-/

namespace TreeEdit

/-! ## Ranges that overlap -/

namespace Span

/-- The range takes up the character behind the position. -/
def Takes (s : Span) (p : Pos) : Prop := s.start ≤ p ∧ p < s.stop

instance (s : Span) (p : Pos) : Decidable (s.Takes p) := inferInstanceAs (Decidable (_ ∧ _))

/-- The ranges take up a character together, or one of them is empty and strictly inside the other. -/
def Overlaps (a b : Span) : Prop :=
  (∃ p, a.Takes p ∧ b.Takes p) ∨ a.start = a.stop ∧ b.strictlyContains a.start ∨
    b.start = b.stop ∧ a.strictlyContains b.start

theorem strictlyContains_iff {s : Span} {p : Pos} : s.strictlyContains p = true ↔ s.start < p ∧ p < s.stop := by
  simp [strictlyContains]

theorem Overlaps.symm {a b : Span} (h : a.Overlaps b) : b.Overlaps a := by
  rcases h with ⟨p, ha, hb⟩ | h | h
  · exact .inl ⟨p, hb, ha⟩
  · exact .inr (.inr h)
  · exact .inr (.inl h)

/-- Ranges that do not overlap lie one behind the other. -/
theorem not_overlaps_iff {a b : Span} (ha : a.start ≤ a.stop) (hb : b.start ≤ b.stop) :
    ¬ a.Overlaps b ↔ a.stop ≤ b.start ∨ b.stop ≤ a.start := by
  constructor
  · intro h
    by_contra hcross
    rw [not_or, not_le, not_le] at hcross
    obtain ⟨hab, hba⟩ := hcross
    apply h
    rcases ha.eq_or_lt with hempty | hproper
    · exact .inr (.inl ⟨hempty, strictlyContains_iff.2 ⟨hempty ▸ hab, hba⟩⟩)
    · rcases hb.eq_or_lt with hempty' | hproper'
      · exact .inr (.inr ⟨hempty', strictlyContains_iff.2 ⟨hempty' ▸ hba, hab⟩⟩)
      · -- The later of the two starts is in both.
        exact .inl ⟨max a.start b.start, ⟨le_max_left _ _, max_lt hproper hab⟩, le_max_right _ _,
          max_lt hba hproper'⟩
  · intro hle hover
    have hcross : b.start < a.stop ∧ a.start < b.stop := by
      rcases hover with ⟨p, ⟨ha, ha'⟩, hb, hb'⟩ | ⟨hempty, hin⟩ | ⟨hempty, hin⟩
      · exact ⟨hb.trans_lt ha', ha.trans_lt hb'⟩
      · rw [strictlyContains_iff] at hin
        exact ⟨hempty ▸ hin.1, hin.2⟩
      · rw [strictlyContains_iff] at hin
        exact ⟨hin.2, hempty ▸ hin.1⟩
    rcases hle with hle | hle
    · exact absurd hcross.1 (not_lt.2 hle)
    · exact absurd hcross.2 (not_lt.2 hle)

end Span

/-- The position is one of the text: some of its first characters lead there. -/
def Pos.IsIn (p : Pos) (text : String) : Prop :=
  ∃ before behind, before ++ behind = text.toList ∧ zero.advanceOver before = p

/-- The ranges of a text are those between two of its positions. -/
theorem exists_around_iff {text : String} {span : Span} :
    (∃ parts, around text span = .ok parts) ↔
      span.start ≤ span.stop ∧ span.start.IsIn text ∧ span.stop.IsIn text := by
  constructor
  · rintro ⟨⟨a, inside, rest⟩, h⟩
    obtain ⟨htext, hstart, hstop⟩ := around_eq_ok_iff.1 h
    refine ⟨?_, ⟨a, inside ++ rest, by rw [← htext, List.append_assoc], hstart⟩, a ++ inside, rest, htext, hstop⟩
    rw [← hstart, ← hstop, Pos.advanceOver_append]
    exact Pos.le_advanceOver _ _
  · rintro ⟨hle, ⟨a, x, hax, hstart⟩, b, rest, hbr, hstop⟩
    rw [around, if_neg (not_lt.2 hle), cut?_eq_some_iff.2 ⟨hax, hstart⟩, cut?_eq_some_iff.2 ⟨hbr, hstop⟩]
    exact ⟨_, rfl⟩

/-- The changes can be made in the text together. -/
structure Admissible (text : String) (changes : List TextChange) : Prop where
  ordered : ∀ c ∈ changes, c.start ≤ c.stop
  inside : ∀ c ∈ changes, c.start.IsIn text ∧ c.stop.IsIn text
  apart : changes.Pairwise fun a b => ¬ a.span.Overlaps b.span

/-! ## Substitution -/

/-- What the changes put at a position. -/
def arriving (changes : List TextChange) (p : Pos) : List Char :=
  ((changes.filter fun c => c.start = p ∧ c.stop = p).reverse ++
    changes.filter fun c => c.start = p ∧ p < c.stop).flatMap (·.text.toList)

/-- The characters from a position on, each with what arrives in front of it, less those that are taken up. -/
def passing (changes : List TextChange) : Pos → List Char → List Char
  | _, [] => []
  | p, c :: cs =>
    arriving changes p ++
      ((if ∃ d ∈ changes, d.span.Takes p then [] else [c]) ++ passing changes (p.advance c) cs)

/-- The characters from a position on with all changes made at once. -/
def substituted (changes : List TextChange) (p : Pos) (cs : List Char) : List Char :=
  passing changes p cs ++ arriving changes (p.advanceOver cs)

section Substitution

variable {changes : List TextChange} {d : TextChange}

theorem arriving_eq_nil {p : Pos} (h : ∀ c ∈ changes, c.start ≠ p) : arriving changes p = [] := by
  have hempty : (changes.filter fun c => c.start = p ∧ c.stop = p) = [] := by
    simp only [List.filter_eq_nil_iff, decide_eq_true_eq]
    exact fun c hc hp => h c hc hp.1
  have hproper : (changes.filter fun c => c.start = p ∧ p < c.stop) = [] := by
    simp only [List.filter_eq_nil_iff, decide_eq_true_eq]
    exact fun c hc hp => h c hc hp.1
  rw [arriving, hempty, hproper]
  rfl

theorem arriving_cons_of_ne {p : Pos} (h : d.start ≠ p) : arriving (d :: changes) p = arriving changes p := by
  simp [arriving, h]

/-- Behind all that ends there, the text of a change is the last to arrive at its start. -/
theorem arriving_cons_self (hd : d.start ≤ d.stop) (h : ∀ c ∈ changes, c.stop ≤ d.start) :
    arriving (d :: changes) d.start = arriving changes d.start ++ d.text.toList := by
  have hproper : (changes.filter fun c => c.start = d.start ∧ d.start < c.stop) = [] := by
    simp only [List.filter_eq_nil_iff, decide_eq_true_eq]
    exact fun c hc hp => absurd hp.2 (not_lt.2 (h c hc))
  rcases hd.eq_or_lt with hempty | hlt
  · rw [arriving, List.filter_cons_of_pos (by simp [← hempty]), List.filter_cons_of_neg (by simp [← hempty]),
      arriving, hproper]
    simp
  · rw [arriving, List.filter_cons_of_neg (by simp [hlt.ne']), List.filter_cons_of_pos (by simp [hlt]), arriving,
      hproper]
    simp

theorem passing_append (p : Pos) (a b : List Char) :
    passing changes p (a ++ b) = passing changes p a ++ passing changes (p.advanceOver a) b := by
  induction a generalizing p with
  | nil => rfl
  | cons c a ih => simp [passing, ih]

theorem substituted_append (p : Pos) (a b : List Char) :
    substituted changes p (a ++ b) = passing changes p a ++ substituted changes (p.advanceOver a) b := by
  rw [substituted, passing_append, substituted, Pos.advanceOver_append, List.append_assoc]

theorem substituted_cons (p : Pos) (c : Char) (cs : List Char) :
    substituted changes p (c :: cs) = arriving changes p ++
      ((if ∃ d ∈ changes, d.span.Takes p then [] else [c]) ++ substituted changes (p.advance c) cs) := by
  simp [substituted, passing]

theorem substituted_nil (p : Pos) (cs : List Char) : substituted [] p cs = cs := by
  induction cs generalizing p with
  | nil => rfl
  | cons c cs ih => simp [substituted_cons, arriving, ih]

/-- A change has no part in what stands before its range. -/
theorem passing_cons_of_le {p : Pos} {cs : List Char} (h : p.advanceOver cs ≤ d.start) :
    passing (d :: changes) p cs = passing changes p cs := by
  induction cs generalizing p with
  | nil => rfl
  | cons c cs ih =>
      have hlt : p < d.start := ((p.lt_advance c).trans_le (Pos.le_advanceOver _ cs)).trans_le h
      have htakes : ¬ d.span.Takes p := fun htakes => absurd htakes.1 (not_le.2 hlt)
      simp only [passing, arriving_cons_of_ne hlt.ne', List.exists_mem_cons_iff, htakes, false_or, ih h]

/-- Behind all changes the text is as it was, with what arrives in front of it. -/
theorem substituted_of_le {p : Pos} (h : ∀ c ∈ changes, c.start ≤ p ∧ c.stop ≤ p) (cs : List Char) :
    substituted changes p cs = arriving changes p ++ cs := by
  induction cs generalizing p with
  | nil => rw [substituted, passing, List.nil_append, List.append_nil, Pos.advanceOver_nil]
  | cons c cs ih =>
      have hlt := p.lt_advance c
      have hfree : ¬ ∃ d ∈ changes, d.span.Takes p := by
        rintro ⟨d, hd, -, hstop⟩
        exact absurd hstop (not_lt.2 (h d hd).2)
      have hnone : arriving changes (p.advance c) = [] :=
        arriving_eq_nil fun d hd => ((h d hd).1.trans_lt hlt).ne
      have hrest := ih fun d hd => ⟨(h d hd).1.trans hlt.le, (h d hd).2.trans hlt.le⟩
      rw [substituted_cons, if_neg hfree, hrest, hnone]
      rfl

/-- Inside the range of a change, and behind it, nothing is left but what follows the range. -/
theorem substituted_of_taken (h : ∀ c ∈ changes, c.start ≤ d.start ∧ c.stop ≤ d.start) {p : Pos} {cs : List Char}
    (hp : d.start < p) (hstop : p.advanceOver cs = d.stop) (rest : List Char) :
    substituted (d :: changes) p (cs ++ rest) = rest := by
  have hnone : ∀ {q}, d.start < q → arriving (d :: changes) q = [] := by
    intro q hq
    refine arriving_eq_nil (List.forall_mem_cons.2 ⟨hq.ne, fun c hc => ?_⟩)
    exact ((h c hc).1.trans_lt hq).ne
  induction cs generalizing p with
  | nil =>
      have hall : ∀ c ∈ d :: changes, c.start ≤ p ∧ c.stop ≤ p := by
        refine List.forall_mem_cons.2 ⟨⟨hp.le, hstop.ge⟩, fun c hc => ?_⟩
        exact ⟨(h c hc).1.trans hp.le, (h c hc).2.trans hp.le⟩
      rw [List.nil_append, substituted_of_le hall, hnone hp, List.nil_append]
  | cons c cs ih =>
      have hlt := p.lt_advance c
      have htaken : ∃ e ∈ d :: changes, e.span.Takes p := by
        refine ⟨d, List.mem_cons_self, hp.le, ?_⟩
        show p < d.stop
        rw [← hstop]
        exact hlt.trans_le (Pos.le_advanceOver _ cs)
      rw [List.cons_append, substituted_cons, hnone hp, if_pos htaken, ih (hp.trans hlt) hstop]
      rfl

/-- The latest of the changes replaces its range; the others are made in what stands before it. -/
theorem substituted_cons_changes (hchanges : ∀ c ∈ changes, c.start ≤ c.stop ∧ c.stop ≤ d.start)
    {before inside rest : List Char} (hstart : Pos.zero.advanceOver before = d.start)
    (hstop : Pos.zero.advanceOver (before ++ inside) = d.stop) :
    substituted (d :: changes) .zero (before ++ inside ++ rest) =
      substituted changes .zero before ++ d.text.toList ++ rest := by
  have hbefore : ∀ c ∈ changes, c.start ≤ d.start ∧ c.stop ≤ d.start := fun c hc =>
    ⟨(hchanges c hc).1.trans (hchanges c hc).2, (hchanges c hc).2⟩
  rw [Pos.advanceOver_append, hstart] at hstop
  have hle : d.start ≤ d.stop := hstop ▸ Pos.le_advanceOver _ _
  have harrive := arriving_cons_self hle fun c hc => (hbefore c hc).2
  have hfront : substituted changes .zero before = passing changes .zero before ++ arriving changes d.start := by
    rw [substituted, hstart]
  rw [List.append_assoc, substituted_append, passing_cons_of_le hstart.le, hstart, hfront]
  cases inside with
  | nil =>
      have hall : ∀ c ∈ d :: changes, c.start ≤ d.start ∧ c.stop ≤ d.start :=
        List.forall_mem_cons.2 ⟨⟨le_refl _, hstop.ge⟩, hbefore⟩
      rw [List.nil_append, substituted_of_le hall, harrive]
      simp
  | cons c inside =>
      have htaken : ∃ e ∈ d :: changes, e.span.Takes d.start := by
        refine ⟨d, List.mem_cons_self, le_refl _, ?_⟩
        show d.start < d.stop
        rw [← hstop]
        exact Pos.lt_advanceOver (List.cons_ne_nil c inside) _
      rw [List.cons_append, substituted_cons, if_pos htaken, harrive,
        substituted_of_taken hbefore (Pos.lt_advance _ c) hstop]
      simp

end Substitution

/-! ## The changes in order -/

/-- Only neighbours are compared, but ranges in the right direction then lie one behind the other. -/
theorem pairwise_of_refuseOverlap {changes : List TextChange} (hordered : ∀ c ∈ changes, c.start ≤ c.stop)
    (h : refuseOverlap changes = .ok ()) :
    changes.Pairwise fun later earlier => earlier.stop ≤ later.start := by
  induction changes with
  | nil => exact .nil
  | cons later rest ih =>
      obtain ⟨hnext, hrest⟩ := refuseOverlap_cons h
      obtain ⟨-, hordered⟩ := List.forall_mem_cons.1 hordered
      have hpairs := ih hordered hrest
      refine List.pairwise_cons.2 ⟨fun c hc => ?_, hpairs⟩
      cases rest with
      | nil => cases hc
      | cons next rest =>
          have hle : next.stop ≤ later.start := hnext next rfl
          rcases List.mem_cons.1 hc with rfl | hc
          · exact hle
          · calc c.stop
              _ ≤ next.start := (List.pairwise_cons.1 hpairs).1 c hc
              _ ≤ next.stop := hordered next List.mem_cons_self
              _ ≤ later.start := hle

theorem latestFirst_perm (changes : List TextChange) : (latestFirst changes).Perm changes :=
  List.mergeSort_perm _ _

/-- Of two ranges that do not overlap the one that comes first ends where the other starts, or before. -/
theorem stop_le_of_apart {a b : Span} (ha : a.start ≤ a.stop) (hb : b.start ≤ b.stop) (hapart : ¬ a.Overlaps b)
    (hle : rangeLe a b = true) : a.stop ≤ b.start := by
  rcases (Span.not_overlaps_iff ha hb).1 hapart with hstop | hstop
  · exact hstop
  · -- The later one is empty and they start together, so the earlier one is empty too.
    simp only [rangeLe, Bool.or_eq_true, Bool.and_eq_true, decide_eq_true_eq] at hle
    rcases hle with hlt | ⟨heq, hle⟩
    · exact absurd hlt (not_lt.2 (hb.trans hstop))
    · exact hle.trans (hstop.trans heq.le)

/-- Changes do not overlap exactly if, latest first, each ends where the ones before it start, or earlier. -/
theorem apart_iff_latestFirst {changes : List TextChange} (hordered : ∀ c ∈ changes, c.start ≤ c.stop) :
    (changes.Pairwise fun a b => ¬ a.span.Overlaps b.span) ↔
      (latestFirst changes).Pairwise fun later earlier => earlier.stop ≤ later.start := by
  have hperm := latestFirst_perm changes
  have hsorted : ∀ c ∈ latestFirst changes, c.start ≤ c.stop := fun c hc => hordered c (hperm.subset hc)
  rw [← hperm.pairwise_iff fun hab hba => hab hba.symm]
  constructor
  · intro hapart
    refine (hapart.and (latestFirst_pairwise changes)).imp_of_mem ?_
    rintro a b ha hb ⟨hab, hle⟩
    exact stop_le_of_apart (hsorted b hb) (hsorted a ha) (fun hover => hab hover.symm) hle
  · intro hpairs
    refine hpairs.imp_of_mem fun {a b} ha hb hab => ?_
    exact (Span.not_overlaps_iff (hsorted a ha) (hsorted b hb)).2 (.inr hab)

/-- Sorting by range, latest first, keeps what is in order already in its order. -/
theorem filter_mergeSort_range {α : Type} (range : α → Span) (as : List α) (P : α → Bool)
    (h : (as.filter P).Pairwise fun a b => rangeLe (range b) (range a) = true) :
    (as.mergeSort fun a b => rangeLe (range b) (range a)).filter P = as.filter P := by
  have hsub : (as.filter P).Sublist (as.mergeSort fun a b => rangeLe (range b) (range a)) := by
    refine List.sublist_mergeSort ?_ ?_ h List.filter_sublist
    · exact fun a b c hab hbc => rangeLe_trans hbc hab
    · exact fun a b => rangeLe_total (range b) (range a)
  have hfiltered := hsub.filter P
  rw [List.filter_filter] at hfiltered
  simp only [Bool.and_self] at hfiltered
  exact (hfiltered.eq_of_length ((List.mergeSort_perm as _).filter P).length_eq.symm).symm

theorem filter_latestFirst (changes : List TextChange) (P : TextChange → Bool)
    (h : (changes.filter P).Pairwise fun a b => rangeLe b.span a.span = true) :
    (latestFirst changes).filter P = changes.filter P :=
  filter_mergeSort_range TextChange.span changes P h

theorem substituted_latestFirst {changes : List TextChange}
    (hapart : changes.Pairwise fun a b => ¬ a.span.Overlaps b.span) (p : Pos) (cs : List Char) :
    substituted (latestFirst changes) p cs = substituted changes p cs := by
  have harrive : ∀ q, arriving (latestFirst changes) q = arriving changes q := by
    intro q
    have hempty := filter_latestFirst changes (fun c => c.start = q ∧ c.stop = q) (by
      refine List.pairwise_of_forall_mem_list fun a ha b hb => ?_
      simp only [List.mem_filter, decide_eq_true_eq] at ha hb
      simp [rangeLe, TextChange.span, ha.2.1, ha.2.2, hb.2.1, hb.2.2])
    have hproper := filter_latestFirst changes (fun c => c.start = q ∧ q < c.stop) (by
      refine (hapart.filter _).imp_of_mem fun {a b} ha hb hab => ?_
      simp only [List.mem_filter, decide_eq_true_eq] at ha hb
      exact absurd (.inl ⟨q, ⟨ha.2.1.le, ha.2.2⟩, hb.2.1.le, hb.2.2⟩) hab)
    rw [arriving, hempty, hproper, arriving]
  have hmem : ∀ d, d ∈ latestFirst changes ↔ d ∈ changes := fun d => (latestFirst_perm changes).mem_iff
  have hpass : passing (latestFirst changes) p cs = passing changes p cs := by
    induction cs generalizing p with
    | nil => rfl
    | cons c cs ih => simp only [passing, harrive, hmem, ih]
  rw [substituted, hpass, harrive, substituted]

/-! ## Splices from the end of the text -/

/-- The splices of changes that lie one behind the other, latest first, made in a text. `common` is the
untouched beginning that the text still shares with the one the changes were resolved in. -/
theorem foldl_splices {text : String} {changes : List TextChange} {splices : List Splice}
    (hordered : ∀ c ∈ changes, c.start ≤ c.stop)
    (hpairs : changes.Pairwise fun later earlier => earlier.stop ≤ later.start)
    (hres : changes.mapM (Splice.resolve text) = .ok splices) {common x : List Char} (y : List Char)
    (htext : text.toList = common ++ x) (hfirst : ∀ c ∈ changes, c.stop ≤ Pos.zero.advanceOver common) :
    splices.foldl Splice.apply (common ++ y) = substituted changes .zero common ++ y := by
  induction changes generalizing splices common x y with
  | nil =>
      cases hres
      rw [substituted_nil]
      rfl
  | cons c rest ih =>
      obtain ⟨hlater, hpairs⟩ := List.pairwise_cons.1 hpairs
      obtain ⟨s, more, hs, hmore, rfl⟩ := mapM_cons_eq_ok.1 hres
      obtain ⟨a, inside, after, haround, rfl⟩ := Splice.resolve_eq_ok_iff.1 hs
      obtain ⟨gap, rfl, -⟩ := around_of_prefix haround htext htext (hfirst c List.mem_cons_self)
      obtain ⟨-, hstart, hstop⟩ := around_eq_ok_iff.1 haround
      obtain ⟨-, hordered⟩ := List.forall_mem_cons.1 hordered
      have hbefore : text.toList = a ++ (inside ++ gap ++ x) := by
        rw [htext]
        simp
      have hchanges : ∀ d ∈ rest, d.start ≤ d.stop ∧ d.stop ≤ c.start := fun d hd => ⟨hordered d hd, hlater d hd⟩
      rw [List.foldl_cons, List.append_assoc _ gap, Splice.apply_parts, List.append_assoc,
        ih hordered hpairs hmore _ hbefore (fun d hd => hstart.symm ▸ hlater d hd),
        substituted_cons_changes hchanges hstart hstop]
      simp

/-- Changes are resolved in a text exactly if each of their ranges is one of the text. -/
theorem exists_resolved_iff {text : String} {changes : List TextChange} :
    (∃ splices, changes.mapM (Splice.resolve text) = .ok splices) ↔
      ∀ c ∈ changes, ∃ parts, around text c.span = .ok parts := by
  induction changes with
  | nil => exact ⟨fun _ => List.forall_mem_nil _, fun _ => ⟨[], rfl⟩⟩
  | cons c rest ih =>
      rw [List.forall_mem_cons, ← ih]
      constructor
      · rintro ⟨splices, h⟩
        obtain ⟨s, more, hs, hmore, -⟩ := mapM_cons_eq_ok.1 h
        obtain ⟨a, inside, after, haround, -⟩ := Splice.resolve_eq_ok_iff.1 hs
        exact ⟨⟨_, haround⟩, more, hmore⟩
      · rintro ⟨⟨⟨a, inside, after⟩, haround⟩, more, hmore⟩
        have hs := Splice.resolve_eq_ok_iff.2 ⟨a, inside, after, haround, rfl⟩
        exact ⟨_, mapM_cons_eq_ok.2 ⟨_, more, hs, hmore, rfl⟩⟩

theorem admissible_iff {text : String} {changes : List TextChange} :
    Admissible text changes ↔ (∀ c ∈ changes, ∃ parts, around text c.span = .ok parts) ∧
      changes.Pairwise fun a b => ¬ a.span.Overlaps b.span := by
  simp only [exists_around_iff]
  constructor
  · intro h
    exact ⟨fun c hc => ⟨h.ordered c hc, h.inside c hc⟩, h.apart⟩
  · rintro ⟨hranges, hapart⟩
    exact ⟨fun c hc => (hranges c hc).1, fun c hc => (hranges c hc).2, hapart⟩

/-- Applying changes is substitution at once, wherever it is possible. -/
theorem applyChanges_eq_ok_iff_substituted {text new : String} {changes : List TextChange} :
    applyChanges text changes = .ok new ↔
      Admissible text changes ∧ new = String.ofList (substituted changes .zero text.toList) := by
  have hperm := latestFirst_perm changes
  rw [applyChanges_eq_ok_iff, admissible_iff]
  -- Both sides speak of ranges of the text, which run forwards; that is what the comparison of neighbours needs.
  have hforwards : (∀ c ∈ changes, ∃ parts, around text c.span = .ok parts) →
      (∀ c ∈ changes, c.start ≤ c.stop) ∧ ∀ c ∈ latestFirst changes, c.start ≤ c.stop := by
    intro hranges
    have hchanges : ∀ c ∈ changes, c.start ≤ c.stop := fun c hc => (exists_around_iff.1 (hranges c hc)).1
    exact ⟨hchanges, fun c hc => hchanges c (hperm.subset hc)⟩
  have houtcome : ∀ {splices}, (latestFirst changes).mapM (Splice.resolve text) = .ok splices →
      (∀ c ∈ changes, ∃ parts, around text c.span = .ok parts) →
      (changes.Pairwise fun a b => ¬ a.span.Overlaps b.span) →
      splices.foldl Splice.apply text.toList = substituted changes .zero text.toList := by
    intro splices hres hranges hapart
    obtain ⟨hchanges, hsorted⟩ := hforwards hranges
    have hfold := foldl_splices hsorted ((apart_iff_latestFirst hchanges).1 hapart) hres []
      (List.append_nil _).symm fun c hc => ?_
    · rwa [List.append_nil, List.append_nil, substituted_latestFirst hapart] at hfold
    · obtain ⟨⟨a, inside, after⟩, haround⟩ := hranges c (hperm.subset hc)
      exact around_stop_le haround
  constructor
  · rintro ⟨hover, splices, hres, rfl⟩
    have hranges : ∀ c ∈ changes, ∃ parts, around text c.span = .ok parts := fun c hc =>
      exists_resolved_iff.1 ⟨splices, hres⟩ c (hperm.mem_iff.2 hc)
    obtain ⟨hchanges, hsorted⟩ := hforwards hranges
    have hapart := (apart_iff_latestFirst hchanges).2 (pairwise_of_refuseOverlap hsorted hover)
    exact ⟨⟨hranges, hapart⟩, congrArg String.ofList (houtcome hres hranges hapart)⟩
  · rintro ⟨⟨hranges, hapart⟩, rfl⟩
    obtain ⟨splices, hres⟩ := exists_resolved_iff.2 fun c hc => hranges c (hperm.subset hc)
    have hpairs := (apart_iff_latestFirst (hforwards hranges).1).1 hapart
    exact ⟨refuseOverlap_of_pairwise hpairs, splices, hres,
      congrArg String.ofList (houtcome hres hranges hapart).symm⟩

/-! ## Changes written one after the other -/

theorem offset?_of_around {text : String} {span : Span} {a inside rest : List Char}
    (h : around text span = .ok (a, inside, rest)) :
    offset? text span.start = some (byteSize a) ∧ offset? text span.stop = some (byteSize (a ++ inside)) := by
  obtain ⟨htext, hstart, hstop⟩ := around_eq_ok_iff.1 h
  rw [offset?, before?, cut?_eq_some_iff.2 ⟨(List.append_assoc _ _ _).symm.trans htext, hstart⟩, offset?, before?,
    cut?_eq_some_iff.2 ⟨htext, hstop⟩]
  exact ⟨rfl, rfl⟩

/-- Some changes of a batch written to a text: the next one is still to be found where it was. -/
theorem exists_written {text : String} {done rest : List TextChange} {c : TextChange}
    (hover : refuseOverlap (done ++ c :: rest) = .ok ())
    (hranges : ∀ d ∈ done ++ c :: rest, ∃ parts, around text d.span = .ok parts) {now : String}
    {common x y : List Char} (htext : text.toList = common ++ x) (hnow : now.toList = common ++ y)
    (hfirst : ∀ d ∈ (done ++ c :: rest).head?, d.stop ≤ Pos.zero.advanceOver common) :
    ∃ later shared x y, Session.writeAll now done = (.ok (), later) ∧ text.toList = shared ++ x ∧
      later.toList = shared ++ y ∧ c.stop ≤ Pos.zero.advanceOver shared := by
  induction done generalizing now common x y with
  | nil => exact ⟨now, common, x, y, rfl, htext, hnow, hfirst c rfl⟩
  | cons d done ih =>
      obtain ⟨hnext, hover⟩ := refuseOverlap_cons hover
      obtain ⟨⟨⟨a, inside, after⟩, haround⟩, hranges⟩ := List.forall_mem_cons.1 hranges
      obtain ⟨behind, ahead, next, hreplace, hbefore, hafter, -⟩ :=
        replace_of_common haround htext hnow (hfirst d rfl)
      have hstart : Pos.zero.advanceOver a = d.start := (around_eq_ok_iff.1 haround).2.1
      rw [Session.writeAll, hreplace]
      exact ih hover hranges hbefore hafter (by rw [hstart]; exact hnext)

/-- Writing the changes in turn, each by where its range is in the text of that moment, reaches the text that
applying them gives. No change is moved by the ones before it: its ends keep their offsets. -/
theorem writing_in_turn_reaches_applied_text {text new : String} {changes : List TextChange}
    (h : applyChanges text changes = .ok new) :
    Session.writeAll text (latestFirst changes) = (.ok (), new) ∧
      ∀ done c rest, latestFirst changes = done ++ c :: rest →
        ∃ now next, Session.writeAll text done = (.ok (), now) ∧ TextBuffer.replace now c.text c.span = (.ok (), next) ∧
          ∃ start stop, offset? text c.start = some start ∧ offset? now c.start = some start ∧
            offset? text c.stop = some stop ∧ offset? now c.stop = some stop := by
  refine ⟨writeAll_of_applyChanges h, fun done c rest hsorted => ?_⟩
  obtain ⟨hover, splices, hres, -⟩ := applyChanges_eq_ok_iff.1 h
  rw [hsorted] at hover hres
  have hranges := exists_resolved_iff.1 ⟨splices, hres⟩
  have hwhole : text.toList = text.toList ++ [] := (List.append_nil _).symm
  have hfirst : ∀ d ∈ (done ++ c :: rest).head?, d.stop ≤ Pos.zero.advanceOver text.toList := by
    intro d hd
    obtain ⟨⟨a, inside, after⟩, haround⟩ := hranges d (List.mem_of_mem_head? hd)
    exact around_stop_le haround
  obtain ⟨now, shared, x, y, hnow, htext, hshared, hstop⟩ := exists_written hover hranges hwhole hwhole hfirst
  obtain ⟨⟨a, inside, after⟩, haround⟩ := hranges c (by simp)
  obtain ⟨-, -, next, hreplace, -⟩ := replace_of_common haround htext hshared hstop
  obtain ⟨gap, -, hthere⟩ := around_of_prefix haround htext hshared hstop
  obtain ⟨hstart, hstop⟩ := offset?_of_around haround
  obtain ⟨hstart', hstop'⟩ := offset?_of_around hthere
  exact ⟨now, next, hnow, hreplace, _, _, hstart, hstart', hstop, hstop'⟩

/-- Two insertions in front of a range that crosses a line end, and a change right behind it that adds one. -/
theorem writing_in_turn_across_lines :
    let changes := [⟨⟨0, 1⟩, ⟨0, 1⟩, "1"⟩, ⟨⟨1, 1⟩, ⟨1, 2⟩, "d\ne"⟩, ⟨⟨0, 1⟩, ⟨1, 1⟩, "é"⟩, ⟨⟨0, 1⟩, ⟨0, 1⟩, "2"⟩]
    applyChanges "ab\nλc" changes = .ok "a21éd\ne" ∧
      Session.writeAll "ab\nλc" (latestFirst changes) = (.ok (), "a21éd\ne") := by
  have h : applyChanges "ab\nλc" [⟨⟨0, 1⟩, ⟨0, 1⟩, "1"⟩, ⟨⟨1, 1⟩, ⟨1, 2⟩, "d\ne"⟩, ⟨⟨0, 1⟩, ⟨1, 1⟩, "é"⟩,
      ⟨⟨0, 1⟩, ⟨0, 1⟩, "2"⟩] = .ok "a21éd\ne" := by
    cbv
  exact ⟨h, (writing_in_turn_reaches_applied_text h).1⟩

end TreeEdit
