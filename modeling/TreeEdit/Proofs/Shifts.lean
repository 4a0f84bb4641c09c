import TreeEdit.Proofs.Offsets
import TreeEdit.Proofs.Substitution

/-!
# How far changes shift what stands behind them

The focus after a commit is looked for where the last inserted text ends in the new document. That place is not
looked up but counted: from the offset of the change in the old text, by how many bytes each change before it
makes the text longer. `byteSize_substituted` says that these numbers add up to the size of the text with the
changes made, whatever the order of the changes.

Main statement: `Focus.endOffset_at_end_of_insertion`. Behind the place that is counted out stands what was
behind the range of the change, less what later changes take away. Texts inserted at one position stand in the
new text in another order than they are counted in, which makes no difference to the sum.
-/

namespace TreeEdit

/-! ## What later changes leave -/

/-- The characters from a position on that no change takes up. -/
def remaining (changes : List TextChange) : Pos → List Char → List Char
  | _, [] => []
  | p, c :: cs => (if ∃ d ∈ changes, d.span.Takes p then [] else [c]) ++ remaining changes (p.advance c) cs

section Remaining

variable {changes : List TextChange} {p : Pos}

theorem remaining_congr {changes' : List TextChange}
    (h : ∀ q, p ≤ q → ((∃ d ∈ changes, d.span.Takes q) ↔ ∃ d ∈ changes', d.span.Takes q)) (cs : List Char) :
    remaining changes p cs = remaining changes' p cs := by
  induction cs generalizing p with
  | nil => rfl
  | cons c cs ih =>
      have hrest := ih fun q hq => h q ((p.lt_advance c).le.trans hq)
      rw [remaining, remaining, hrest]
      simp only [h p (le_refl p)]

/-- Changes without text make no difference to what arrives. -/
theorem arriving_filter {P : TextChange → Bool} (h : ∀ c ∈ changes, P c = false → c.start = p → c.text = "") :
    arriving (changes.filter P) p = arriving changes p := by
  have hkept : ∀ {Q : TextChange → Bool} {cs : List TextChange}, (∀ c, Q c = true → c.start = p) →
      (∀ c ∈ cs, c ∈ changes) →
      ((cs.filter P).filter Q).flatMap (·.text.toList) = (cs.filter Q).flatMap (·.text.toList) := by
    intro Q cs hQ hcs
    induction cs with
    | nil => rfl
    | cons c cs ih =>
        obtain ⟨hc, hcs⟩ := List.forall_mem_cons.1 hcs
        cases hPc : P c with
        | true => cases hQc : Q c <;> simp only [List.filter_cons, hPc, hQc, if_true, Bool.false_eq_true, if_false,
            List.flatMap_cons, ih hcs]
        | false =>
            rw [List.filter_cons_of_neg (by simp [hPc]), ih hcs]
            cases hQc : Q c with
            | true => simp [hQc, h c hc hPc (hQ c hQc)]
            | false => simp [hQc]
  have hempty : ∀ c : TextChange, decide (c.start = p ∧ c.stop = p) = true → c.start = p := by
    intro c hc
    exact (of_decide_eq_true hc).1
  have hproper : ∀ c : TextChange, decide (c.start = p ∧ p < c.stop) = true → c.start = p := by
    intro c hc
    exact (of_decide_eq_true hc).1
  rw [arriving, arriving, List.flatMap_append, List.flatMap_append, ← List.filter_reverse, ← List.filter_reverse,
    ← List.filter_reverse, hkept hempty fun c hc => List.mem_reverse.1 hc, hkept hproper fun c hc => hc]

/-- Changes without text that start at the end of a text or behind it have no part in what becomes of it. -/
theorem substituted_filter {P : TextChange → Bool} {cs : List Char}
    (h : ∀ c ∈ changes, P c = false → p.advanceOver cs ≤ c.start ∧ c.text = "") :
    substituted (changes.filter P) p cs = substituted changes p cs := by
  have harrive : ∀ q, arriving (changes.filter P) q = arriving changes q :=
    fun q => arriving_filter fun c hc hP _ => (h c hc hP).2
  have hpass : passing (changes.filter P) p cs = passing changes p cs := by
    induction cs generalizing p with
    | nil => rfl
    | cons c cs ih =>
        have hlt : p < p.advanceOver (c :: cs) := Pos.lt_advanceOver (List.cons_ne_nil c cs) p
        have htakes : (∃ d ∈ changes.filter P, d.span.Takes p) ↔ ∃ d ∈ changes, d.span.Takes p := by
          constructor
          · rintro ⟨d, hd, htakes⟩
            exact ⟨d, (List.mem_filter.1 hd).1, htakes⟩
          · rintro ⟨d, hd, htakes⟩
            cases hP : P d with
            | true => exact ⟨d, List.mem_filter.2 ⟨hd, hP⟩, htakes⟩
            | false => exact absurd htakes.1 (not_le.2 (hlt.trans_le (h d hd hP).1))
        rw [passing, passing, harrive, ih h]
        simp only [htakes]
  rw [substituted, substituted, hpass, harrive]

/-- If only deletions start behind a position, what arrives there is in front of what they leave. -/
theorem substituted_of_deletions (h : ∀ c ∈ changes, p < c.start → c.text = "") (cs : List Char) :
    substituted changes p cs = arriving changes p ++ remaining changes p cs := by
  induction cs generalizing p with
  | nil => rw [substituted, passing, remaining, List.nil_append, List.append_nil, Pos.advanceOver_nil]
  | cons c cs ih =>
      have hlt := p.lt_advance c
      have hnone : arriving changes (p.advance c) = [] := by
        rw [← arriving_filter (P := fun _ => false) fun d hd _ hstart => h d hd (hstart ▸ hlt)]
        simp [arriving]
      rw [substituted_cons, remaining, ih fun d hd hstart => h d hd (hlt.trans hstart), hnone, List.nil_append]

end Remaining

/-! ## Sizes of changed texts -/

/-- A change makes the text longer by its own text and shorter by its range. -/
theorem Focus.growth_of_around {text : String} {c : TextChange} {before inside rest : List Char}
    (h : around text c.span = .ok (before, inside, rest)) :
    growth text c = (c.text.utf8ByteSize : Int) - byteSize inside := by
  have hstart : offset? text c.start = some (byteSize before) := (offset?_of_around h).1
  have hstop : offset? text c.stop = some (byteSize (before ++ inside)) := (offset?_of_around h).2
  have hsize : byteSize (before ++ inside) - byteSize before = byteSize inside := by
    rw [byteSize_append, Nat.add_sub_cancel_left]
  rw [growth, hstart, hstop]
  simp only [hsize]

theorem Admissible.of_subperm {text : String} {changes some : List TextChange} (h : Admissible text changes)
    (hsome : some.Subperm changes) : Admissible text some := by
  obtain ⟨same, hperm, hsub⟩ := hsome
  refine ⟨fun c hc => h.ordered c (hsub.subset (hperm.symm.subset hc)),
    fun c hc => h.inside c (hsub.subset (hperm.symm.subset hc)), ?_⟩
  exact (hperm.pairwise_iff fun hab hba => hab hba.symm).1 (h.apart.sublist hsub)

/-- Of two changes the one that comes first ends where the other starts, or before. -/
theorem Admissible.stop_le_start {text : String} {changes : List TextChange} (h : Admissible text changes)
    {c d : TextChange} (hc : c ∈ changes) (hd : d ∈ changes) (hne : c ≠ d) (hle : rangeLe c.span d.span = true) :
    c.stop ≤ d.start := by
  have hsymm : Std.Symm fun a b : TextChange => ¬ a.span.Overlaps b.span := ⟨fun _ _ hab hba => hab hba.symm⟩
  exact stop_le_of_apart (a := c.span) (b := d.span) (h.ordered c hc) (h.ordered d hd) (h.apart.forall hc hd hne)
    hle

theorem Admissible.stop_le_stop {text : String} {changes : List TextChange} (h : Admissible text changes)
    {c d : TextChange} (hc : c ∈ changes) (hd : d ∈ changes) (hle : rangeLe c.span d.span = true) :
    c.stop ≤ d.stop := by
  by_cases heq : c = d
  · rw [heq]
  · exact (h.stop_le_start hc hd heq hle).trans (h.ordered d hd)

/-- The growths of changes add up. The ranges are those of a text of which `common` is the beginning that the
changes are made in. -/
theorem byteSize_substituted_of_pairwise {text : String} {changes : List TextChange}
    (hpairs : changes.Pairwise fun later earlier => earlier.stop ≤ later.start)
    (hranges : ∀ c ∈ changes, ∃ parts, around text c.span = .ok parts) {common x : List Char}
    (htext : text.toList = common ++ x) (hstops : ∀ c ∈ changes, c.stop ≤ Pos.zero.advanceOver common) :
    (byteSize (substituted changes .zero common) : Int) =
      byteSize common + (changes.map (Focus.growth text)).sum := by
  induction changes generalizing common x with
  | nil => rw [substituted_nil, List.map_nil, List.sum_nil, Int.add_zero]
  | cons c rest ih =>
      obtain ⟨hlater, hpairs⟩ := List.pairwise_cons.1 hpairs
      obtain ⟨⟨⟨before, inside, after⟩, haround⟩, hranges⟩ := List.forall_mem_cons.1 hranges
      obtain ⟨gap, rfl, -⟩ := around_of_prefix haround htext htext (hstops c List.mem_cons_self)
      obtain ⟨-, hstart, hstop⟩ := around_eq_ok_iff.1 haround
      have hbefore : text.toList = before ++ (inside ++ gap ++ x) := by
        rw [htext]
        simp
      have hrest := ih hpairs hranges hbefore fun d hd => hstart.symm ▸ hlater d hd
      have hchanges : ∀ d ∈ rest, d.start ≤ d.stop ∧ d.stop ≤ c.start := fun d hd =>
        ⟨(exists_around_iff.1 (hranges d hd)).1, hlater d hd⟩
      rw [substituted_cons_changes hchanges hstart hstop, List.map_cons, List.sum_cons,
        Focus.growth_of_around haround]
      simp only [byteSize_append, byteSize_toList]
      omega

theorem Admissible.byteSize_substituted {text : String} {changes : List TextChange} (h : Admissible text changes)
    {common x : List Char} (htext : text.toList = common ++ x)
    (hstops : ∀ c ∈ changes, c.stop ≤ Pos.zero.advanceOver common) :
    (byteSize (substituted changes .zero common) : Int) =
      byteSize common + (changes.map (Focus.growth text)).sum := by
  have hperm := latestFirst_perm changes
  have hsize := byteSize_substituted_of_pairwise ((apart_iff_latestFirst h.ordered).1 h.apart)
    (fun c hc => (admissible_iff.1 h).1 c (hperm.subset hc)) htext fun c hc => hstops c (hperm.subset hc)
  rwa [substituted_latestFirst h.apart, (hperm.map _).sum_eq] at hsize

/-- A text with changes made, parted where the range of one of them ends. If only deletions come later, what
stands behind is what they leave. -/
theorem Admissible.substituted_eq_append {text : String} {changes : List TextChange} (h : Admissible text changes)
    {c : TextChange} (hc : c ∈ changes) (hdeletions : ∀ d ∈ changes, rangeLe d.span c.span = false → d.text = "")
    {before inside behind : List Char} (haround : around text c.span = .ok (before, inside, behind)) :
    substituted changes .zero text.toList =
      substituted (changes.filter fun d => rangeLe d.span c.span) .zero (before ++ inside) ++
        remaining (changes.filter fun d => !rangeLe d.span c.span) c.stop behind := by
  obtain ⟨htext, -, hstop⟩ := around_eq_ok_iff.1 haround
  have hstop : Pos.zero.advanceOver (before ++ inside) = c.stop := hstop
  have hlater : ∀ d ∈ changes, rangeLe d.span c.span = false → c.stop ≤ d.start := by
    intro d hd hnot
    refine h.stop_le_start hc hd ?_ (by simpa [hnot] using rangeLe_total c.span d.span)
    rintro rfl
    rw [rangeLe_refl] at hnot
    cases hnot
  have hdeleted : ∀ d ∈ changes, c.stop < d.start → d.text = "" := by
    intro d hd hlt
    refine hdeletions d hd (Bool.eq_false_iff.2 fun hle => ?_)
    exact absurd ((h.ordered d hd).trans (h.stop_le_stop hd hc hle)) (not_le.2 hlt)
  have hfront : substituted (changes.filter fun d => rangeLe d.span c.span) .zero (before ++ inside) =
      passing changes .zero (before ++ inside) ++ arriving changes c.stop := by
    rw [substituted_filter fun d hd hnot => ⟨hstop.le.trans (hlater d hd hnot), hdeletions d hd hnot⟩, substituted,
      hstop]
  have hrest : remaining changes c.stop behind =
      remaining (changes.filter fun d => !rangeLe d.span c.span) c.stop behind := by
    refine remaining_congr (fun q hq => ⟨?_, ?_⟩) behind
    · rintro ⟨d, hd, htakes⟩
      refine ⟨d, List.mem_filter.2 ⟨hd, ?_⟩, htakes⟩
      rw [Bool.not_eq_true', Bool.eq_false_iff]
      exact fun hle => absurd htakes.2 (not_lt.2 ((h.stop_le_stop hd hc hle).trans hq))
    · rintro ⟨d, hd, htakes⟩
      exact ⟨d, (List.mem_filter.1 hd).1, htakes⟩
  rw [← htext, substituted_append, hstop, substituted_of_deletions hdeleted, hfront, hrest, List.append_assoc]

namespace Focus

/-! ## The last insertion -/

theorem earliestFirst_perm (changes : List TextChange) : (earliestFirst changes).Perm changes :=
  List.mergeSort_perm _ _

theorem earliestFirst_pairwise (changes : List TextChange) :
    (earliestFirst changes).Pairwise fun a b => rangeLe a.span b.span = true := by
  refine @List.pairwise_mergeSort _ (fun a b => rangeLe a.span b.span) ?_ ?_ changes
  · exact fun a b c => rangeLe_trans
  · exact fun a b => rangeLe_total a.span b.span

theorem earliestFirst_apart {text : String} {changes : List TextChange} (h : Admissible text changes) :
    (earliestFirst changes).Pairwise fun a b => a.stop ≤ b.start := by
  have hperm := earliestFirst_perm changes
  have hapart := (hperm.pairwise_iff fun hab hba => hab hba.symm).2 h.apart
  refine (hapart.and (earliestFirst_pairwise changes)).imp_of_mem ?_
  rintro a b ha hb ⟨hab, hle⟩
  exact stop_le_of_apart (a := a.span) (b := b.span) (h.ordered a (hperm.subset ha)) (h.ordered b (hperm.subset hb))
    hab hle

/-- If any change puts text in, there is a last one, and behind it are deletions only. -/
theorem exists_lastInsertion? {changes : List TextChange} {c : TextChange} (hc : c ∈ changes)
    (hadds : c.addsText = true) :
    ∃ earlier last later, lastInsertion? changes = some (earlier, last) ∧ changes = earlier ++ last :: later ∧
      last.addsText = true ∧ ∀ d ∈ later, d.addsText = false := by
  have hsplit := List.takeWhile_append_dropWhile (p := fun d : TextChange => !d.addsText) (l := changes.reverse)
  rw [lastInsertion?]
  cases hdrop : changes.reverse.dropWhile (!·.addsText) with
  | nil =>
      have hnone := List.dropWhile_eq_nil_iff.1 hdrop c (List.mem_reverse.2 hc)
      simp [hadds] at hnone
  | cons last earlier =>
      refine ⟨earlier.reverse, last, (changes.reverse.takeWhile (!·.addsText)).reverse, rfl, ?_, ?_, fun d hd => ?_⟩
      · have hwhole := congrArg List.reverse hsplit
        rw [hdrop, List.reverse_append, List.reverse_cons, List.reverse_reverse, List.append_assoc,
          List.singleton_append] at hwhole
        exact hwhole.symm
      · have hhead := List.head_dropWhile_not (fun d : TextChange => !d.addsText) (l := changes.reverse)
          (by simp [hdrop])
        simpa [hdrop] using hhead
      · have hd := List.mem_takeWhile_imp (List.mem_reverse.1 hd)
        simpa using hd

theorem endOffset?_eq {old : String} {earlier : List TextChange} {c : TextChange} {start : Nat}
    (hstart : offset? old c.start = some start) {front : Nat}
    (hfront : (front : Int) = start + (earlier.map (growth old)).sum) :
    endOffset? old earlier c = some (front + c.text.utf8ByteSize) := by
  have hfold : ∀ (es : List TextChange) (x : Int),
      es.foldl (fun shifted e => shifted + growth old e) x = x + (es.map (growth old)).sum := by
    intro es
    induction es with
    | nil => simp
    | cons e es ih =>
        intro x
        rw [List.foldl_cons, ih, List.map_cons, List.sum_cons, Int.add_assoc]
  simp only [endOffset?, hstart, Option.bind_eq_bind, Option.bind_some, hfold, ← hfront]
  rw [if_neg (by omega), Int.toNat_natCast]

/-! ## The end of the inserted text -/

theorem growth_eq_zero {old : String} {c : TextChange} (hempty : c.start = c.stop) (htext : c.addsText = false) :
    growth old c = 0 := by
  have hsize : c.text.utf8ByteSize = 0 := by
    simpa [TextChange.addsText, String.isEmpty_iff, String.utf8ByteSize_eq_zero_iff] using htext
  rw [growth, hempty, hsize]
  cases offset? old c.stop <;> simp

/-- The changes listed behind the last insertion that are not behind it in the text are empty, so the growths of
the others add up to the same. -/
theorem sum_growth_upTo {old : String} {changes earlier later : List TextChange} {last : TextChange}
    (h : Admissible old changes) (hsorted : earliestFirst changes = earlier ++ last :: later)
    (hdeletions : ∀ d ∈ later, d.addsText = false) :
    ((changes.filter fun d => rangeLe d.span last.span).map (growth old)).sum =
      (earlier.map (growth old)).sum + growth old last := by
  have hperm := earliestFirst_perm changes
  have horder := earliestFirst_pairwise changes
  have hapart := earliestFirst_apart h
  rw [hsorted] at hapart horder hperm
  obtain ⟨-, hbehind, hearlier⟩ := List.pairwise_append.1 horder
  have hkept : (earlier.filter fun d => rangeLe d.span last.span) = earlier := by
    rw [List.filter_eq_self]
    exact fun e he => hearlier e he last List.mem_cons_self
  have hnothing : ((later.filter fun d => rangeLe d.span last.span).map (growth old)).sum = 0 := by
    refine List.sum_eq_zero fun x hx => ?_
    obtain ⟨d, hd, rfl⟩ := List.mem_map.1 hx
    obtain ⟨hd, hle⟩ := List.mem_filter.1 hd
    have hsame : last.span = d.span := rangeLe_antisymm ((List.pairwise_cons.1 hbehind).1 d hd) hle
    have hstop : last.stop ≤ d.start := (List.pairwise_cons.1 (List.pairwise_append.1 hapart).2.1).1 d hd
    rw [show last.stop = d.stop from congrArg Span.stop hsame] at hstop
    exact growth_eq_zero (le_antisymm (h.ordered d (hperm.subset (by simp [hd]))) hstop) (hdeletions d hd)
  have hlast : rangeLe last.span last.span = true := rangeLe_refl _
  rw [← ((hperm.filter _).map _).sum_eq, List.filter_append, hkept, List.filter_cons, if_pos hlast, List.map_append,
    List.map_cons, List.sum_append, List.sum_cons, hnothing, add_zero]

/-- The offset that is counted out is the size of the text up to the range of the last insertion, with the changes
up to there made. -/
theorem endOffset?_eq_byteSize {old : String} {changes earlier later : List TextChange} {last : TextChange}
    (h : Admissible old changes) (hsorted : earliestFirst changes = earlier ++ last :: later)
    (hdeletions : ∀ d ∈ later, d.addsText = false) {before inside behind : List Char}
    (haround : around old last.span = .ok (before, inside, behind)) :
    endOffset? old earlier last = some (byteSize
      (substituted (changes.filter fun d => rangeLe d.span last.span) .zero (before ++ inside))) := by
  obtain ⟨htext, hstart, hstop⟩ := around_eq_ok_iff.1 haround
  have hperm := earliestFirst_perm changes
  have hapart := earliestFirst_apart h
  rw [hsorted] at hapart hperm
  have hlast : last ∈ changes := hperm.subset (by simp)
  -- The changes before the last insertion are made in what stands before its range, so their sum is a size.
  have hearlier : Admissible old earlier :=
    h.of_subperm ((List.sublist_append_left earlier _).subperm.trans hperm.subperm)
  have hparts : old.toList = before ++ (inside ++ behind) := by rw [← htext, List.append_assoc]
  have hfront := hearlier.byteSize_substituted hparts fun e he => by
    rw [hstart]
    exact (List.pairwise_append.1 hapart).2.2 e he last List.mem_cons_self
  have hupTo : Admissible old (changes.filter fun d => rangeLe d.span last.span) :=
    h.of_subperm List.filter_sublist.subperm
  have hsize := hupTo.byteSize_substituted htext.symm fun d hd => by
    rw [hstop]
    exact h.stop_le_stop (List.mem_filter.1 hd).1 hlast (List.mem_filter.1 hd).2
  rw [sum_growth_upTo h hsorted hdeletions, growth_of_around haround, byteSize_append] at hsize
  rw [endOffset?_eq (offset?_of_around haround).1 hfront]
  congr 1
  omega

/-- The last insertion is one whose range comes last. -/
theorem lastInsertion?_of_greatest {changes : List TextChange} {c : TextChange} (hc : c ∈ changes)
    (hadds : c.addsText = true) (hgreatest : ∀ d ∈ changes, d.addsText = true → rangeLe d.span c.span = true) :
    ∃ earlier last later, lastInsertion? (earliestFirst changes) = some (earlier, last) ∧
      earliestFirst changes = earlier ++ last :: later ∧ last.span = c.span ∧ ∀ d ∈ later, d.addsText = false := by
  have hperm := earliestFirst_perm changes
  have horder := earliestFirst_pairwise changes
  obtain ⟨earlier, last, later, hlast, hsorted, hlastAdds, hdeletions⟩ :=
    exists_lastInsertion? (hperm.mem_iff.2 hc) hadds
  rw [hsorted] at horder hperm
  refine ⟨earlier, last, later, hlast, hsorted, ?_, hdeletions⟩
  refine rangeLe_antisymm (hgreatest last (hperm.subset (by simp)) hlastAdds) ?_
  have hmem := hperm.mem_iff.2 hc
  rw [List.mem_append, List.mem_cons] at hmem
  rcases hmem with hmem | rfl | hmem
  · exact (List.pairwise_append.1 horder).2.2 c hmem last List.mem_cons_self
  · exact rangeLe_refl _
  · rw [hdeletions c hmem] at hadds
    cases hadds

/-- The last inserted text ends, in the new text, where the offset is counted to be. Behind it stands what was
behind the range of its change, less the ranges of the later changes, which are deletions. No difference on the
way is negative: the range of every change that is counted runs forwards, and so does the sum. -/
theorem endOffset_at_end_of_insertion {old new : String} {changes : List TextChange}
    (h : applyChanges old changes = .ok new) {c : TextChange} (hc : c ∈ changes) (hadds : c.addsText = true)
    (hgreatest : ∀ d ∈ changes, d.addsText = true → rangeLe d.span c.span = true) :
    ∃ earlier last bytes, lastInsertion? (earliestFirst changes) = some (earlier, last) ∧ last.span = c.span ∧
      (∀ e ∈ earlier, ∃ start stop, offset? old e.start = some start ∧ offset? old e.stop = some stop ∧
        start ≤ stop) ∧
      endOffset? old earlier last = some bytes ∧ position? old new changes = some (posOfOffset new bytes) ∧
      IsBoundary new bytes ∧
      ∃ before behind front, cut? old.toList c.stop = some (before, behind) ∧ byteSize front = bytes ∧
        new.toList = front ++ remaining (changes.filter fun d => !rangeLe d.span c.span) c.stop behind := by
  obtain ⟨hchanges, rfl⟩ := applyChanges_eq_ok_iff_substituted.1 h
  obtain ⟨hranges, -⟩ := admissible_iff.1 hchanges
  obtain ⟨earlier, last, later, hlast, hsorted, hspan, hdeletions⟩ := lastInsertion?_of_greatest hc hadds hgreatest
  obtain ⟨⟨before, inside, behind⟩, haround⟩ := hranges c hc
  obtain ⟨htext, -, hstop⟩ := around_eq_ok_iff.1 haround
  have hoffset := endOffset?_eq_byteSize hchanges hsorted hdeletions (hspan ▸ haround)
  rw [hspan] at hoffset
  have hparted := hchanges.substituted_eq_append hc (fun d hd hnot => ?_) haround
  · rw [← String.toList_ofList (l := substituted _ _ _)] at hparted
    refine ⟨earlier, last, _, hlast, hspan, fun e he => ?_, hoffset, ?_, isBoundary_iff.2 ⟨_, _, hparted.symm, rfl⟩,
      before ++ inside, behind, _, cut?_eq_some_iff.2 ⟨htext, hstop⟩, rfl, hparted⟩
    · obtain ⟨⟨a, x, y⟩, he⟩ := hranges e ((earliestFirst_perm changes).subset (by simp [hsorted, he]))
      refine ⟨_, _, (offset?_of_around he).1, (offset?_of_around he).2, ?_⟩
      rw [byteSize_append]
      exact Nat.le_add_right _ _
    · simp only [position?, hlast, hoffset, Option.map_some]
  · by_contra hadds
    rw [hgreatest d hd (by simpa [TextChange.addsText] using hadds)] at hnot
    cases hnot

/-- A deletion, two insertions at one place, and a deletion on the next line. The insertion given last is counted
last but stands first. -/
theorem endOffset_behind_two_insertions :
    let changes := [⟨⟨0, 0⟩, ⟨0, 1⟩, ""⟩, ⟨⟨0, 1⟩, ⟨0, 1⟩, "é"⟩, ⟨⟨0, 1⟩, ⟨0, 1⟩, "xy"⟩, ⟨⟨1, 0⟩, ⟨1, 1⟩, ""⟩]
    applyChanges "ab\nλc" changes = .ok "xyéb\nc" ∧
      ∃ bytes front, position? "ab\nλc" "xyéb\nc" changes = some (posOfOffset "xyéb\nc" bytes) ∧
        IsBoundary "xyéb\nc" bytes ∧ byteSize front = bytes ∧ "xyéb\nc".toList = front ++ "b\nc".toList := by
  intro changes
  have happlied : applyChanges "ab\nλc" changes = .ok "xyéb\nc" := by cbv
  obtain ⟨earlier, last, bytes, -, -, -, -, hposition, hboundary, before, behind, front, hcut, hsize, hnew⟩ :=
    endOffset_at_end_of_insertion happlied (c := ⟨⟨0, 1⟩, ⟨0, 1⟩, "xy"⟩) (by decide) (by decide) (by decide)
  have hplace : cut? "ab\nλc".toList ⟨0, 1⟩ = some ("a".toList, "b\nλc".toList) := by decide
  obtain ⟨-, rfl⟩ := Prod.mk.inj (Option.some.inj (hplace.symm.trans hcut))
  exact ⟨happlied, bytes, front, hposition, hboundary, hsize, hnew.trans (congrArg (front ++ ·) (by decide))⟩

end Focus

end TreeEdit
