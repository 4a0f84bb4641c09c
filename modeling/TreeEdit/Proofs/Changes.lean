import TreeEdit.Proofs.Places
import TreeEdit.Session.Basic

/-!
# Writing changes is applying them

A batch of changes is applied to a text by offsets that are all found in the text as it was, and
written to a buffer one after the other by positions in the text as it is by then. The two agree,
because the changes are made from the end of the text towards its start: when a change is due, the
text before the last one written is still untouched, and the change lies inside it. The untouched
beginning is the invariant of `writeAll_of_resolved`.
-/

namespace TreeEdit

/-! ## Outcomes in sequence -/

section Outcomes

variable {ε α β : Type}

@[simp] theorem pure_eq_ok {a b : α} : (pure a : Except ε α) = .ok b ↔ b = a := by
  constructor
  · intro h
    cases h
    rfl
  · rintro rfl
    rfl

theorem bind_eq_ok {x : Except ε α} {f : α → Except ε β} {r : β} :
    x >>= f = .ok r ↔ ∃ a, x = .ok a ∧ f a = .ok r := by
  cases x with
  | error e =>
      constructor
      · intro h
        cases h
      · rintro ⟨a, h, -⟩
        cases h
  | ok a =>
      constructor
      · intro h
        exact ⟨a, rfl, h⟩
      · rintro ⟨b, h, hb⟩
        cases h
        exact hb

theorem mapM_cons_eq_ok {f : α → Except ε β} {x : α} {xs : List α} {ys : List β} :
    (x :: xs).mapM f = .ok ys ↔ ∃ y rest, f x = .ok y ∧ xs.mapM f = .ok rest ∧ ys = y :: rest := by
  simp only [List.mapM_cons, bind_eq_ok, pure_eq_ok]
  constructor
  · rintro ⟨y, hy, rest, hrest, rfl⟩
    exact ⟨y, rest, hy, hrest, rfl⟩
  · rintro ⟨y, rest, hy, hrest, rfl⟩
    exact ⟨y, hy, rest, hrest, rfl⟩

end Outcomes

/-! ## The order of changes -/

theorem rangeLe_refl (a : Span) : rangeLe a a = true := by simp [rangeLe]

theorem rangeLe_antisymm {a b : Span} (hab : rangeLe a b = true) (hba : rangeLe b a = true) : a = b := by
  simp only [rangeLe, Bool.or_eq_true, Bool.and_eq_true, decide_eq_true_eq] at hab hba
  obtain ⟨start, stop⟩ := a
  rcases hab with hab | ⟨hstart, hab⟩ <;> rcases hba with hba | ⟨hstart', hba⟩
  · exact absurd hab (lt_asymm hba)
  · exact absurd hstart' hab.ne'
  · exact absurd hstart hba.ne'
  · exact (Span.mk.injEq ..).mpr ⟨hstart, le_antisymm hab hba⟩

theorem rangeLe_trans {a b c : Span} (hab : rangeLe a b = true) (hbc : rangeLe b c = true) :
    rangeLe a c = true := by
  simp only [rangeLe, Bool.or_eq_true, Bool.and_eq_true, decide_eq_true_eq] at *
  rcases hab with hab | ⟨hab, hab'⟩
  · rcases hbc with hbc | ⟨hbc, -⟩
    · exact Or.inl (hab.trans hbc)
    · exact Or.inl (hbc ▸ hab)
  · rcases hbc with hbc | ⟨hbc, hbc'⟩
    · exact Or.inl (hab ▸ hbc)
    · exact Or.inr ⟨hab.trans hbc, hab'.trans hbc'⟩

theorem rangeLe_total (a b : Span) : (rangeLe a b || rangeLe b a) = true := by
  simp only [rangeLe, Bool.or_eq_true, Bool.and_eq_true, decide_eq_true_eq]
  rcases lt_trichotomy a.start b.start with h | h | h
  · exact Or.inl (Or.inl h)
  · rcases le_total a.stop b.stop with h' | h'
    · exact Or.inl (Or.inr ⟨h, h'⟩)
    · exact Or.inr (Or.inr ⟨h.symm, h'⟩)
  · exact Or.inr (Or.inl h)

theorem latestFirst_pairwise (changes : List TextChange) :
    (latestFirst changes).Pairwise fun a b => rangeLe b.span a.span = true := by
  refine @List.pairwise_mergeSort _ (fun a b => rangeLe b.span a.span) ?_ ?_ changes
  · intro a b c hab hbc
    exact rangeLe_trans hbc hab
  · intro a b
    exact rangeLe_total b.span a.span

@[simp] theorem latestFirst_latestFirst (changes : List TextChange) :
    latestFirst (latestFirst changes) = latestFirst changes :=
  List.mergeSort_of_pairwise (latestFirst_pairwise changes)

/-! ## One change after the other -/

theorem refuseOverlap_cons {c : TextChange} {rest : List TextChange}
    (h : refuseOverlap (c :: rest) = .ok ()) :
    (∀ d ∈ rest.head?, d.stop ≤ c.start) ∧ refuseOverlap rest = .ok () := by
  cases rest with
  | nil => exact ⟨by simp, rfl⟩
  | cons d rest =>
      rw [refuseOverlap] at h
      split at h
      · cases h
      · rename_i hlt
        exact ⟨by simpa using hlt, h⟩

theorem refuseOverlap_of_pairwise {changes : List TextChange}
    (h : changes.Pairwise fun later earlier => earlier.stop ≤ later.start) :
    refuseOverlap changes = .ok () := by
  induction changes with
  | nil => rfl
  | cons later rest ih =>
      obtain ⟨hlater, hrest⟩ := List.pairwise_cons.1 h
      cases rest with
      | nil => rfl
      | cons earlier rest =>
          rw [refuseOverlap, if_neg (not_lt.2 (hlater earlier List.mem_cons_self))]
          exact ih hrest

theorem Splice.resolve_eq_ok_iff {text : String} {c : TextChange} {s : Splice} :
    Splice.resolve text c = .ok s ↔
      ∃ a inside rest, around text c.span = .ok (a, inside, rest) ∧
        s = ⟨a.length, a.length + inside.length, c.text.toList⟩ := by
  unfold Splice.resolve
  constructor
  · intro h
    cases hr : around text c.span with
    | error e => rw [hr] at h; cases h
    | ok parts =>
        rw [hr] at h
        cases h
        exact ⟨_, _, _, rfl, rfl⟩
  · rintro ⟨a, inside, rest, hr, rfl⟩
    rw [hr]
    rfl

theorem Splice.apply_parts (a inside rest text : List Char) :
    Splice.apply (a ++ inside ++ rest) ⟨a.length, a.length + inside.length, text⟩ =
      a ++ text ++ rest := by
  have htake : (a ++ inside ++ rest).take a.length = a := by simp
  have hdrop : (a ++ inside ++ rest).drop (a.length + inside.length) = rest := by
    rw [← List.length_append, List.drop_left]
  rw [Splice.apply, htake, hdrop]

/-- One change written to a text that still shares the beginning `common` with the one its range was looked up
in. What stands before the range is shared afterwards. -/
theorem replace_of_common {text now : String} {c : TextChange} {common x y a inside after : List Char}
    (haround : around text c.span = .ok (a, inside, after)) (htext : text.toList = common ++ x)
    (hnow : now.toList = common ++ y) (hstop : c.stop ≤ Pos.zero.advanceOver common) :
    ∃ behind ahead next, TextBuffer.replace now c.text c.span = (.ok (), next) ∧ text.toList = a ++ behind ∧
      next.toList = a ++ ahead ∧
      next.toList = Splice.apply now.toList ⟨a.length, a.length + inside.length, c.text.toList⟩ := by
  obtain ⟨gap, rfl, hthere⟩ := around_of_prefix haround htext hnow hstop
  have hreplace : replaceIn now c.text c.span = .ok (String.ofList (a ++ c.text.toList ++ (gap ++ y))) :=
    replaceIn_eq_ok_iff.2 ⟨a, inside, gap ++ y, hthere, rfl⟩
  have happly : Splice.apply now.toList ⟨a.length, a.length + inside.length, c.text.toList⟩ =
      a ++ c.text.toList ++ (gap ++ y) := by
    rw [← (around_eq_ok_iff.1 hthere).1, Splice.apply_parts]
  refine ⟨inside ++ gap ++ x, c.text.toList ++ (gap ++ y), .ofList (a ++ c.text.toList ++ (gap ++ y)), ?_, ?_, ?_, ?_⟩
  · simp only [TextBuffer.replace, hreplace]
  · rw [htext]
    simp
  · simp
  · rw [happly, String.toList_ofList]

/-- A batch written to a text. `common` is the untouched beginning that the text still shares with
the text the changes were resolved in; the next change ends inside it. -/
theorem writeAll_of_resolved {text : String} {changes : List TextChange} {splices : List Splice}
    (hover : refuseOverlap changes = .ok ())
    (hres : changes.mapM (Splice.resolve text) = .ok splices) {now : String}
    {common x y : List Char} (htext : text.toList = common ++ x) (hnow : now.toList = common ++ y)
    (hfirst : ∀ c ∈ changes.head?, c.stop ≤ Pos.zero.advanceOver common) :
    Session.writeAll now changes =
      (.ok (), String.ofList (splices.foldl Splice.apply now.toList)) := by
  induction changes generalizing splices now common x y with
  | nil =>
      cases hres
      simp [Session.writeAll]
  | cons c rest ih =>
      obtain ⟨hnext, hover'⟩ := refuseOverlap_cons hover
      obtain ⟨s, more, hs, hmore, rfl⟩ := mapM_cons_eq_ok.1 hres
      obtain ⟨a, inside, after, haround, rfl⟩ := Splice.resolve_eq_ok_iff.1 hs
      obtain ⟨behind, ahead, next, hreplace, hbefore, hafter, happly⟩ :=
        replace_of_common haround htext hnow (hfirst c rfl)
      have hstart : Pos.zero.advanceOver a = c.start := (around_eq_ok_iff.1 haround).2.1
      have hrest := ih hover' hmore hbefore hafter (by rw [hstart]; exact hnext)
      rw [Session.writeAll, hreplace, List.foldl_cons, ← happly]
      exact hrest

theorem applyChanges_eq_ok_iff {text new : String} {changes : List TextChange} :
    applyChanges text changes = .ok new ↔
      refuseOverlap (latestFirst changes) = .ok () ∧
        ∃ splices, (latestFirst changes).mapM (Splice.resolve text) = .ok splices ∧
          new = String.ofList (splices.foldl Splice.apply text.toList) := by
  unfold applyChanges
  simp only [bind_eq_ok, pure_eq_ok]
  constructor
  · rintro ⟨⟨⟩, hover, splices, hres, rfl⟩
    exact ⟨hover, splices, hres, rfl⟩
  · rintro ⟨hover, splices, hres, rfl⟩
    exact ⟨(), hover, splices, hres, rfl⟩

/-- Changes that can be applied to a text can be written to it, with the same outcome. -/
theorem writeAll_of_applyChanges {text new : String} {changes : List TextChange}
    (h : applyChanges text changes = .ok new) :
    Session.writeAll text (latestFirst changes) = (.ok (), new) := by
  obtain ⟨hover, splices, hres, rfl⟩ := applyChanges_eq_ok_iff.1 h
  have hwhole : text.toList = text.toList ++ [] := (List.append_nil _).symm
  refine writeAll_of_resolved hover hres hwhole hwhole ?_
  intro c hc
  cases hsorted : latestFirst changes with
  | nil => rw [hsorted] at hc; cases hc
  | cons d rest =>
      rw [hsorted] at hc hres
      cases hc
      obtain ⟨s, -, hs, -⟩ := mapM_cons_eq_ok.1 hres
      obtain ⟨a, inside, after, haround, -⟩ := Splice.resolve_eq_ok_iff.1 hs
      exact around_stop_le haround

end TreeEdit
