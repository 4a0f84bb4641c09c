import Mathlib.Data.List.Infix
import Mathlib.Order.Basic
import TreeEdit.Text.Buffer

/-!
# Positions as runs of characters

A position of a text is the place that a walk over some of its first characters leads to, so a
position and a prefix of the text say the same thing. This module makes that exact: `cut?_eq_some_iff`
for one position, `around_eq_ok_iff` for a range, `replaceIn_eq_ok_iff` for a replacement. Everything
else about positions in a text is then a statement about lists of characters.

Main statements: the positions of a text are ordered as the prefixes are (`advanceOver_le_iff`), and
a range up to a place that two texts have in common is the same range in both (`around_of_prefix`).
-/

namespace TreeEdit

/-! ## Outcomes -/

section Outcomes

variable {ε α : Type} {x : Except ε α}

theorem Except.toOption_eq_some {a : α} : x.toOption = some a ↔ x = .ok a := by
  cases x <;> simp [Except.toOption]

/-- Whether a result has a property can be decided if the result can be worked out. -/
theorem Except.exists_ok {P : α → Prop} (h : ∃ a ∈ x.toOption, P a) : ∃ a, x = .ok a ∧ P a := by
  obtain ⟨a, ha, hP⟩ := h
  exact ⟨a, toOption_eq_some.1 ha, hP⟩

theorem Except.exists_eq_ok (h : x.toOption.isSome) : ∃ a, x = .ok a := by
  obtain ⟨a, ha⟩ := Option.isSome_iff_exists.1 h
  exact ⟨a, toOption_eq_some.1 ha⟩

end Outcomes

namespace Pos

/-! ## The order of positions -/

instance : LinearOrder Pos where
  le_refl p := by rw [le_def]; omega
  le_trans p q r := by simp only [le_def]; omega
  lt_iff_le_not_ge p q := by simp only [le_def, lt_def]; omega
  le_antisymm p q := by
    obtain ⟨l, c⟩ := p
    obtain ⟨l', c'⟩ := q
    simp only [le_def, mk.injEq]
    omega
  le_total p q := by simp only [le_def]; omega
  toDecidableLE := inferInstance

theorem zero_le (p : Pos) : zero ≤ p := by
  rw [le_def]
  simp only [zero]
  omega

theorem lt_advance (p : Pos) (c : Char) : p < p.advance c := by
  rw [lt_def, advance]
  split
  · exact Or.inl (Nat.lt_succ_self _)
  · exact Or.inr ⟨rfl, Nat.lt_succ_self _⟩

theorem le_advanceOver (p : Pos) (cs : List Char) : p ≤ p.advanceOver cs := by
  induction cs generalizing p with
  | nil => exact le_refl p
  | cons c cs ih => exact (lt_advance p c).le.trans (ih _)

theorem lt_advanceOver {cs : List Char} (h : cs ≠ []) (p : Pos) : p < p.advanceOver cs := by
  cases cs with
  | nil => exact absurd rfl h
  | cons c cs => exact (lt_advance p c).trans_le (le_advanceOver _ cs)

/-- Of two prefixes of one text the shorter one ends first. -/
theorem advanceOver_le_iff {cs a b x y : List Char} (p : Pos) (ha : a ++ x = cs) (hb : b ++ y = cs) :
    p.advanceOver a ≤ p.advanceOver b ↔ a.length ≤ b.length := by
  have hab := List.append_eq_append_iff.1 (ha.trans hb.symm)
  rcases hab with ⟨t, rfl, -⟩ | ⟨t, rfl, -⟩
  · simp only [advanceOver_append, le_advanceOver, List.length_append, Nat.le_add_right]
  · by_cases ht : t = []
    · subst ht
      simp
    · have hlt := lt_advanceOver ht (p.advanceOver b)
      have hpos := List.length_pos_iff.2 ht
      rw [advanceOver_append, List.length_append]
      constructor
      · intro hle
        exact absurd hle (not_le.2 hlt)
      · intro hle
        omega

theorem line_le_of_le {p q : Pos} (h : p ≤ q) : p.line ≤ q.line := by
  rw [le_def] at h
  omega

theorem line_le_advanceOver (p : Pos) (cs : List Char) : p.line ≤ (p.advanceOver cs).line :=
  line_le_of_le (le_advanceOver p cs)

/-- A walk comes one line further with every newline. -/
theorem line_advanceOver (p : Pos) (cs : List Char) : (p.advanceOver cs).line = p.line + cs.count '\n' := by
  induction cs generalizing p with
  | nil => rfl
  | cons c cs ih =>
      rw [advanceOver_cons, ih, List.count_cons, advance]
      by_cases hc : c = '\n'
      · simp [hc, Nat.add_comm, Nat.add_left_comm]
      · simp [hc]

theorem advanceOver_of_not_mem {cs : List Char} (h : '\n' ∉ cs) (p : Pos) :
    p.advanceOver cs = ⟨p.line, p.ch + cs.length⟩ := by
  induction cs generalizing p with
  | nil => rfl
  | cons c cs ih =>
      obtain ⟨hc, hcs⟩ := List.ne_and_not_mem_of_not_mem_cons h
      rw [advanceOver_cons, ih hcs, advance, if_neg (Ne.symm hc), List.length_cons, Nat.add_right_comm]
      rfl

/-- A walk may be counted from the start of the text: its lines add up, and columns add up on the
first line only. -/
theorem advanceOver_eq (p : Pos) (cs : List Char) :
    p.advanceOver cs =
      ⟨p.line + (zero.advanceOver cs).line,
        if (zero.advanceOver cs).line = 0 then p.ch + (zero.advanceOver cs).ch
        else (zero.advanceOver cs).ch⟩ := by
  induction cs using List.reverseRecOn with
  | nil => simp [zero]
  | append_singleton cs c ih =>
      simp only [advanceOver_append, ih, advanceOver_cons, advanceOver_nil, advance]
      by_cases hc : c = '\n'
      · simp [hc, Nat.add_assoc]
      · by_cases hl : (zero.advanceOver cs).line = 0
        · simp [hc, hl, Nat.add_assoc]
        · simp [hc, hl]

end Pos

/-! ## Cutting a text at a position -/

private theorem cut?_append {cs a b : List Char} {p : Pos} (h : cut? cs p = some (a, b)) :
    a ++ b = cs ∧ Pos.zero.advanceOver a = p := by
  fun_induction cut? cs p generalizing a b with
  | case1 cs => cases h; exact ⟨rfl, rfl⟩
  | case2 => cases h
  | case3 cs ch => simp at h
  | case4 c cs ch hc ih =>
      obtain ⟨⟨a', b'⟩, hab, he⟩ := Option.map_eq_some_iff.1 h
      cases he
      obtain ⟨rfl, hp⟩ := ih hab
      refine ⟨rfl, ?_⟩
      rw [Pos.advanceOver_cons, Pos.advanceOver_eq, hp]
      simp [Pos.advance, Pos.zero, hc, Nat.add_comm]
  | case5 c cs line ch ih =>
      obtain ⟨⟨a', b'⟩, hab, he⟩ := Option.map_eq_some_iff.1 h
      cases he
      obtain ⟨rfl, hp⟩ := ih hab
      refine ⟨rfl, ?_⟩
      rw [Pos.advanceOver_cons, Pos.advanceOver_eq, hp]
      by_cases hc : c = '\n'
      · simp [Pos.advance, Pos.zero, hc, Nat.add_comm]
      · simp [Pos.advance, Pos.zero, hc]

theorem cut?_of_append (a b : List Char) : cut? (a ++ b) (Pos.zero.advanceOver a) = some (a, b) := by
  induction a with
  | nil => rw [List.nil_append, Pos.advanceOver_nil, Pos.zero, cut?]
  | cons c a ih =>
      rw [List.cons_append, Pos.advanceOver_cons, Pos.advanceOver_eq]
      generalize Pos.zero.advanceOver a = q at ih
      obtain ⟨line, ch⟩ := q
      by_cases hc : c = '\n'
      · simp [Pos.advance, Pos.zero, hc, Nat.add_comm 1, cut?, ih]
      · cases line with
        | zero => simp [Pos.advance, Pos.zero, hc, Nat.add_comm 1, cut?, ih]
        | succ line => simp [Pos.advance, Pos.zero, hc, cut?, ih]

/-- A cut at a position is a division of the text whose first part leads to the position. -/
theorem cut?_eq_some_iff {cs a b : List Char} {p : Pos} :
    cut? cs p = some (a, b) ↔ a ++ b = cs ∧ Pos.zero.advanceOver a = p := by
  constructor
  · exact cut?_append
  · rintro ⟨rfl, rfl⟩
    exact cut?_of_append a b

/-! ## Ranges of a text -/

/-- The parts around a range: the first leads to its start, the first two lead to its end. -/
theorem around_eq_ok_iff {text : String} {span : Span} {a inside rest : List Char} :
    around text span = .ok (a, inside, rest) ↔
      a ++ inside ++ rest = text.toList ∧ Pos.zero.advanceOver a = span.start ∧
        Pos.zero.advanceOver (a ++ inside) = span.stop := by
  unfold around
  constructor
  · intro h
    split at h
    · cases h
    · rename_i horder
      split at h
      · rename_i a' x b rest' ha hb
        cases h
        obtain ⟨hax, has⟩ := cut?_eq_some_iff.1 ha
        obtain ⟨hbr, hbs⟩ := cut?_eq_some_iff.1 hb
        have hle : a.length ≤ b.length := by
          rw [← Pos.advanceOver_le_iff .zero hax hbr, has, hbs]
          exact not_lt.1 horder
        have hpre : a <+: b :=
          List.prefix_of_prefix_length_le ⟨x, hax⟩ ⟨rest, hbr⟩ hle
        have hsplit : a ++ b.drop a.length = b := List.prefix_iff_eq_append.1 hpre
        exact ⟨by rw [hsplit, hbr], has, by rw [hsplit, hbs]⟩
      · cases h
  · rintro ⟨htext, hstart, hstop⟩
    have horder : ¬ span.stop < span.start := by
      rw [not_lt, ← hstart, ← hstop, Pos.advanceOver_append]
      exact Pos.le_advanceOver _ _
    have ha : cut? text.toList span.start = some (a, inside ++ rest) :=
      cut?_eq_some_iff.2 ⟨by rw [← htext, List.append_assoc], hstart⟩
    have hb : cut? text.toList span.stop = some (a ++ inside, rest) :=
      cut?_eq_some_iff.2 ⟨htext, hstop⟩
    rw [if_neg horder, ha, hb]
    simp

theorem around_stop_le {text : String} {span : Span} {parts : List Char × List Char × List Char}
    (h : around text span = .ok parts) : span.stop ≤ Pos.zero.advanceOver text.toList := by
  obtain ⟨a, inside, rest⟩ := parts
  obtain ⟨htext, -, hstop⟩ := around_eq_ok_iff.1 h
  rw [← hstop, ← htext, Pos.advanceOver_append _ (a ++ inside)]
  exact Pos.le_advanceOver _ _

/-- A replacement keeps what stands around its range. -/
theorem replaceIn_eq_ok_iff {text replacement new : String} {span : Span} :
    replaceIn text replacement span = .ok new ↔
      ∃ a inside rest, around text span = .ok (a, inside, rest) ∧
        new = String.ofList (a ++ replacement.toList ++ rest) := by
  unfold replaceIn
  constructor
  · intro h
    cases hr : around text span with
    | error e => rw [hr] at h; cases h
    | ok parts =>
        obtain ⟨a, inside, rest⟩ := parts
        rw [hr] at h
        cases h
        exact ⟨a, inside, rest, rfl, rfl⟩
  · rintro ⟨a, inside, rest, hr, rfl⟩
    rw [hr]
    rfl

/-- The whole text is a range of it, so it can always be replaced. -/
theorem replaceIn_whole (text replacement : String) :
    replaceIn text replacement ⟨.zero, endPos text⟩ = .ok replacement := by
  refine replaceIn_eq_ok_iff.2 ⟨[], text.toList, [], around_eq_ok_iff.2 ⟨?_, rfl, rfl⟩, ?_⟩
  · simp
  · simp

/-- A range that ends no later than a common beginning of two texts lies in that beginning, and has
the same characters before and inside it in both. -/
theorem around_of_prefix {text other : String} {span : Span} {common x y a inside rest : List Char}
    (h : around text span = .ok (a, inside, rest)) (htext : text.toList = common ++ x)
    (hother : other.toList = common ++ y) (hstop : span.stop ≤ Pos.zero.advanceOver common) :
    ∃ gap, common = a ++ inside ++ gap ∧ around other span = .ok (a, inside, gap ++ y) := by
  obtain ⟨hparts, has, hai⟩ := around_eq_ok_iff.1 h
  rw [htext] at hparts
  have hlen : (a ++ inside).length ≤ common.length := by
    rw [← Pos.advanceOver_le_iff .zero hparts rfl, hai]
    exact hstop
  obtain ⟨gap, hgap⟩ : a ++ inside <+: common :=
    List.prefix_of_prefix_length_le ⟨rest, hparts⟩ ⟨x, rfl⟩ hlen
  refine ⟨gap, hgap.symm, around_eq_ok_iff.2 ⟨?_, has, hai⟩⟩
  rw [hother, ← hgap, List.append_assoc _ gap]

end TreeEdit
