import Mathlib.Data.List.TakeWhile
import Mathlib.Order.Bounds.Basic
import TreeEdit.Proofs.Places

/-!
# Positions and offsets

A position counts lines and characters, an offset counts bytes, and the two are worked out by different
walks: from a position the lines are counted down, from an offset the bytes. Both stand for a division of the
text into what comes before and what comes behind (`offset?_eq_some_iff`, `isBoundary_iff`), and of two such
divisions the one with more characters before it has the greater offset and the later position.

Main statement: `offsets_match_positions`. The positions of a text and its character boundaries are in
one-to-one correspondence, in the same order, and an offset that is no boundary counts as the boundary below.

The last section works both out by scans, an offset from newline to newline and a position from the text before
it, and finds the same (`scanOffset?_eq`, `scanPos_eq`).
-/

namespace TreeEdit

/-! ## Sizes of what stands before -/

theorem byteSize_pos {cs : List Char} (h : cs ≠ []) : 0 < byteSize cs := by
  cases cs with
  | nil => exact absurd rfl h
  | cons c cs => exact Nat.add_pos_left c.utf8Size_pos _

/-- Of two prefixes of one text the shorter one takes fewer bytes. -/
theorem byteSize_le_iff {cs a b x y : List Char} (ha : a ++ x = cs) (hb : b ++ y = cs) :
    byteSize a ≤ byteSize b ↔ a.length ≤ b.length := by
  rcases List.append_eq_append_iff.1 (ha.trans hb.symm) with ⟨t, rfl, -⟩ | ⟨t, rfl, -⟩
  · simp only [byteSize_append, List.length_append, Nat.le_add_right]
  · by_cases ht : t = []
    · subst ht
      simp
    · have hbytes := byteSize_pos ht
      have hchars := List.length_pos_iff.2 ht
      rw [byteSize_append, List.length_append]
      omega

/-- Places in a text come in the order of the sizes of what stands before them. -/
theorem Pos.advanceOver_lt_iff {cs a b x y : List Char} (ha : a ++ x = cs) (hb : b ++ y = cs) :
    zero.advanceOver a < zero.advanceOver b ↔ byteSize a < byteSize b := by
  rw [← not_le, ← not_le, advanceOver_le_iff _ hb ha, byteSize_le_iff hb ha]

/-! ## Boundaries -/

/-- The offset does not lie inside a character of the text, nor beyond its end. -/
def IsBoundary (text : String) (bytes : Nat) : Prop := String.Pos.Raw.IsValid text ⟨bytes⟩

instance (text : String) (bytes : Nat) : Decidable (IsBoundary text bytes) :=
  inferInstanceAs (Decidable (String.Pos.Raw.IsValid text ⟨bytes⟩))

/-- A boundary divides the characters of the text. -/
theorem isBoundary_iff {text : String} {bytes : Nat} :
    IsBoundary text bytes ↔ ∃ before behind, before ++ behind = text.toList ∧ byteSize before = bytes := by
  rw [IsBoundary, String.Pos.Raw.isValid_iff_exists_append]
  constructor
  · rintro ⟨s, t, rfl, hsize⟩
    refine ⟨s.toList, t.toList, String.toList_append.symm, ?_⟩
    rw [byteSize_toList]
    exact (congrArg String.Pos.Raw.byteIdx hsize).symm
  · rintro ⟨before, behind, htext, rfl⟩
    have hsize : (String.ofList before).utf8ByteSize = byteSize before := by
      rw [← byteSize_toList, String.toList_ofList]
    refine ⟨.ofList before, .ofList behind, ?_, String.Pos.Raw.ext hsize.symm⟩
    rw [← String.ofList_append, htext, String.ofList_toList]

/-- The offset of a position is the size of what leads there. -/
theorem offset?_eq_some_iff {text : String} {p : Pos} {bytes : Nat} :
    offset? text p = some bytes ↔ ∃ before behind, before ++ behind = text.toList ∧
      Pos.zero.advanceOver before = p ∧ byteSize before = bytes := by
  constructor
  · intro h
    obtain ⟨before, hbefore, rfl⟩ := Option.map_eq_some_iff.1 h
    obtain ⟨⟨_, behind⟩, hcut, rfl⟩ := Option.map_eq_some_iff.1 hbefore
    obtain ⟨htext, hp⟩ := cut?_eq_some_iff.1 hcut
    exact ⟨_, behind, htext, hp, rfl⟩
  · rintro ⟨before, behind, htext, rfl, rfl⟩
    rw [offset?, before?, cut?_eq_some_iff.2 ⟨htext, rfl⟩]
    rfl

/-! ## From an offset to a position -/

theorem posAfter_append (p : Pos) (a b : List Char) : posAfter p (a ++ b) (byteSize a) = p.advanceOver a := by
  induction a generalizing p with
  | nil =>
      cases b with
      | nil => rfl
      | cons c b => exact if_neg (Nat.not_le.2 c.utf8Size_pos)
  | cons c a ih => rw [List.cons_append, byteSize, posAfter, if_pos (by omega), Nat.add_sub_cancel_left, ih]; rfl

theorem posOfOffset_of_append {text : String} {before behind : List Char} (h : before ++ behind = text.toList) :
    posOfOffset text (byteSize before) = Pos.zero.advanceOver before := by
  rw [posOfOffset, ← h, posAfter_append]

/-- The walk stops where the next character no longer fits. -/
theorem exists_posAfter_eq (p : Pos) (cs : List Char) (bytes : Nat) :
    ∃ before behind, before ++ behind = cs ∧ posAfter p cs bytes = p.advanceOver before ∧ byteSize before ≤ bytes ∧
      ∀ c ∈ behind.head?, bytes < byteSize before + c.utf8Size := by
  induction cs generalizing p bytes with
  | nil => exact ⟨[], [], rfl, rfl, Nat.zero_le _, nofun⟩
  | cons c cs ih =>
      rw [posAfter]
      split
      · rename_i hfits
        obtain ⟨before, behind, rfl, hpos, hle, hnext⟩ := ih (p.advance c) (bytes - c.utf8Size)
        refine ⟨c :: before, behind, rfl, hpos, ?_, fun d hd => ?_⟩
        · rw [byteSize]
          omega
        · have hd := hnext d hd
          rw [byteSize]
          omega
      · rename_i hfits
        refine ⟨[], c :: cs, rfl, rfl, Nat.zero_le _, ?_⟩
        rintro d ⟨⟩
        rw [byteSize]
        omega

/-- An offset leads to the place of the greatest boundary that is not above it. -/
theorem exists_greatest_boundary (text : String) (bytes : Nat) :
    ∃ below, IsGreatest {b | IsBoundary text b ∧ b ≤ bytes} below ∧
      posOfOffset text bytes = posOfOffset text below := by
  obtain ⟨before, behind, htext, hpos, hle, hnext⟩ := exists_posAfter_eq .zero text.toList bytes
  refine ⟨byteSize before, ⟨⟨isBoundary_iff.2 ⟨before, behind, htext, rfl⟩, hle⟩, ?_⟩, ?_⟩
  · rintro b ⟨hboundary, hb⟩
    obtain ⟨longer, rest, hlonger, rfl⟩ := isBoundary_iff.1 hboundary
    by_contra hlt
    -- A longer prefix goes on with the character that did not fit.
    rcases List.append_eq_append_iff.1 (htext.trans hlonger.symm) with ⟨t, rfl, rfl⟩ | ⟨t, rfl, -⟩
    · cases t with
      | nil => simp at hlt
      | cons c t =>
          have hc := hnext c rfl
          rw [byteSize_append, byteSize] at hb
          omega
    · rw [byteSize_append] at hlt
      omega
  · rw [posOfOffset_of_append htext]
    exact hpos

/-! ## The correspondence -/

/-- Positions and character boundaries of a text are in one-to-one correspondence, in the same order. An offset
inside a character or beyond the end leads to the position of the nearest boundary below. -/
theorem offsets_match_positions (text : String) :
    (∀ bytes, IsBoundary text bytes → offset? text (posOfOffset text bytes) = some bytes) ∧
      (∀ p bytes, offset? text p = some bytes → IsBoundary text bytes ∧ posOfOffset text bytes = p) ∧
      (∀ p q a b, offset? text p = some a → offset? text q = some b → (p < q ↔ a < b)) ∧
      ∀ bytes, ∃ below, IsGreatest {b | IsBoundary text b ∧ b ≤ bytes} below ∧
        posOfOffset text bytes = posOfOffset text below ∧ offset? text (posOfOffset text bytes) = some below := by
  have hback : ∀ bytes, IsBoundary text bytes → offset? text (posOfOffset text bytes) = some bytes := by
    intro bytes h
    obtain ⟨before, behind, htext, rfl⟩ := isBoundary_iff.1 h
    exact offset?_eq_some_iff.2 ⟨before, behind, htext, (posOfOffset_of_append htext).symm, rfl⟩
  refine ⟨hback, fun p bytes h => ?_, fun p q a b hp hq => ?_, fun bytes => ?_⟩
  · obtain ⟨before, behind, htext, rfl, rfl⟩ := offset?_eq_some_iff.1 h
    exact ⟨isBoundary_iff.2 ⟨before, behind, htext, rfl⟩, posOfOffset_of_append htext⟩
  · obtain ⟨before, behind, htext, rfl, rfl⟩ := offset?_eq_some_iff.1 hp
    obtain ⟨before', behind', htext', rfl, rfl⟩ := offset?_eq_some_iff.1 hq
    exact Pos.advanceOver_lt_iff htext htext'
  · obtain ⟨below, hgreatest, hpos⟩ := exists_greatest_boundary text bytes
    exact ⟨below, hgreatest, hpos, hpos ▸ hback below hgreatest.1.1⟩

/-- A character of two bytes ends a line; the next line is empty, and the last one has no newline. -/
theorem offsets_match_positions_on_short_lines :
    IsBoundary "aλ\n\nb" 3 ∧ offset? "aλ\n\nb" (posOfOffset "aλ\n\nb" 3) = some 3 ∧
      offset? "aλ\n\nb" ⟨2, 1⟩ = some 6 ∧ posOfOffset "aλ\n\nb" 6 = ⟨2, 1⟩ ∧
      offset? "aλ\n\nb" ⟨1, 0⟩ = some 4 ∧ ((⟨1, 0⟩ : Pos) < ⟨2, 1⟩ ↔ 4 < 6) := by
  obtain ⟨hback, hthere, horder, -⟩ := offsets_match_positions "aλ\n\nb"
  have hboundary : IsBoundary "aλ\n\nb" 3 := by decide
  have hlast : offset? "aλ\n\nb" ⟨2, 1⟩ = some 6 := by decide
  have hempty : offset? "aλ\n\nb" ⟨1, 0⟩ = some 4 := by decide
  exact ⟨hboundary, hback 3 hboundary, hlast, (hthere _ _ hlast).2, hempty, horder _ _ _ _ hempty hlast⟩

/-! ## Scans over the text

An offset can be worked out line by line: newlines are searched for until the line is reached, and its
characters are counted. A position can be worked out from the text before an offset: the newlines in it, and the
characters behind the last one. An offset inside a character steps back to the start of it. -/

/-- Where a line starts, and the text from there on, found by one newline after the other. -/
def lineFrom : Nat → Nat → List Char → Option (Nat × List Char)
  | 0, start, cs => some (start, cs)
  | line + 1, start, cs =>
    match cs.dropWhile (· ≠ '\n') with
    | [] => none
    | _ :: rest => lineFrom line (start + byteSize (cs.takeWhile (· ≠ '\n')) + 1) rest

/-- The offset of a column of a line. -/
def offsetInLine? (ch start : Nat) (rest : List Char) : Option Nat :=
  let line := rest.takeWhile (· ≠ '\n')
  if ch = line.length then some (start + byteSize line)
  else if ch < line.length then some (start + byteSize (line.take ch))
  else none

/-- The byte offset of a position, found line by line. -/
def scanOffset? (text : String) (p : Pos) : Option Nat :=
  (lineFrom p.line 0 text.toList).bind fun found => offsetInLine? p.ch found.1 found.2

/-- The nearest boundary that is not above an offset, found step by step. -/
def boundaryBelow (text : String) : Nat → Nat
  | 0 => 0
  | bytes + 1 => if IsBoundary text (bytes + 1) then bytes + 1 else boundaryBelow text bytes

/-- The characters before a boundary. -/
def charsBefore (text : String) (bytes : Nat) : List Char :=
  (text.toList.inits.find? fun before => byteSize before = bytes).getD []

/-- The position of a byte offset, counted in the text before it. -/
def scanPos (text : String) (bytes : Nat) : Pos :=
  let before := charsBefore text (boundaryBelow text (min bytes text.utf8ByteSize))
  ⟨before.count '\n', (before.reverse.takeWhile (· ≠ '\n')).length⟩

theorem before?_line (cs : List Char) (ch : Nat) :
    before? cs ⟨0, ch⟩ = if ch ≤ (cs.takeWhile (· ≠ '\n')).length then some (cs.take ch) else none := by
  induction cs generalizing ch with
  | nil => cases ch <;> simp [before?, cut?]
  | cons c cs ih =>
      cases ch with
      | zero => simp [before?, cut?]
      | succ ch =>
          by_cases hc : c = '\n'
          · simp [before?, cut?, hc]
          · have hnext : before? (c :: cs) ⟨0, ch + 1⟩ = (before? cs ⟨0, ch⟩).map (c :: ·) := by
              simp [before?, cut?, hc, Function.comp_def]
            rw [hnext, ih]
            simp [hc]

theorem before?_no_line {cs : List Char} (h : '\n' ∉ cs) (line ch : Nat) : before? cs ⟨line + 1, ch⟩ = none := by
  induction cs with
  | nil => simp [before?, cut?]
  | cons c cs ih =>
      obtain ⟨hc, hcs⟩ := List.ne_and_not_mem_of_not_mem_cons h
      have hrest := ih hcs
      simp only [before?, Option.map_eq_none_iff] at hrest ⊢
      simp [cut?, Ne.symm hc, hrest]

theorem before?_next_line {first : List Char} (h : '\n' ∉ first) (rest : List Char) (line ch : Nat) :
    before? (first ++ '\n' :: rest) ⟨line + 1, ch⟩ =
      (before? rest ⟨line, ch⟩).map fun before => first ++ '\n' :: before := by
  induction first with
  | nil => simp [before?, cut?, Function.comp_def]
  | cons c first ih =>
      obtain ⟨hc, hfirst⟩ := List.ne_and_not_mem_of_not_mem_cons h
      have hnext : before? (c :: (first ++ '\n' :: rest)) ⟨line + 1, ch⟩ =
          (before? (first ++ '\n' :: rest) ⟨line + 1, ch⟩).map (c :: ·) := by
        simp [before?, cut?, Ne.symm hc, Function.comp_def]
      rw [List.cons_append, hnext, ih hfirst, Option.map_map]
      rfl

theorem bind_lineFrom (line start ch : Nat) (cs : List Char) :
    (lineFrom line start cs).bind (fun found => offsetInLine? ch found.1 found.2) =
      (before? cs ⟨line, ch⟩).map fun before => start + byteSize before := by
  induction line generalizing start cs with
  | zero =>
      have hsplit := List.takeWhile_append_dropWhile (p := fun c : Char => c ≠ '\n') (l := cs)
      have htake : ∀ k ≤ (cs.takeWhile (· ≠ '\n')).length, cs.take k = (cs.takeWhile (· ≠ '\n')).take k := by
        intro k hk
        conv_lhs => rw [← hsplit]
        exact List.take_append_of_le_length hk
      simp only [lineFrom, Option.bind_some, before?_line, offsetInLine?]
      rcases lt_trichotomy ch (cs.takeWhile (· ≠ '\n')).length with hlt | heq | hgt
      · rw [if_neg hlt.ne, if_pos hlt, if_pos hlt.le, htake ch hlt.le]
        rfl
      · rw [if_pos heq, if_pos heq.le, htake ch heq.le, heq, List.take_length]
        rfl
      · rw [if_neg hgt.ne', if_neg hgt.not_gt, if_neg hgt.not_ge]
        rfl
  | succ line ih =>
      have hfirst : '\n' ∉ cs.takeWhile (· ≠ '\n') := fun hmem => by simpa using List.mem_takeWhile_imp hmem
      have hsplit := List.takeWhile_append_dropWhile (p := fun c : Char => c ≠ '\n') (l := cs)
      rw [lineFrom]
      cases hrest : cs.dropWhile (· ≠ '\n') with
      | nil =>
          rw [hrest, List.append_nil] at hsplit
          rw [← hsplit, before?_no_line hfirst]
          rfl
      | cons c rest =>
          obtain rfl : c = '\n' := by
            have hne : cs.dropWhile (· ≠ '\n') ≠ [] := by rw [hrest]; exact List.cons_ne_nil c rest
            have hhead := List.head_dropWhile_not _ hne
            simp only [hrest, List.head_cons] at hhead
            simpa using hhead
          rw [hrest] at hsplit
          conv_rhs => rw [← hsplit, before?_next_line hfirst, Option.map_map]
          rw [ih]
          congr 1
          funext before
          have hnewline : ('\n' : Char).utf8Size = 1 := by decide
          simp only [Function.comp_apply, byteSize_append, byteSize, hnewline]
          omega

/-- The offset found line by line is the offset of the position. -/
theorem scanOffset?_eq (text : String) (p : Pos) : scanOffset? text p = offset? text p := by
  rw [scanOffset?, bind_lineFrom, offset?]
  simp

theorem isGreatest_boundaryBelow (text : String) (bytes : Nat) :
    IsGreatest {b | IsBoundary text b ∧ b ≤ bytes} (boundaryBelow text bytes) := by
  induction bytes with
  | zero =>
      refine ⟨⟨isBoundary_iff.2 ⟨[], text.toList, rfl, rfl⟩, le_refl _⟩, ?_⟩
      rintro b ⟨-, hb⟩
      exact hb
  | succ bytes ih =>
      rw [boundaryBelow]
      split
      · rename_i hboundary
        refine ⟨⟨hboundary, le_refl _⟩, ?_⟩
        rintro b ⟨-, hb⟩
        exact hb
      · rename_i hinside
        obtain ⟨⟨hboundary, hle⟩, hgreatest⟩ := ih
        refine ⟨⟨hboundary, hle.trans (Nat.le_succ _)⟩, ?_⟩
        rintro b ⟨hb, hle⟩
        refine hgreatest ⟨hb, Nat.le_of_lt_succ (lt_of_le_of_ne hle ?_)⟩
        rintro rfl
        exact hinside hb

theorem charsBefore_of_append {text : String} {before behind : List Char} (h : before ++ behind = text.toList) :
    charsBefore text (byteSize before) = before := by
  have hmem : before ∈ text.toList.inits := (List.mem_inits _ _).2 ⟨behind, h⟩
  cases hfind : text.toList.inits.find? fun before' => byteSize before' = byteSize before with
  | none => simpa using List.find?_eq_none.1 hfind before hmem
  | some before' =>
      obtain ⟨behind', h'⟩ := (List.mem_inits _ _).1 (List.mem_of_find?_eq_some hfind)
      have hsize : byteSize before' = byteSize before := by simpa using List.find?_some hfind
      have hlength := le_antisymm ((byteSize_le_iff h' h).1 hsize.le) ((byteSize_le_iff h h').1 hsize.ge)
      rw [charsBefore, hfind, Option.getD_some]
      exact List.append_inj_left (h'.trans h.symm) hlength

theorem advanceOver_zero_eq (cs : List Char) :
    Pos.zero.advanceOver cs = ⟨cs.count '\n', (cs.reverse.takeWhile (· ≠ '\n')).length⟩ := by
  induction cs using List.reverseRecOn with
  | nil => rfl
  | append_singleton cs c ih =>
      rw [Pos.advanceOver_append, ih]
      by_cases hc : c = '\n' <;> simp [Pos.advance, hc]

/-- The position counted in the text before an offset is the position of the offset. -/
theorem scanPos_eq (text : String) (bytes : Nat) : scanPos text bytes = posOfOffset text bytes := by
  obtain ⟨below, hgreatest, hpos⟩ := exists_greatest_boundary text bytes
  have hbelow : boundaryBelow text (min bytes text.utf8ByteSize) = below := by
    refine (isGreatest_boundaryBelow text _).unique ⟨⟨hgreatest.1.1, le_min hgreatest.1.2 ?_⟩, ?_⟩
    · obtain ⟨before, behind, htext, rfl⟩ := isBoundary_iff.1 hgreatest.1.1
      rw [← byteSize_toList, ← htext, byteSize_append]
      exact Nat.le_add_right _ _
    · rintro b ⟨hb, hle⟩
      exact hgreatest.2 ⟨hb, hle.trans (min_le_left _ _)⟩
  obtain ⟨before, behind, htext, hsize⟩ := isBoundary_iff.1 hgreatest.1.1
  rw [hpos, ← hsize, posOfOffset_of_append htext, advanceOver_zero_eq, scanPos, hbelow, ← hsize,
    charsBefore_of_append htext]

end TreeEdit
