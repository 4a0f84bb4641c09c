import TreeEdit.Layout.Node
import TreeEdit.Proofs.Rendering

/-!
# What a layout can look like

Where a document is broken depends on the width, but what it can look like does not. `Doc.Sets flat d
cs` says that the characters `cs` are a way to set the document `d`: flat, with a space for every
`line`, or broken, with a new line of any indentation for every `line` that is not inside a flat
group. A `hardLine` cannot be set flat. The display of a document at any width is one of these ways
(`display_sets`), so a fact about all of them holds at every width. A list is set between its brackets
(`sets_application`, `sets_form`, `sets_bracketed`), a comment above its node line by line (`setsBelow_of_sets`).
-/

namespace TreeEdit

namespace Doc

/-- The characters are a way to set the document, flat or broken. -/
inductive Sets : Bool → Doc → List Char → Prop
  | nil {flat : Bool} : Sets flat nil []
  | text {flat : Bool} (s : String) : Sets flat (text s) s.toList
  | flatLine : Sets true line [' ']
  | brokenLine (indent : Nat) : Sets false line (freshLine indent)
  | hardLine (indent : Nat) : Sets false hardLine (freshLine indent)
  | append {flat : Bool} {a b : Doc} {x y : List Char} :
      Sets flat a x → Sets flat b y → Sets flat (append a b) (x ++ y)
  | nest {flat : Bool} {d : Doc} {x : List Char} (indent : Nat) :
      Sets flat d x → Sets flat (nest indent d) x
  | flatGroup {flat : Bool} {d : Doc} {x : List Char} : Sets true d x → Sets flat (group d) x
  | brokenGroup {d : Doc} {x : List Char} : Sets false d x → Sets false (group d) x

/-- What a document looks like in its mode is a way to set it. -/
theorem rendering_sets {d : Doc} {flat : Bool} (h : flat = true → d.flatWidth.isSome) (width indent column : Nat) :
    Sets flat d (d.rendering width indent flat column) := by
  induction d generalizing flat indent column with
  | nil => exact .nil
  | text s => exact .text s
  | line =>
      cases flat with
      | true => exact .flatLine
      | false => exact .brokenLine indent
  | hardLine =>
      cases flat with
      | true => exact absurd (h rfl) (by simp [flatWidth])
      | false => exact .hardLine indent
  | append a b iha ihb =>
      exact .append (iha (fun hflat => (flatWidth_append.1 (h hflat)).1) indent column)
        (ihb (fun hflat => (flatWidth_append.1 (h hflat)).2) indent _)
  | nest i d ih => exact .nest i (ih h (indent + i) column)
  | group d ih =>
      rw [rendering]
      cases hfits : flat || d.flatWidth.any fun w => column + w ≤ width with
      | true => exact .flatGroup (ih (fun _ => isSome_of_fits h hfits) indent column)
      | false =>
          obtain rfl : flat = false := (Bool.or_eq_false_iff.1 hfits).1
          exact .brokenGroup (ih (fun hflat => absurd hflat Bool.false_ne_true) indent column)

/-- What is displayed, at any width, is a way to set the document. -/
theorem display_sets (d : Doc) (width : Nat) :
    ∃ cs, Sets false d cs ∧ (joinLines (d.display width)).toList = cs := by
  refine ⟨_, rendering_sets (fun hflat => absurd hflat Bool.false_ne_true) width 0 0, ?_⟩
  rw [display_eq, joinLines_linesOf, String.toList_ofList]

/-! ## Ways to set each document -/

theorem sets_text_iff {flat : Bool} {s : String} {cs : List Char} :
    Sets flat (text s) cs ↔ cs = s.toList := by
  constructor
  · rintro ⟨⟩
    rfl
  · rintro rfl
    exact .text s

theorem sets_append_iff {flat : Bool} {a b : Doc} {cs : List Char} :
    Sets flat (append a b) cs ↔ ∃ x y, cs = x ++ y ∧ Sets flat a x ∧ Sets flat b y := by
  constructor
  · rintro ⟨⟩
    exact ⟨_, _, rfl, ‹_›, ‹_›⟩
  · rintro ⟨x, y, rfl, hx, hy⟩
    exact .append hx hy

theorem sets_nest_iff {flat : Bool} {indent : Nat} {d : Doc} {cs : List Char} :
    Sets flat (nest indent d) cs ↔ Sets flat d cs := by
  constructor
  · rintro ⟨⟩
    assumption
  · exact .nest indent

theorem sets_nil_iff {flat : Bool} {cs : List Char} : Sets flat nil cs ↔ cs = [] := by
  constructor
  · rintro ⟨⟩
    rfl
  · rintro rfl
    exact .nil

/-- A group is set flat, or broken where what stands around it is broken. -/
theorem sets_group_iff {flat : Bool} {d : Doc} {cs : List Char} :
    Sets flat (group d) cs ↔ Sets true d cs ∨ flat = false ∧ Sets false d cs := by
  constructor
  · rintro (_ | _)
    · exact .inl ‹_›
    · exact .inr ⟨rfl, ‹_›⟩
  · rintro (h | ⟨rfl, h⟩)
    · exact .flatGroup h
    · exact .brokenGroup h

theorem sets_line_iff {flat : Bool} {cs : List Char} :
    Sets flat line cs ↔ flat = true ∧ cs = [' '] ∨ flat = false ∧ ∃ indent, cs = freshLine indent := by
  constructor
  · rintro (_ | _)
    · exact .inl ⟨rfl, rfl⟩
    · exact .inr ⟨rfl, _, rfl⟩
  · rintro (⟨rfl, rfl⟩ | ⟨rfl, indent, rfl⟩)
    · exact .flatLine
    · exact .brokenLine indent

theorem sets_hardLine_iff {flat : Bool} {cs : List Char} :
    Sets flat hardLine cs ↔ flat = false ∧ ∃ indent, cs = freshLine indent := by
  constructor
  · rintro ⟨⟩
    exact ⟨rfl, _, rfl⟩
  · rintro ⟨rfl, indent, rfl⟩
    exact .hardLine indent

theorem sets_concat_cons_iff {flat : Bool} {d : Doc} {ds : List Doc} {cs : List Char} :
    Sets flat (concat (d :: ds)) cs ↔ ∃ x y, cs = x ++ y ∧ Sets flat d x ∧ Sets flat (concat ds) y :=
  sets_append_iff

theorem sets_concat_nil_iff {flat : Bool} {cs : List Char} : Sets flat (concat []) cs ↔ cs = [] :=
  sets_nil_iff

theorem join_cons (d : Doc) (docs : List Doc) (sep : Doc) :
    join (d :: docs) sep = append d (concat (docs.flatMap fun e => [sep, e])) := by
  have hconcat : ∀ (d : Doc) (docs : List Doc),
      (d :: docs).intersperse sep = d :: docs.flatMap fun e => [sep, e] := by
    intro d docs
    induction docs generalizing d with
    | nil => rfl
    | cons e docs ih => rw [List.intersperse_cons_cons, ih e, List.flatMap_cons]; rfl
  rw [join, hconcat]
  rfl

/-- A group is set in one of the ways its content is. -/
theorem exists_of_sets_group {flat : Bool} {d : Doc} {cs : List Char} (h : Sets flat (group d) cs) :
    ∃ flat', Sets flat' d cs := by
  rcases sets_group_iff.1 h with h | ⟨-, h⟩
  · exact ⟨true, h⟩
  · exact ⟨false, h⟩

theorem sets_application {flat : Bool} {d : Doc} {docs : List Doc} {cs : List Char}
    (h : Sets flat (Layout.application d docs) cs) :
    ∃ flat' x y, cs = '(' :: ((x ++ y) ++ [')']) ∧ Sets flat' d x ∧ Sets flat' (Layout.broken docs) y := by
  obtain ⟨flat', h⟩ := exists_of_sets_group h
  simp only [sets_concat_cons_iff, sets_concat_nil_iff, sets_text_iff, sets_nest_iff] at h
  obtain ⟨_, _, rfl, rfl, x, _, rfl, hx, y, _, rfl, hy, _, _, rfl, rfl, rfl⟩ := h
  exact ⟨flat', x, y, by simp, hx, hy⟩

/-- The first item is set on the line of the keyword. -/
theorem sets_form {flat : Bool} {keyword : String} {d : Doc} {docs : List Doc} {cs : List Char}
    (h : Sets flat (Layout.form keyword (d :: docs)) cs) :
    ∃ flat' x y, cs = '(' :: (keyword.toList ++ ' ' :: (x ++ y) ++ [')']) ∧ Sets flat' d x ∧
      Sets flat' (Layout.broken docs) y := by
  obtain ⟨flat', h⟩ := exists_of_sets_group h
  simp only [sets_concat_cons_iff, sets_concat_nil_iff, sets_text_iff, sets_nest_iff] at h
  obtain ⟨_, _, rfl, rfl, _, _, rfl, rfl, _, _, rfl, ⟨_, _, rfl, rfl, x, _, rfl, hx, y, _, rfl, hy, rfl⟩,
    _, _, rfl, rfl, rfl⟩ := h
  exact ⟨flat', x, y, by simp, hx, hy⟩

theorem sets_bracketed {flat : Bool} {opener closer : String} {docs : List Doc} {cs : List Char}
    (h : Sets flat (Layout.bracketed opener closer docs) cs) :
    ∃ flat' inner, cs = opener.toList ++ (inner ++ closer.toList) ∧ Sets flat' (join docs line) inner := by
  obtain ⟨flat', h⟩ := exists_of_sets_group h
  simp only [sets_concat_cons_iff, sets_concat_nil_iff, sets_text_iff, sets_nest_iff] at h
  obtain ⟨_, _, rfl, rfl, inner, _, rfl, hinner, _, _, rfl, rfl, rfl⟩ := h
  exact ⟨flat', inner, by simp, hinner⟩

/-- The characters are a way to set the document broken, below lines that each end in a new line. -/
inductive SetsBelow (d : Doc) : List String → List Char → Prop
  | document {cs : List Char} : Sets false d cs → SetsBelow d [] cs
  | line {line : String} {lines : List String} {cs : List Char} (indent : Nat) :
      SetsBelow d lines cs → SetsBelow d (line :: lines) (line.toList ++ (freshLine indent ++ cs))

/-- A document below lines of text is set line by line, and never flat. -/
theorem setsBelow_of_sets {d : Doc} {lines : List String} (hne : lines ≠ []) {flat : Bool} {cs : List Char}
    (h : Sets flat (concat [join (lines.map text) hardLine, hardLine, d]) cs) :
    flat = false ∧ SetsBelow d lines cs := by
  induction lines generalizing cs with
  | nil => exact absurd rfl hne
  | cons line lines ih =>
      simp only [sets_concat_cons_iff, sets_concat_nil_iff, sets_hardLine_iff] at h
      obtain ⟨x, _, rfl, hx, _, _, rfl, ⟨rfl, indent, rfl⟩, y, _, rfl, hy, rfl⟩ := h
      rw [List.map_cons, join_cons, sets_append_iff] at hx
      obtain ⟨_, z, rfl, htext, hz⟩ := hx
      rw [sets_text_iff.1 htext, List.append_nil, List.append_assoc]
      refine ⟨rfl, ?_⟩
      cases lines with
      | nil =>
          rw [sets_concat_nil_iff.1 hz]
          exact .line indent (.document hy)
      | cons next lines =>
          -- The new line behind this line is the first separator; the others join the lines that are left.
          obtain ⟨_, _, rfl, hfresh, hmore⟩ := sets_concat_cons_iff.1 hz
          obtain ⟨-, indent', rfl⟩ := sets_hardLine_iff.1 hfresh
          obtain ⟨u, v, rfl, hu, hv⟩ := sets_concat_cons_iff.1 hmore
          have hrest : Sets false (concat [join ((next :: lines).map text) hardLine, hardLine, d])
              ((u ++ v) ++ (freshLine indent ++ y)) := by
            simp only [sets_concat_cons_iff, sets_concat_nil_iff, sets_hardLine_iff]
            refine ⟨u ++ v, _, rfl, ?_, _, _, rfl, ⟨trivial, indent, rfl⟩, y, [], by simp, hy, rfl⟩
            rw [List.map_cons, join_cons]
            exact .append hu hv
          rw [List.append_assoc]
          exact .line indent' (ih (List.cons_ne_nil next lines) hrest).2

end Doc

end TreeEdit
