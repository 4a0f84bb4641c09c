import Mathlib.Data.List.Basic
import Mathlib.Data.List.Forall2
import Mathlib.Logic.Relation
import TreeEdit.Layout.Doc

/-!
# Layout by recursion

The layout of a document works off a list of pending parts, each with its indentation and mode, onto a page
that keeps its own column. `Doc.rendering` says what the same document looks like by recursion on its
structure: at an indentation, flat or broken, from a column on. One step of the work is `Doc.step`; a part is
worked off in a run of steps that puts exactly its rendering on the page (`Doc.runs_rendering`), and on the way
the column of the page is always the length of its last line.

A concatenation is a chain of `append`s, which is taken apart as the list of its documents would be
(`Doc.flatWidth_concat`, `Doc.layout_concat`).

Main statement: `Doc.layout_follows_rendering`. It also says that a group that fits is set on the current line
in its flat width, and that the width decides nothing but which `line`s are spaces and which are new lines.
-/

namespace TreeEdit

/-! ## Lines -/

theorem splitLines_eq (cs : List Char) : splitLines cs = cs.splitOn '\n' := by
  induction cs with
  | nil => rfl
  | cons c cs ih =>
      rw [splitLines, List.splitOn_cons_eq_if_modifyHead, ih]
      by_cases hc : c = '\n'
      · simp [hc]
      · have hne : cs.splitOn '\n' ≠ [] := List.splitOn_ne_nil _ _
        cases hs : cs.splitOn '\n' with
        | nil => exact absurd hs hne
        | cons line rest => simp [hc]

theorem splitLines_ne_nil (cs : List Char) : splitLines cs ≠ [] := by
  rw [splitLines_eq]
  exact List.splitOn_ne_nil _ _

theorem linesOf_ne_nil (s : String) : linesOf s ≠ [] := by
  rw [linesOf]
  exact mt List.map_eq_nil_iff.1 (splitLines_ne_nil _)

theorem splitLines_cons (c : Char) (cs : List Char) :
    splitLines (c :: cs) =
      if c = '\n' then [] :: splitLines cs else (splitLines cs).modifyHead (c :: ·) := by
  rw [splitLines_eq, splitLines_eq, List.splitOn_cons_eq_if_modifyHead]
  simp

theorem toList_joinLines (lines : List String) :
    (joinLines lines).toList = ['\n'].intercalate (lines.map String.toList) := by
  rw [joinLines, String.toList_intercalate]
  rfl

theorem joinLines_singleton (s : String) : joinLines [s] = s := by
  simp [joinLines]

theorem joinLines_linesOf (s : String) : joinLines (linesOf s) = s := by
  have hlines : (linesOf s).map String.toList = s.toList.splitOn '\n' := by
    simp [linesOf, splitLines_eq, Function.comp_def]
  rw [← String.toList_inj, toList_joinLines, hlines, List.intercalate_splitOn]

/-- A new line with some indentation. -/
def Doc.freshLine (indent : Nat) : List Char := '\n' :: List.replicate indent ' '

/-! ## Pages, character by character -/

/-- The column after some characters: how many stand behind the last newline. -/
def columnAfter (column : Nat) (cs : List Char) : Nat :=
  cs.foldl (fun column c => if c = '\n' then 0 else column + 1) column

namespace Page

/-- One character, which may be a newline. -/
def put (p : Page) (c : Char) : Page := if c = '\n' then p.newLine 0 else p.write [c]

/-- Characters one after the other. -/
def putAll (p : Page) (cs : List Char) : Page := cs.foldl put p

theorem putAll_cons (p : Page) (c : Char) (cs : List Char) : p.putAll (c :: cs) = (p.put c).putAll cs := rfl

theorem putAll_append (p : Page) (cs ds : List Char) : p.putAll (cs ++ ds) = (p.putAll cs).putAll ds :=
  List.foldl_append

theorem put_newline (p : Page) : p.put '\n' = p.newLine 0 := if_pos rfl

theorem put_of_ne {c : Char} (h : c ≠ '\n') (p : Page) : p.put c = p.write [c] := if_neg h

theorem write_nil (p : Page) : p.write [] = p := by simp [write]

theorem write_cons (p : Page) (c : Char) (cs : List Char) : p.write (c :: cs) = (p.write [c]).write cs := by
  simp only [write, List.append_assoc, List.singleton_append, List.length_cons, List.length_nil]
  rw [Nat.add_assoc, Nat.add_comm cs.length]

theorem putAll_of_not_mem {cs : List Char} (h : '\n' ∉ cs) (p : Page) : p.putAll cs = p.write cs := by
  induction cs generalizing p with
  | nil => exact (write_nil p).symm
  | cons c cs ih =>
      have hc : c ≠ '\n' := fun hc => h (hc ▸ List.mem_cons_self)
      have hcs : '\n' ∉ cs := fun hcs => h (List.mem_cons_of_mem _ hcs)
      rw [putAll_cons, put_of_ne hc, ih hcs, ← write_cons]

theorem newLine_eq_putAll (p : Page) (indent : Nat) : p.newLine indent = p.putAll (Doc.freshLine indent) := by
  have hspaces : '\n' ∉ List.replicate indent ' ' := fun h => absurd (List.eq_of_mem_replicate h) (by decide)
  rw [Doc.freshLine, putAll_cons, put_newline, putAll_of_not_mem hspaces]
  simp [newLine, write]

theorem foldl_newLine_eq_putAll (cs : List Char) (p : Page) {first : List Char} {rest : List (List Char)}
    (h : splitLines cs = first :: rest) :
    rest.foldl (fun p part => (p.newLine 0).write part) (p.write first) = p.putAll cs := by
  induction cs generalizing p first rest with
  | nil =>
      cases h
      exact write_nil p
  | cons c cs ih =>
      obtain ⟨line, lines, hcs⟩ := List.exists_cons_of_ne_nil (splitLines_ne_nil cs)
      rw [splitLines_cons, hcs] at h
      rw [putAll_cons]
      -- A newline starts the line of the page on which the next line of the text is set.
      by_cases hc : c = '\n'
      · rw [if_pos hc] at h
        cases h
        rw [hc, put_newline, write_nil, List.foldl_cons, ih (p.newLine 0) hcs]
      · rw [if_neg hc, List.modifyHead_cons] at h
        cases h
        rw [put_of_ne hc, write_cons, ih (p.write [c]) hcs]

theorem writeText_eq_putAll (p : Page) (s : String) : p.writeText s = p.putAll s.toList := by
  obtain ⟨first, rest, hs⟩ := List.exists_cons_of_ne_nil (splitLines_ne_nil s.toList)
  rw [writeText, hs]
  exact foldl_newLine_eq_putAll s.toList p hs

theorem column_putAll (p : Page) (cs : List Char) : (p.putAll cs).column = columnAfter p.column cs := by
  induction cs generalizing p with
  | nil => rfl
  | cons c cs ih =>
      have hput : (p.put c).column = if c = '\n' then 0 else p.column + 1 := by
        rw [put]
        split <;> rfl
      rw [putAll_cons, ih, hput]
      rfl

/-- The lines of a page with characters put on it: their first line goes on behind the last one. -/
theorem reverse_putAll (p : Page) (cs : List Char) :
    ((p.putAll cs).current :: (p.putAll cs).above).reverse =
      p.above.reverse ++ (splitLines cs).modifyHead (p.current ++ ·) := by
  induction cs generalizing p with
  | nil => simp [putAll, splitLines]
  | cons c cs ih =>
      obtain ⟨line, lines, hcs⟩ := List.exists_cons_of_ne_nil (splitLines_ne_nil cs)
      rw [putAll_cons, ih, splitLines_cons, hcs]
      by_cases hc : c = '\n'
      · simp [hc, put_newline, newLine]
      · simp [hc, put_of_ne hc, write]

theorem lines_putAll_start (cs : List Char) : (start.putAll cs).lines = linesOf (.ofList cs) := by
  obtain ⟨line, lines, hcs⟩ := List.exists_cons_of_ne_nil (splitLines_ne_nil cs)
  have hlines := reverse_putAll start cs
  rw [hcs] at hlines
  rw [Page.lines, hlines, linesOf, String.toList_ofList, hcs]
  rfl

/-- The tracked column is the number of characters of the last line. -/
def Aligned (p : Page) : Prop := p.column = p.current.length

theorem Aligned.putAll {p : Page} (h : p.Aligned) (cs : List Char) : (p.putAll cs).Aligned := by
  induction cs generalizing p with
  | nil => exact h
  | cons c cs ih =>
      refine ih ?_
      rw [put]
      split
      · rfl
      · rw [Aligned, write, List.length_append, ← h]

theorem Aligned.length_getLast {p : Page} (h : p.Aligned) :
    p.lines.getLast?.map String.length = some p.column := by
  rw [h]
  simp [lines]

end Page

namespace Doc

/-! ## The recursion -/

/-- The characters of a document at an indentation, flat or broken, from a column on. -/
def rendering (width : Nat) : Doc → (indent : Nat) → (flat : Bool) → (column : Nat) → List Char
  | nil, _, _, _ => []
  | text s, _, _, _ => s.toList
  | line, indent, flat, _ => if flat then [' '] else freshLine indent
  | hardLine, indent, _, _ => freshLine indent
  | append a b, indent, flat, column =>
    let before := a.rendering width indent flat column
    before ++ b.rendering width indent flat (columnAfter column before)
  | nest i d, indent, flat, column => d.rendering width (indent + i) flat column
  | group d, indent, flat, column =>
    d.rendering width indent (flat || d.flatWidth.any fun w => column + w ≤ width) column

theorem flatWidth_append {a b : Doc} :
    (append a b).flatWidth.isSome ↔ a.flatWidth.isSome ∧ b.flatWidth.isSome := by
  rw [flatWidth]
  cases a.flatWidth <;> cases b.flatWidth <;> simp

/-- A group that is set flat can be. -/
theorem isSome_of_fits {d : Doc} {flat : Bool} (h : flat = true → d.flatWidth.isSome) {P : Nat → Bool}
    (hfits : (flat || d.flatWidth.any P) = true) : d.flatWidth.isSome := by
  rcases Bool.or_eq_true_iff.1 hfits with hflat | hany
  · exact h hflat
  · exact Option.isSome_of_any hany

theorem flatWidth_append_eq_some_iff {a b : Doc} {w : Nat} :
    (append a b).flatWidth = some w ↔ ∃ x y, a.flatWidth = some x ∧ b.flatWidth = some y ∧ x + y = w := by
  rw [flatWidth]
  cases a.flatWidth <;> cases b.flatWidth <;> simp

theorem foldlM_flatWidth (docs : List Doc) (width : Nat) :
    docs.foldlM (fun sum d => d.flatWidth.map (sum + ·)) width = (concat docs).flatWidth.map (width + ·) := by
  induction docs generalizing width with
  | nil => rfl
  | cons d docs ih =>
      rw [List.foldlM_cons, concat, List.foldr_cons, flatWidth, ← concat]
      cases d.flatWidth with
      | none => rfl
      | some w =>
          cases hdocs : (concat docs).flatWidth with
          | none => simp [ih, hdocs]
          | some v => simp [ih, hdocs, Nat.add_assoc]

/-- The flat width of a concatenation is summed up from the first document to the last. -/
theorem flatWidth_concat (docs : List Doc) :
    (concat docs).flatWidth = docs.foldlM (fun sum d => d.flatWidth.map (sum + ·)) 0 := by
  simp [foldlM_flatWidth]

/-- Set flat, a document is on one line and as wide as its flat width says. -/
theorem rendering_flat {d : Doc} {w : Nat} (h : d.flatWidth = some w) (width indent column : Nat) :
    (d.rendering width indent true column).length = w ∧ '\n' ∉ d.rendering width indent true column := by
  induction d generalizing w indent column with
  | nil =>
      cases h
      exact ⟨rfl, List.not_mem_nil⟩
  | text s =>
      rw [flatWidth] at h
      split at h
      · cases h
      · rename_i hs
        cases h
        exact ⟨rfl, by simpa [rendering] using hs⟩
  | line =>
      cases h
      exact ⟨rfl, by simp [rendering]⟩
  | hardLine => cases h
  | append a b iha ihb =>
      obtain ⟨x, y, ha, hb, rfl⟩ := flatWidth_append_eq_some_iff.1 h
      obtain ⟨hlena, hmema⟩ := iha ha indent column
      -- The column does not matter in flat mode: a group there is flat whether it fits or not.
      obtain ⟨hlenb, hmemb⟩ := ihb hb indent (columnAfter column (a.rendering width indent true column))
      refine ⟨?_, ?_⟩
      · rw [rendering, List.length_append, hlena, hlenb]
      · rw [rendering, List.mem_append]
        exact fun hmem => hmem.elim hmema hmemb
  | nest i d ih => exact ih h (indent + i) column
  | group d ih => exact ih h indent column

/-! ## The steps of the work -/

/-- One step: the first pending part is set on the page, or replaced by what it is made of. -/
def step (width : Nat) : List Pending × Page → Option (List Pending × Page)
  | ([], _) => none
  | (⟨_, _, nil⟩ :: rest, page) => some (rest, page)
  | (⟨_, _, text s⟩ :: rest, page) => some (rest, page.writeText s)
  | (⟨indent, flat, line⟩ :: rest, page) =>
    some (rest, if flat then page.write [' '] else page.newLine indent)
  | (⟨indent, _, hardLine⟩ :: rest, page) => some (rest, page.newLine indent)
  | (⟨indent, flat, append a b⟩ :: rest, page) =>
    some (⟨indent, flat, a⟩ :: ⟨indent, flat, b⟩ :: rest, page)
  | (⟨indent, flat, nest i d⟩ :: rest, page) => some (⟨indent + i, flat, d⟩ :: rest, page)
  | (⟨indent, flat, group d⟩ :: rest, page) =>
    some (⟨indent, flat || d.flatWidth.any fun w => page.column + w ≤ width, d⟩ :: rest, page)

/-- The work before its first step. -/
def atStart (d : Doc) : List Pending × Page := ([⟨0, false, d⟩], .start)

/-- A run of the work: any number of steps. -/
def Runs (width : Nat) : List Pending × Page → List Pending × Page → Prop :=
  Relation.ReflTransGen fun state next => step width state = some next

theorem layout_of_step {width : Nat} {state next : List Pending × Page} (h : step width state = some next) :
    layout width state.1 state.2 = layout width next.1 next.2 := by
  obtain ⟨_ | ⟨⟨indent, flat, d⟩, rest⟩, page⟩ := state
  · cases h
  · cases d <;> cases h <;> rw [layout]

theorem Runs.layout_eq {width : Nat} {state last : List Pending × Page} (h : Runs width state last) :
    layout width state.1 state.2 = layout width last.1 last.2 := by
  induction h with
  | refl => rfl
  | tail _ hstep ih => rw [ih, layout_of_step hstep]

/-- A part is worked off by putting its rendering on the page. -/
theorem runs_rendering (width : Nat) (d : Doc) (indent : Nat) (flat : Bool) (rest : List Pending) (page : Page) :
    Runs width (⟨indent, flat, d⟩ :: rest, page)
      (rest, page.putAll (d.rendering width indent flat page.column)) := by
  induction d generalizing indent flat rest page with
  | nil => exact .single rfl
  | text s =>
      refine .single ?_
      rw [step, Page.writeText_eq_putAll, rendering]
  | line =>
      refine .single ?_
      rw [step, rendering]
      cases flat with
      | true => rw [if_pos rfl, if_pos rfl, Page.putAll_of_not_mem (by simp)]
      | false => rw [if_neg Bool.false_ne_true, if_neg Bool.false_ne_true, Page.newLine_eq_putAll]
  | hardLine =>
      refine .single ?_
      rw [step, Page.newLine_eq_putAll, rendering]
  | append a b iha ihb =>
      -- The second document starts in the column the first one leaves.
      have ha := iha indent flat (⟨indent, flat, b⟩ :: rest) page
      have hb := ihb indent flat rest (page.putAll (a.rendering width indent flat page.column))
      rw [Page.column_putAll, ← Page.putAll_append] at hb
      exact .head rfl (ha.trans hb)
  | nest i d ih => exact .head rfl (ih (indent + i) flat rest page)
  | group d ih =>
      exact .head rfl (ih indent (flat || d.flatWidth.any fun w => page.column + w ≤ width) rest page)

/-- A concatenation is worked off by putting its documents before what is pending, the last one first. -/
theorem layout_concat (width : Nat) (docs : List Doc) (indent : Nat) (flat : Bool) (rest : List Pending)
    (page : Page) :
    layout width (⟨indent, flat, concat docs⟩ :: rest) page =
      layout width (docs.reverse.foldl (fun pending d => ⟨indent, flat, d⟩ :: pending) rest) page := by
  rw [List.foldl_reverse]
  induction docs generalizing page with
  | nil => rw [concat, List.foldr_nil, layout, List.foldr_nil]
  | cons d docs ih =>
      -- Both sides set the first document on the page and go on with the others.
      have hfirst := fun rest => (runs_rendering width d indent flat rest page).layout_eq
      rw [concat, List.foldr_cons, ← concat, layout, List.foldr_cons, hfirst, hfirst]
      exact ih _

theorem display_eq (d : Doc) (width : Nat) :
    d.display width = linesOf (.ofList (d.rendering width 0 false 0)) := by
  have hlayout := (runs_rendering width d 0 false [] .start).layout_eq
  rw [display, hlayout, layout]
  exact Page.lines_putAll_start _

/-! ## What every step keeps -/

/-- A part that stands in a flat group can be set flat. -/
def Pending.Fits (p : Pending) : Prop := p.flat = true → p.doc.flatWidth.isSome

/-- In the midst of the work: the flat parts can be set flat, and the column of the page is right. -/
structure Sound (state : List Pending × Page) : Prop where
  fits : ∀ p ∈ state.1, p.Fits
  aligned : state.2.Aligned

theorem sound_atStart (d : Doc) : Sound d.atStart where
  fits p hp := by
    rw [List.mem_singleton.1 hp]
    exact fun hflat => absurd hflat Bool.false_ne_true
  aligned := rfl

/-- A step puts characters on the page, if it changes it at all. -/
theorem exists_putAll_of_step {width : Nat} {state next : List Pending × Page}
    (h : step width state = some next) : ∃ cs, next.2 = state.2.putAll cs := by
  obtain ⟨_ | ⟨⟨indent, flat, d⟩, rest⟩, page⟩ := state
  · cases h
  · cases d with
    | nil | append | nest | group =>
        cases h
        exact ⟨[], rfl⟩
    | text s =>
        cases h
        exact ⟨s.toList, page.writeText_eq_putAll s⟩
    | line =>
        cases h
        cases flat with
        | true => exact ⟨[' '], (Page.putAll_of_not_mem (by simp) page).symm⟩
        | false => exact ⟨freshLine indent, page.newLine_eq_putAll indent⟩
    | hardLine =>
        cases h
        exact ⟨freshLine indent, page.newLine_eq_putAll indent⟩

/-- What a step leaves pending is the rest, and parts of the document it took apart. -/
theorem fits_of_step {width : Nat} {state next : List Pending × Page} (h : step width state = some next)
    (hfits : ∀ p ∈ state.1, p.Fits) : ∀ p ∈ next.1, p.Fits := by
  obtain ⟨_ | ⟨⟨indent, flat, d⟩, rest⟩, page⟩ := state
  · cases h
  · obtain ⟨hd, hrest⟩ := List.forall_mem_cons.1 hfits
    cases d with
    | nil | text | line | hardLine =>
        cases h
        exact hrest
    | append a b =>
        cases h
        refine List.forall_mem_cons.2 ⟨?_, List.forall_mem_cons.2 ⟨?_, hrest⟩⟩
        · exact fun hflat => (flatWidth_append.1 (hd hflat)).1
        · exact fun hflat => (flatWidth_append.1 (hd hflat)).2
    | nest i d =>
        cases h
        exact List.forall_mem_cons.2 ⟨hd, hrest⟩
    | group d =>
        cases h
        exact List.forall_mem_cons.2 ⟨isSome_of_fits hd, hrest⟩

theorem Sound.step {width : Nat} {state next : List Pending × Page} (hs : Sound state)
    (h : Doc.step width state = some next) : Sound next where
  fits := fits_of_step h hs.fits
  aligned := by
    obtain ⟨cs, hcs⟩ := exists_putAll_of_step h
    rw [hcs]
    exact hs.aligned.putAll cs

theorem Sound.runs {width : Nat} {state last : List Pending × Page} (hs : Sound state)
    (h : Runs width state last) : Sound last := by
  induction h with
  | refl => exact hs
  | tail _ hstep ih => exact ih.step hstep

/-- A group that fits, or stands in a flat one, is set on the current line in its flat width. -/
theorem runs_group_of_fits {width indent : Nat} {flat : Bool} {g : Doc} {rest : List Pending} {page : Page}
    {w : Nat} (hw : g.flatWidth = some w) (hfit : flat = true ∨ page.column + w ≤ width) :
    ∃ out, out.length = w ∧ '\n' ∉ out ∧
      Runs width (⟨indent, flat, group g⟩ :: rest, page) (rest, page.write out) := by
  obtain ⟨hlen, hmem⟩ := rendering_flat hw width indent page.column
  have hmode : (flat || g.flatWidth.any fun w => page.column + w ≤ width) = true := by
    simpa [hw] using hfit
  have hruns := runs_rendering width (group g) indent flat rest page
  rw [rendering, hmode, Page.putAll_of_not_mem hmem] at hruns
  exact ⟨_, hlen, hmem, hruns⟩

/-! ## What the width decides -/

/-- A piece of what a document looks like: characters that are always the same, or a `line`. -/
inductive Piece where
  | fixed (cs : List Char)
  | line (indent : Nat)
deriving DecidableEq, Repr

/-- The characters a piece can be. -/
def Piece.Shows : Piece → List Char → Prop
  | fixed cs, out => out = cs
  | line indent, out => out = [' '] ∨ out = freshLine indent

/-- The pieces of a document at an indentation. -/
def pieces : Doc → (indent : Nat) → List Piece
  | nil, _ => []
  | text s, _ => [.fixed s.toList]
  | line, indent => [.line indent]
  | hardLine, indent => [.fixed (freshLine indent)]
  | append a b, indent => a.pieces indent ++ b.pieces indent
  | nest i d, indent => d.pieces (indent + i)
  | group d, indent => d.pieces indent

theorem rendering_shows (width : Nat) (d : Doc) (indent : Nat) (flat : Bool) (column : Nat) :
    ∃ outs, List.Forall₂ Piece.Shows (d.pieces indent) outs ∧
      d.rendering width indent flat column = outs.flatten := by
  induction d generalizing indent flat column with
  | nil => exact ⟨[], .nil, rfl⟩
  | text s => exact ⟨[s.toList], .cons rfl .nil, by simp [rendering]⟩
  | line =>
      cases flat with
      | true => exact ⟨[[' ']], .cons (.inl rfl) .nil, rfl⟩
      | false => exact ⟨[freshLine indent], .cons (.inr rfl) .nil, by simp [rendering]⟩
  | hardLine => exact ⟨[freshLine indent], .cons rfl .nil, by simp [rendering]⟩
  | append a b iha ihb =>
      obtain ⟨outsa, hshowsa, ha⟩ := iha indent flat column
      obtain ⟨outsb, hshowsb, hb⟩ :=
        ihb indent flat (columnAfter column (a.rendering width indent flat column))
      refine ⟨outsa ++ outsb, List.rel_append hshowsa hshowsb, ?_⟩
      rw [rendering, hb, List.flatten_append, ← ha]
  | nest i d ih => exact ih (indent + i) flat column
  | group d ih => exact ih indent _ column

theorem display_shows (d : Doc) (width : Nat) :
    ∃ outs, List.Forall₂ Piece.Shows (d.pieces 0) outs ∧
      (joinLines (d.display width)).toList = outs.flatten := by
  obtain ⟨outs, hshows, houts⟩ := rendering_shows width d 0 false 0
  refine ⟨outs, hshows, ?_⟩
  rw [display_eq, joinLines_linesOf, String.toList_ofList, houts]

/-- The layout of a document is its rendering by recursion. All through the work the column is the length of
the last line, and a group that fits on the rest of it, or stands in a flat group, adds its flat width and no
newline. Two widths differ only in which `line`s are spaces and which are new lines. -/
theorem layout_follows_rendering (d : Doc) :
    (∀ width, d.display width = linesOf (.ofList (d.rendering width 0 false 0))) ∧
    (∀ width, ∃ page, Runs width d.atStart ([], page) ∧ page.lines = d.display width) ∧
    (∀ width pending page, Runs width d.atStart (pending, page) →
      (layout width pending page).lines = d.display width ∧
        page.lines.getLast?.map String.length = some page.column) ∧
    (∀ width indent flat g rest page, Runs width d.atStart (⟨indent, flat, group g⟩ :: rest, page) →
      (flat = true ∨ ∃ w, g.flatWidth = some w ∧ page.column + w ≤ width) →
      ∃ out, g.flatWidth = some out.length ∧ '\n' ∉ out ∧
        Runs width (⟨indent, flat, group g⟩ :: rest, page) (rest, page.write out)) ∧
    ∀ width width', ∃ outs outs', List.Forall₂ Piece.Shows (d.pieces 0) outs ∧
      List.Forall₂ Piece.Shows (d.pieces 0) outs' ∧
      (joinLines (d.display width)).toList = outs.flatten ∧
      (joinLines (d.display width')).toList = outs'.flatten := by
  refine ⟨d.display_eq, fun width => ?_, fun width pending page h => ?_, ?_, fun width width' => ?_⟩
  · refine ⟨_, runs_rendering width d 0 false [] .start, ?_⟩
    rw [display_eq, Page.lines_putAll_start]
    rfl
  · refine ⟨?_, ((sound_atStart d).runs h).aligned.length_getLast⟩
    rw [← h.layout_eq]
    rfl
  · intro width indent flat g rest page h hfit
    -- A group inside a flat one has a flat width, since the outer one has.
    obtain ⟨w, hw, hfit⟩ : ∃ w, g.flatWidth = some w ∧ (flat = true ∨ page.column + w ≤ width) := by
      rcases hfit with hflat | ⟨w, hw, hle⟩
      · obtain ⟨w, hw⟩ := Option.isSome_iff_exists.1 (((sound_atStart d).runs h).fits _ List.mem_cons_self hflat)
        exact ⟨w, hw, .inl hflat⟩
      · exact ⟨w, hw, .inr hle⟩
    obtain ⟨out, rfl, hmem, hruns⟩ := runs_group_of_fits hw hfit
    exact ⟨out, hw, hmem, hruns⟩
  · obtain ⟨outs, hshows, houts⟩ := d.display_shows width
    obtain ⟨outs', hshows', houts'⟩ := d.display_shows width'
    exact ⟨outs, outs', hshows, hshows', houts, houts'⟩

/-- A group behind a text fits in five columns and is set on its line; in four it is broken. -/
theorem layout_follows_rendering_at_two_widths :
    let g := append line (text "x")
    let d := nest 2 (append (text "let") (group g))
    let page := Page.start.writeText "let"
    d.display 5 = ["let x"] ∧ d.display 4 = ["let", "  x"] ∧
      Runs 5 d.atStart ([⟨2, false, group g⟩], page) ∧ page.column + 2 ≤ 5 ∧
      ∃ out, g.flatWidth = some out.length ∧ '\n' ∉ out ∧
        Runs 5 ([⟨2, false, group g⟩], page) ([], page.write out) := by
  intro g d page
  have hruns : Runs 5 d.atStart ([⟨2, false, group g⟩], page) := .head rfl (.head rfl (.single rfl))
  have hfit : page.column + 2 ≤ 5 := by decide
  obtain ⟨hdisplay, -, -, hgroup, -⟩ := layout_follows_rendering d
  refine ⟨?_, ?_, hruns, hfit, hgroup 5 2 false g [] page hruns (.inr ⟨2, rfl, hfit⟩)⟩
  · rw [hdisplay]
    decide
  · rw [hdisplay]
    decide

end Doc

end TreeEdit
