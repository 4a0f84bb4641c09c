import TreeEdit.Diff.Hunk

/-!
# Differences between texts

Two texts are compared line by line. A line keeps what ends it: a newline, a carriage return or
both. Each line of the difference is written after a space, a minus or a plus; a last line that
nothing ends is ended with a newline.

Before that the hunks slide together. Added elements that repeat the kept elements next to them can
be shown higher or lower without changing what the difference means. Each added hunk slides up as far
as it can and then down as far as it can, and joins the added hunks it meets on the way. Removed hunks
pass and join only their neighbours; they do not slide over kept elements.

A hunk on its way is held between the hunks above it, nearest first, and those below.
-/

namespace TreeEdit.Diff

variable {α : Type} [DecidableEq α]

/-- A hunk between others. -/
structure Cursor (α : Type) where
  /-- The hunks above, nearest first. -/
  above : List (Hunk α)
  hunk : Hunk α
  below : List (Hunk α)

namespace Cursor

/-- The summed measure of hunks. -/
def total : List (Hunk α) → Nat
  | [] => 0
  | hunk :: rest => hunk.size + total rest

/-- Kept elements put in front of the hunks below. -/
def keepBelow (item : α) : List (Hunk α) → List (Hunk α)
  | ⟨.kept, items⟩ :: rest => ⟨.kept, item :: items⟩ :: rest
  | rest => ⟨.kept, [item]⟩ :: rest

/-- Kept elements put after the hunks above. -/
def keepAbove (item : α) : List (Hunk α) → List (Hunk α)
  | ⟨.kept, items⟩ :: rest => ⟨.kept, items ++ [item]⟩ :: rest
  | rest => ⟨.kept, [item]⟩ :: rest

/-- The hunk slid up as far as it goes. -/
def slideUp (above : List (Hunk α)) (hunk : Hunk α) (below : List (Hunk α)) : Cursor α :=
  match above with
  | [] => ⟨[], hunk, below⟩
  | ⟨.kept, items⟩ :: rest =>
    if hne : items = [] then slideUp rest hunk below
    else
      let item := items.getLast hne
      if hunk.mark = .added && hunk.items.getLast? = some item then
        slideUp (⟨.kept, items.dropLast⟩ :: rest) ⟨.added, item :: hunk.items.dropLast⟩
          (keepBelow item below)
      else ⟨above, hunk, below⟩
  | other :: rest =>
    if other.mark = hunk.mark then slideUp rest ⟨hunk.mark, other.items ++ hunk.items⟩ below
    else slideUp rest hunk (other :: below)
termination_by total above
decreasing_by
  all_goals simp only [total, Hunk.size]
  · omega
  · have hpos := List.length_pos_iff.2 hne
    rw [List.length_dropLast]
    omega
  · omega
  · omega

/-- The hunk slid down as far as it goes. -/
def slideDown (above : List (Hunk α)) (hunk : Hunk α) (below : List (Hunk α)) : Cursor α :=
  match below with
  | [] => ⟨above, hunk, []⟩
  | ⟨.kept, []⟩ :: rest => slideDown above hunk rest
  | ⟨.kept, item :: items⟩ :: rest =>
    if hunk.mark = .added && hunk.items.head? = some item then
      slideDown (keepAbove item above) ⟨.added, hunk.items.tail ++ [item]⟩ (⟨.kept, items⟩ :: rest)
    else ⟨above, hunk, below⟩
  | other :: rest =>
    if other.mark = hunk.mark then slideDown above ⟨hunk.mark, hunk.items ++ other.items⟩ rest
    else slideDown (other :: above) hunk rest
termination_by total below
decreasing_by
  all_goals simp only [total, Hunk.size, List.length_cons]
  all_goals omega

/-- Every hunk of a mark slid up and down in turn. `steps` bounds the number of hunks visited. -/
def settle (mark : Mark) : Nat → List (Hunk α) → List (Hunk α) → List (Hunk α)
  | 0, above, below => above.reverse ++ below
  | _ + 1, above, [] => above.reverse
  | steps + 1, above, hunk :: below =>
    if hunk.mark = mark then
      let up := slideUp above hunk below
      let down := slideDown up.above up.hunk up.below
      settle mark steps (down.hunk :: down.above) down.below
    else settle mark steps (hunk :: above) below

end Cursor

/-- The hunks with those of one mark slid together. A hunk is visited again only after two of them
have joined. -/
def slideTogether (mark : Mark) (hunks : List (Hunk α)) : List (Hunk α) :=
  let size := Cursor.total hunks + 1
  Cursor.settle mark (size * size) [] hunks

/-- Between kept hunks, all that is removed and then all that is added. -/
def removedFirst (hunks : List (Hunk α)) : List (Mark × α) :=
  go [] [] hunks
where
  /-- The elements removed and added since the last kept hunk are held back. -/
  go (removed added : List α) : List (Hunk α) → List (Mark × α)
    | [] => removed.map (.removed, ·) ++ added.map (.added, ·)
    | ⟨.removed, items⟩ :: rest => go (removed ++ items) added rest
    | ⟨.added, items⟩ :: rest => go removed (added ++ items) rest
    | ⟨.kept, items⟩ :: rest =>
      removed.map (.removed, ·) ++ added.map (.added, ·) ++ items.map (.kept, ·) ++ go [] [] rest

/-- The difference between two lists, element by element. -/
def difference (old new : List α) : List (Mark × α) :=
  removedFirst (slideTogether .added (slideTogether .removed (hunks old new)))

/-- The lines of a text with what ends them. -/
def linesWithEnds : List Char → List (List Char)
  | [] => []
  | '\r' :: '\n' :: cs => ['\r', '\n'] :: linesWithEnds cs
  | c :: cs =>
    if c = '\n' || c = '\r' then [c] :: linesWithEnds cs
    else
      match linesWithEnds cs with
      | [] => [[c]]
      | line :: lines => (c :: line) :: lines

/-- What stands in front of a line. -/
def Mark.sign : Mark → Char
  | kept => ' '
  | removed => '-'
  | added => '+'

/-- A line of a difference. -/
def signedLine (mark : Mark) (line : List Char) : List Char :=
  let isEnded := line.getLast? = some '\n' || line.getLast? = some '\r'
  mark.sign :: line ++ (if isEnded then [] else ['\n'])

/-- The difference between two texts. -/
def render (old new : String) : String :=
  String.ofList ((difference (linesWithEnds old.toList) (linesWithEnds new.toList)).flatMap
    fun (mark, line) => signedLine mark line)

end TreeEdit.Diff
