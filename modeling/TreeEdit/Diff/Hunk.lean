import TreeEdit.Diff.Snake

/-!
# Differences

A difference is a list of hunks: elements kept, removed or added. Dropping the added ones gives the
old list, and dropping the removed ones gives the new list. What the lists have in common at either
end is kept; between, both are cut at a point on a shortest walk and the halves are compared on
their own.
-/

namespace TreeEdit.Diff

/-- What happens to elements. -/
inductive Mark where
  | kept
  | removed
  | added
deriving DecidableEq, Repr

/-- Neighbouring elements to which the same happens. -/
structure Hunk (α : Type) where
  mark : Mark
  items : List α
deriving DecidableEq, Repr

namespace Hunk

variable {α : Type}

/-- A measure that counts an empty hunk too. -/
def size (h : Hunk α) : Nat := h.items.length + 1

/-- A hunk, if it has elements. -/
def of (mark : Mark) (items : List α) : List (Hunk α) :=
  if items.isEmpty then [] else [⟨mark, items⟩]

end Hunk

variable {α : Type} [DecidableEq α]

/-- The hunks between two lists. `steps` bounds how often the lists are cut; their lengths together
are enough. -/
def hunksWithin : Nat → List α → List α → List (Hunk α)
  | 0, old, new => Hunk.of .removed old ++ Hunk.of .added new
  | steps + 1, old, new =>
    let head := commonLength old new
    let old' := old.drop head
    let new' := new.drop head
    let tail := commonLength old'.reverse new'.reverse
    let oldMiddle := old'.take (old'.length - tail)
    let newMiddle := new'.take (new'.length - tail)
    let middle :=
      if oldMiddle.isEmpty || newMiddle.isEmpty then
        Hunk.of .removed oldMiddle ++ Hunk.of .added newMiddle
      else
        match meetingPoint? oldMiddle newMiddle with
        | some (x, y) =>
          hunksWithin steps (oldMiddle.take x) (newMiddle.take y) ++
            hunksWithin steps (oldMiddle.drop x) (newMiddle.drop y)
        | none => Hunk.of .removed oldMiddle ++ Hunk.of .added newMiddle
    Hunk.of .kept (old.take head) ++ middle ++ Hunk.of .kept (old'.drop (old'.length - tail))

/-- The hunks between two lists. -/
def hunks (old new : List α) : List (Hunk α) := hunksWithin (old.length + new.length) old new

end TreeEdit.Diff
