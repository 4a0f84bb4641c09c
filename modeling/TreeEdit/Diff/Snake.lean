/-!
# Where two lists meet

Turning one list into another by removing and adding elements is a walk over a grid from corner to
corner: right removes, down adds, and a diagonal step keeps an element that both lists have next. A
run of diagonal steps is a snake. The diagonal of a point is how far it has gone right less how far
it has gone down.

The search goes in rounds from both ends at once. A round goes one step further than the last one on
every diagonal it can reach, then follows the snake there as far as it goes. As soon as the walks
from both ends overlap on a diagonal, the start of the last snake is a point on a shortest walk.
-/

namespace TreeEdit.Diff

variable {α : Type} [DecidableEq α]

/-- How many elements two lists have in common at their start. -/
def commonLength : List α → List α → Nat
  | a :: as, b :: bs => if a = b then commonLength as bs + 1 else 0
  | _, _ => 0

/-- How far a walk has come on a diagonal: where its last snake starts and ends, counted in elements
of the old list. -/
structure Reach where
  diagonal : Int
  start : Nat
  stop : Nat
deriving DecidableEq, Repr

/-- How far down a point is. -/
def depth (diagonal : Int) (right : Nat) : Int := right - diagonal

/-- Where the snakes of a round start, from where those of the round before end, both by falling
diagonal. Between two neighbours the one further on wins. -/
def starts : List Nat → List Nat
  | [] => [0]
  | x :: xs => (x + 1) :: below x xs
where
  /-- The starts below a diagonal whose snake ended at `x`. -/
  below (x : Nat) : List Nat → List Nat
    | [] => [x]
    | y :: ys => (if y < x then x else y + 1) :: below y ys

/-- The end of a snake. -/
def follow (old new : List α) (diagonal : Int) (start : Nat) : Nat :=
  let down := depth diagonal start
  if down < 0 then start else start + commonLength (old.drop start) (new.drop down.toNat)

/-- One round of the search from one end. -/
def advanceRound (old new : List α) (round : Nat) (before : List Reach) : List Reach :=
  (starts (before.map Reach.stop)).zipIdx.map fun (start, i) =>
    let diagonal : Int := round - 2 * i
    ⟨diagonal, start, follow old new diagonal start⟩

/-- The walk on a diagonal. -/
def onDiagonal? (walks : List Reach) (diagonal : Int) : Option Reach :=
  walks.find? (·.diagonal = diagonal)

/-- A walk from one end that overlaps one from the other end. The two ends number the diagonals the
opposite way. -/
def overlap? (size : Nat) (shift : Int) (walks others : List Reach) : Option Reach :=
  walks.find? fun r =>
    match onDiagonal? others (shift - r.diagonal) with
    | some other => size ≤ r.stop + other.stop
    | none => false

/-- Rounds of the search. If the lengths differ by an odd number the walks meet on a step from the
start, otherwise on one from the end. -/
def search (old new : List α) : Nat → Nat → List Reach → List Reach → Option (Nat × Nat)
  | 0, _, _, _ => none
  | steps + 1, round, forward, backward =>
    let shift : Int := old.length - new.length
    let forward' := advanceRound old new round forward
    let backward' := advanceRound old.reverse new.reverse round backward
    let met :=
      if shift % 2 = 1 then
        (overlap? old.length shift forward' backward).map fun r =>
          (r.start, (depth r.diagonal r.start).toNat)
      else
        (overlap? old.length shift backward' forward').map fun r =>
          (old.length - r.stop, (new.length - depth r.diagonal r.stop).toNat)
    met.or (search old new steps (round + 1) forward' backward')

/-- A point on a shortest walk: how many elements of each list come before it. -/
def meetingPoint? (old new : List α) : Option (Nat × Nat) :=
  search old new ((old.length + new.length + 1) / 2 + 1) 0 [] []

end TreeEdit.Diff
