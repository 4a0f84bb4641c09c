/-!
# Positions and spans

A position is a zero-based line and column; the column counts characters. Positions are ordered
by line first. A span is a half-open range of positions.
-/

namespace TreeEdit

/-- A zero-based line and column. -/
structure Pos where
  line : Nat
  ch : Nat
deriving DecidableEq, Repr, Hashable

namespace Pos

/-- The start of every document. -/
def zero : Pos := ⟨0, 0⟩

instance : Inhabited Pos := ⟨zero⟩

instance : LT Pos := ⟨fun p q => p.line < q.line ∨ (p.line = q.line ∧ p.ch < q.ch)⟩

instance : LE Pos := ⟨fun p q => p.line < q.line ∨ (p.line = q.line ∧ p.ch ≤ q.ch)⟩

theorem lt_def {p q : Pos} : p < q ↔ p.line < q.line ∨ (p.line = q.line ∧ p.ch < q.ch) := Iff.rfl

theorem le_def {p q : Pos} : p ≤ q ↔ p.line < q.line ∨ (p.line = q.line ∧ p.ch ≤ q.ch) := Iff.rfl

instance (p q : Pos) : Decidable (p < q) := decidable_of_iff _ lt_def.symm

instance (p q : Pos) : Decidable (p ≤ q) := decidable_of_iff _ le_def.symm

/-- The earlier of two positions. -/
def earlier (p q : Pos) : Pos := if p ≤ q then p else q

/-- The later of two positions. -/
def later (p q : Pos) : Pos := if p ≤ q then q else p

/-- The position after one character: a newline starts the next line. -/
def advance (p : Pos) (c : Char) : Pos :=
  if c = '\n' then ⟨p.line + 1, 0⟩ else ⟨p.line, p.ch + 1⟩

/-- The position after a run of characters. -/
def advanceOver (p : Pos) (cs : List Char) : Pos :=
  cs.foldl advance p

@[simp] theorem advanceOver_nil (p : Pos) : p.advanceOver [] = p := rfl

@[simp] theorem advanceOver_cons (p : Pos) (c : Char) (cs : List Char) :
    p.advanceOver (c :: cs) = (p.advance c).advanceOver cs := rfl

theorem advanceOver_append (p : Pos) (cs ds : List Char) :
    p.advanceOver (cs ++ ds) = (p.advanceOver cs).advanceOver ds :=
  List.foldl_append

/-- Positions are written `line:column`. -/
def display (p : Pos) : String := s!"{p.line}:{p.ch}"

end Pos

/-- A half-open range of positions. -/
structure Span where
  start : Pos
  stop : Pos
deriving DecidableEq, Repr, Inhabited

namespace Span

/-- The empty span at a position. -/
def point (p : Pos) : Span := ⟨p, p⟩

/-- The inner span lies inside the outer one; equal spans count. -/
def contains (outer inner : Span) : Bool :=
  outer.start ≤ inner.start && inner.stop ≤ outer.stop

/-- The position is strictly between the two ends. -/
def strictlyContains (s : Span) (p : Pos) : Bool :=
  s.start < p && p < s.stop

/-- The smallest span that covers both. -/
def union (a b : Span) : Span :=
  ⟨a.start.earlier b.start, a.stop.later b.stop⟩

/-- Spans are written `from..to`. -/
def display (s : Span) : String := s!"{s.start.display}..{s.stop.display}"

end Span

end TreeEdit
