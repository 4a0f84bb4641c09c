import TreeEdit.Text.Pos

/-!
# Places in a text

A position of a text is a place between two of its characters, or at either end. `cut?` divides
the characters at a position; the byte offset of a position is the size of what stands before it,
in UTF-8. Positions beyond the end of a line or of the text have no offset.
-/

namespace TreeEdit

/-- The size of a run of characters in UTF-8. -/
def byteSize : List Char → Nat
  | [] => 0
  | c :: cs => c.utf8Size + byteSize cs

@[simp] theorem byteSize_append (a b : List Char) :
    byteSize (a ++ b) = byteSize a + byteSize b := by
  induction a with
  | nil => simp only [List.nil_append, byteSize, Nat.zero_add]
  | cons c cs ih => simp only [List.cons_append, byteSize, ih, Nat.add_assoc]

/-- The characters of a text take as many bytes as the text. -/
@[simp] theorem byteSize_toList (s : String) : byteSize s.toList = s.utf8ByteSize := by
  have ofList (cs : List Char) : (String.ofList cs).utf8ByteSize = byteSize cs := by
    induction cs with
    | nil => rfl
    | cons c cs ih =>
      have hcons : String.ofList (c :: cs) = String.singleton c ++ String.ofList cs := by
        rw [String.singleton_eq_ofList, ← String.ofList_append, List.singleton_append]
      rw [hcons, String.utf8ByteSize_append, String.utf8ByteSize_singleton, ih, byteSize]
  rw [← ofList, String.ofList_toList]

/-- What stands before and after a position; `none` if the text has no such position. -/
def cut? : List Char → Pos → Option (List Char × List Char)
  | cs, ⟨0, 0⟩ => some ([], cs)
  | [], _ => none
  | c :: cs, ⟨0, ch + 1⟩ =>
    if c = '\n' then none else (cut? cs ⟨0, ch⟩).map fun (a, b) => (c :: a, b)
  | c :: cs, ⟨line + 1, ch⟩ =>
    (cut? cs ⟨if c = '\n' then line else line + 1, ch⟩).map fun (a, b) => (c :: a, b)

/-- What stands before a position. -/
def before? (cs : List Char) (p : Pos) : Option (List Char) := (cut? cs p).map Prod.fst

/-- The byte offset of a position. -/
def offset? (text : String) (p : Pos) : Option Nat := (before? text.toList p).map byteSize

/-- The position after as many whole characters as fit into a number of bytes, counted from `p`. -/
def posAfter : Pos → List Char → Nat → Pos
  | p, [], _ => p
  | p, c :: cs, bytes =>
    if c.utf8Size ≤ bytes then posAfter (p.advance c) cs (bytes - c.utf8Size) else p

/-- The position of a byte offset. An offset inside a character counts as the character's start,
one beyond the end as the end. -/
def posOfOffset (text : String) (bytes : Nat) : Pos := posAfter .zero text.toList bytes

/-- The position at the end of a text. -/
def endPos (text : String) : Pos := Pos.zero.advanceOver text.toList

/-- The text between two positions; `none` if either is no position of the text, or they are in
the wrong order. -/
def slice? (text : String) (span : Span) : Option String :=
  match before? text.toList span.start, before? text.toList span.stop with
  | some a, some b =>
    if a.length ≤ b.length then some (String.ofList (b.drop a.length)) else none
  | _, _ => none

end TreeEdit
