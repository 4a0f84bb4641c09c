import TreeEdit.Text.Blank

/-!
# Layout documents

A layout document describes a text with the places where it may be broken. A group is set flat,
every `line` in it a space, if it can be and fits on the rest of the line; otherwise each `line` in
it starts a new line at the current indentation. Text may itself hold newlines, which are set as
they are and never indented.

`Doc.display` works off a list of pending parts onto a page.
-/

namespace TreeEdit

/-- A text with the places where it may be broken. -/
inductive Doc where
  | nil
  | text (s : String)
  | line
  | hardLine
  | append (a b : Doc)
  | nest (indent : Nat) (d : Doc)
  | group (d : Doc)
deriving DecidableEq, Repr

namespace Doc

/-- Documents one after the other. -/
def concat (docs : List Doc) : Doc := docs.foldr append nil

/-- Documents with a separator between neighbours. -/
def join (docs : List Doc) (separator : Doc) : Doc := concat (docs.intersperse separator)

/-- The width of a document set flat; `none` if it cannot be. -/
def flatWidth : Doc → Option Nat
  | nil => some 0
  | text s => if s.toList.contains '\n' then none else some s.toList.length
  | line => some 1
  | hardLine => none
  | append a b => do return (← a.flatWidth) + (← b.flatWidth)
  | nest _ d => d.flatWidth
  | group d => d.flatWidth

/-- The number of constructors of a document. -/
def size : Doc → Nat
  | nil | text _ | line | hardLine => 1
  | append a b => a.size + b.size + 1
  | nest _ d => d.size + 1
  | group d => d.size + 1

end Doc

/-- The lines set so far: those finished, latest first, and the last one with its width. -/
structure Page where
  above : List (List Char)
  current : List Char
  column : Nat
deriving DecidableEq, Repr

namespace Page

/-- The empty page, on its first line. -/
def start : Page := ⟨[], [], 0⟩

/-- Characters added to the last line. -/
def write (p : Page) (cs : List Char) : Page :=
  { p with current := p.current ++ cs, column := p.column + cs.length }

/-- A new line that begins with `indent` spaces. -/
def newLine (p : Page) (indent : Nat) : Page :=
  ⟨p.current :: p.above, List.replicate indent ' ', indent⟩

/-- A text that may hold newlines. -/
def writeText (p : Page) (s : String) : Page :=
  match splitLines s.toList with
  | [] => p
  | first :: rest => rest.foldl (fun p part => (p.newLine 0).write part) (p.write first)

/-- The lines from top to bottom. -/
def lines (p : Page) : List String := (p.current :: p.above).reverse.map String.ofList

end Page

namespace Doc

/-- A part still to be set: its indentation, whether it stands in a flat group, and what it is. -/
structure Pending where
  indent : Nat
  flat : Bool
  doc : Doc

/-- The summed size of pending parts. -/
def Pending.total : List Pending → Nat
  | [] => 0
  | p :: rest => p.doc.size + total rest

/-- The pending parts set in order. -/
def layout (width : Nat) (pending : List Pending) (page : Page) : Page :=
  match pending with
  | [] => page
  | ⟨_, _, nil⟩ :: rest => layout width rest page
  | ⟨_, _, text s⟩ :: rest => layout width rest (page.writeText s)
  | ⟨indent, flat, line⟩ :: rest =>
    layout width rest (if flat then page.write [' '] else page.newLine indent)
  | ⟨indent, _, hardLine⟩ :: rest => layout width rest (page.newLine indent)
  | ⟨indent, flat, append a b⟩ :: rest =>
    layout width (⟨indent, flat, a⟩ :: ⟨indent, flat, b⟩ :: rest) page
  | ⟨indent, flat, nest i d⟩ :: rest => layout width (⟨indent + i, flat, d⟩ :: rest) page
  | ⟨indent, flat, group d⟩ :: rest =>
    let fits := flat || d.flatWidth.any fun w => page.column + w ≤ width
    layout width (⟨indent, fits, d⟩ :: rest) page
termination_by Pending.total pending
decreasing_by all_goals simp only [Pending.total, size]; omega

/-- The lines of a document set in a number of columns. -/
def display (d : Doc) (width : Nat) : List String :=
  (layout width [⟨0, false, d⟩] .start).lines

end Doc

end TreeEdit
