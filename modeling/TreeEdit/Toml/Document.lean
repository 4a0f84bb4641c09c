import TreeEdit.Toml.Quoted
import TreeEdit.Toml.Scalar
import TreeEdit.Toml.Table

/-!
# Reading TOML

A document is a sequence of lines: blank lines, comments, headers and entries. Values may reach over
several lines, in brackets and in the strings that allow it. Any fault makes the whole document
unreadable; where and why is not kept.

Readers take the characters left and give what they read with the characters after it. Those that
call each other take a bound on the number of steps, which the number of characters left always
satisfies.
-/

namespace TreeEdit.Toml

open Quoted (isSpace isForbidden afterNewline?)

/-- The characters after blanks. -/
def skipSpaces (cs : List Char) : List Char := cs.dropWhile isSpace

/-- The characters after a comment, if there is one; the newline stays. -/
def skipComment? : List Char → Option (List Char)
  | '#' :: rest =>
    let line := rest.takeWhile (· ≠ '\n')
    let after := rest.dropWhile (· ≠ '\n')
    let body := if !after.isEmpty && line.getLast? = some '\r' then line.dropLast else line
    if body.any isForbidden then none else some after
  | cs => some cs

/-- The characters after blanks, comments and newlines. -/
def skipGap? (steps : Nat) (cs : List Char) : Option (List Char) :=
  match steps with
  | 0 => none
  | steps + 1 => do
    let after ← skipComment? (skipSpaces cs)
    match afterNewline? after with
    | some next => skipGap? steps next
    | none => return after

/-- The characters of the next line, after what may end a line. -/
def endLine? (cs : List Char) : Option (List Char) := do
  let after ← skipComment? (skipSpaces cs)
  if after.isEmpty then return [] else afterNewline? after

/-- Whether a character may stand in a key without quotes. -/
def isBare (c : Char) : Bool := c.isAlphanum || c == '_' || c == '-'

/-- One part of a key. -/
def keyPart? (cs : List Char) : Option (String × List Char) :=
  match cs with
  | '"' :: _ => Quoted.line? cs
  | '\'' :: _ => Quoted.line? cs
  | _ =>
    let bare := cs.takeWhile isBare
    if bare.isEmpty then none else some (String.ofList bare, cs.dropWhile isBare)

/-- How deep arrays and inline tables may stand in each other, and how many parts a key may have. -/
def nestingLimit : Nat := 80

/-- The parts of a key, divided by points. There are at most as many as `count`, and blanks may
stand around each. -/
def keyParts? (count : Nat) (cs : List Char) : Option (List String × List Char) :=
  match count with
  | 0 => none
  | count + 1 => do
    let (part, after) ← keyPart? (skipSpaces cs)
    match skipSpaces after with
    | '.' :: rest =>
      let (parts, after) ← keyParts? count rest
      return (part :: parts, after)
    | after => return ([part], after)

/-- A key, and what follows it after blanks. -/
def key? (cs : List Char) : Option (List String × List Char) := keyParts? nestingLimit cs

/-- Whether a character may stand in a word that is neither quoted nor bracketed. -/
def isWord (c : Char) : Bool := isBare c || c == '+' || c == '.' || c == ':'

/-- A word that is neither quoted nor bracketed. A date and a time may be divided by a space. -/
def word (cs : List Char) : List Char × List Char :=
  let first := cs.takeWhile isWord
  let after := cs.dropWhile isWord
  match after with
  | ' ' :: c :: rest =>
    if Scalar.isDay first && c.isDigit then
      (first ++ ' ' :: (c :: rest).takeWhile isWord, (c :: rest).dropWhile isWord)
    else (first, after)
  | _ => (first, after)

mutual

/-- A value. -/
def value? (steps depth : Nat) (cs : List Char) : Option (Value × List Char) :=
  match steps with
  | 0 => none
  | steps + 1 =>
    match cs with
    | '"' :: _ => (Quoted.string? cs).map fun (text, after) => (.string text, after)
    | '\'' :: _ => (Quoted.string? cs).map fun (text, after) => (.string text, after)
    | '[' :: rest =>
      if nestingLimit ≤ depth then none
      else (items? steps (depth + 1) rest).map fun (items, after) => (.array items, after)
    | '\x7b' :: rest =>
      if nestingLimit ≤ depth then none
      else
        (inline? steps (depth + 1) ⟨.header, []⟩ rest).map fun (table, after) =>
          (.table .inline table.entries, after)
    | _ =>
      let (atom, after) := word cs
      (Scalar.value? atom).map fun value => (value, after)

/-- The elements of an array up to its closing bracket. -/
def items? (steps depth : Nat) (cs : List Char) : Option (List Value × List Char) :=
  match steps with
  | 0 => none
  | steps + 1 => do
    match ← skipGap? (cs.length + 1) cs with
    | ']' :: after => return ([], after)
    | start =>
      let (item, after) ← value? steps depth start
      match ← skipGap? (after.length + 1) after with
      | ']' :: after => return ([item], after)
      | ',' :: after =>
        let (items, after) ← items? steps depth after
        return (item :: items, after)
      | _ => none

/-- The entries of an inline table up to its closing brace, added to those read so far. -/
def inline? (steps depth : Nat) (table : Table) (cs : List Char) : Option (Table × List Char) :=
  match steps with
  | 0 => none
  | steps + 1 => do
    match ← skipGap? (cs.length + 1) cs with
    | '\x7d' :: after => return (table, after)
    | start =>
      let (key, after) ← key? start
      match ← skipGap? (after.length + 1) after with
      | '=' :: after =>
        let (value, after) ← value? steps depth (← skipGap? (after.length + 1) after)
        let table ← table.insert? key value
        match ← skipGap? (after.length + 1) after with
        | '\x7d' :: after => return (table, after)
        | ',' :: after => inline? steps depth table after
        | _ => none
      | _ => none

end

/-- A document being read: all tables, and the header the next entries belong to. -/
structure Reading where
  root : Table
  header : List String

/-- One line that is not blank: a header or an entry. -/
def line? (state : Reading) (cs : List Char) : Option (Reading × List Char) :=
  match cs with
  | '[' :: '[' :: rest => do
    let (header, after) ← key? rest
    match after with
    | ']' :: ']' :: after => return (⟨← state.root.append? header, header⟩, after)
    | _ => none
  | '[' :: rest => do
    let (header, after) ← key? rest
    match after with
    | ']' :: after => return (⟨← state.root.open? header, header⟩, after)
    | _ => none
  | _ => do
    let (key, after) ← key? cs
    match after with
    | '=' :: after =>
      let after := skipSpaces after
      let (value, rest) ← value? (after.length + 1) 0 after
      return ({ state with root := ← state.root.insertUnder? state.header key value }, rest)
    | _ => none

/-- The lines of a document. -/
def lines? (steps : Nat) (state : Reading) (cs : List Char) : Option Reading :=
  match steps with
  | 0 => none
  | steps + 1 => do
    match ← skipGap? (cs.length + 1) cs with
    | [] => return state
    | start =>
      let (state, after) ← line? state start
      lines? steps state (← endLine? after)

/-- The entries of a document; `none` if it cannot be read. A byte order mark in front is passed
over. -/
def read? (text : String) : Option Entries :=
  let cs :=
    match text.toList with
    | '﻿' :: rest => rest
    | cs => cs
  (lines? (cs.length + 1) ⟨⟨.header, []⟩, []⟩ cs).map fun state => state.root.entries

end TreeEdit.Toml
