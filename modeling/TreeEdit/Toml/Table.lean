import TreeEdit.Toml.Value

/-!
# Building TOML tables

Headers and dotted keys put entries into tables that may be partly there already. The tables on the
way to a place are opened if they are missing. A header may pass through any table, and through the
last element of an array of tables; it may open a table that only other headers passed through. A
dotted key may not pass through a table that a header opened, and may not put an entry into a table
that dotted keys did not open. Nothing is ever set twice.
-/

namespace TreeEdit.Toml

/-- A table with how it came about. -/
structure Table where
  origin : Origin
  entries : Entries

namespace Table

/-- A table as a value. -/
def toValue (t : Table) : Value := .table t.origin t.entries

/-- Whether the table was opened on the way to another place. -/
def isImplicit (t : Table) : Bool := t.origin = .headerPath || t.origin = .dottedKey

/-- Something done in the table at a path below a table; `dotted` says whether the path is one of
dotted keys. -/
def within (dotted : Bool) (t : Table) (path : List String)
    (act : Table → Option Table) : Option Table :=
  match path with
  | [] => act t
  | key :: path =>
    let put (value : Value) : Table := { t with entries := t.entries.set key value }
    match t.entries.get? key with
    | none => do
      let new : Table := ⟨if dotted then .dottedKey else .headerPath, []⟩
      return put (← new.within dotted path act).toValue
    | some (.tables (.table origin entries :: earlier)) => do
      let last : Table := ⟨origin, entries⟩
      return put (.tables ((← last.within dotted path act).toValue :: earlier))
    | some (.table origin entries) =>
      let inner : Table := ⟨origin, entries⟩
      if origin = .inline || (dotted && !inner.isImplicit) then none
      else do return put (← inner.within dotted path act).toValue
    | some _ => none

/-- A value set at a key that may be dotted. -/
def insert? (t : Table) (key : List String) (value : Value) : Option Table :=
  match key.getLast? with
  | none => none
  | some last =>
    let path := key.dropLast
    t.within true path fun inner =>
      -- an entry under a dotted key goes only into a table that dotted keys opened
      if (inner.origin = .dottedKey) = path.isEmpty then none
      else if (inner.entries.get? last).isSome then none
      else some { inner with entries := inner.entries.set last value }

/-- The table of a header opened. -/
def open? (t : Table) (header : List String) : Option Table :=
  match header.getLast? with
  | none => none
  | some last =>
    t.within false header.dropLast fun parent =>
      match parent.entries.get? last with
      | none => some { parent with entries := parent.entries.set last (.table .header []) }
      | some (.table .headerPath entries) =>
        some { parent with entries := parent.entries.set last (.table .header entries) }
      | some _ => none

/-- One more table added to the array of tables of a header. -/
def append? (t : Table) (header : List String) : Option Table :=
  match header.getLast? with
  | none => none
  | some last =>
    t.within false header.dropLast fun parent =>
      match parent.entries.get? last with
      | none =>
        some { parent with entries := parent.entries.set last (.tables [.table .header []]) }
      | some (.tables items) =>
        some { parent with
          entries := parent.entries.set last (.tables (.table .header [] :: items)) }
      | some _ => none

/-- A value set at a key below the table of a header. -/
def insertUnder? (t : Table) (header key : List String) (value : Value) : Option Table :=
  t.within false header fun inner => inner.insert? key value

end Table

end TreeEdit.Toml
