import TreeEdit.Script.Run

/-!
# What an operation can do

Each operation of a session ends in one of a few ways. The lemmas here list them with everything
that holds in each: where a failure comes from and what it leaves behind, what a success installs.
They hold for any buffer. Undo and redo are one operation, `Session.go`, one way or the other along
the history. What is said about sessions elsewhere is read off these lists, without opening the
operations again.
-/

namespace TreeEdit

namespace Session

variable {β : Type} [TextBuffer β]

/-- A new session on a text that was read: no focus, nothing collapsed, nothing to undo. -/
def started (buffer : β) (settings : Settings) (roots : List Node) : Session β where
  buffer := buffer
  tree := (reconcile .empty roots .new).1
  ids := (reconcile .empty roots .new).2
  settings := settings
  collapsed := []
  focus := none
  history := .withLimit settings.historyLimit

theorem start_eq {buffer : β} {roots : List Node} (hread : readDocument (TextBuffer.text buffer) = .ok roots)
    (settings : Settings) : start buffer settings = .ok (started buffer settings roots) := by
  simp only [start, hread]
  rfl

theorem started_of_start {buffer : β} {settings : Settings} {s : Session β} (h : start buffer settings = .ok s) :
    ∃ roots, readDocument (TextBuffer.text buffer) = .ok roots ∧ s = started buffer settings roots := by
  cases hread : readDocument (TextBuffer.text buffer) with
  | error e =>
      simp only [start, hread] at h
      cases h
  | ok roots =>
      rw [start_eq hread] at h
      cases h
      exact ⟨roots, rfl, rfl⟩

/-- The session after a commit that was written: the new buffer, an entry in the history, the new
tree and a focus in it. -/
def committed (s : Session β) (b : β) (draft : Draft) (focus : Option NodeId) : Session β :=
  let new := reconcile s.tree draft.roots s.ids
  let entry : HistoryEntry := {
    oldFocus := .ofFocus s.tree s.focus
    newFocus := .ofFocus new.1 focus
    textBefore := s.text
    textAfter := draft.text }
  { s with buffer := b, history := s.history.record entry }.install new.1 new.2 focus

/-- The focus that a commit chooses. -/
def chosenFocus (s : Session β) (hint : Option (Tree → FocusHint)) (draft : Draft)
    (sorted : List TextChange) : Option NodeId :=
  Focus.resolve (reconcile s.tree draft.roots s.ids).1 hint s.text draft.text sorted s.collapsed

/-- A commit is refused before the buffer is touched, or fails in the buffer and is taken back, or
succeeds. -/
theorem commit_cases (s : Session β) (changes : List TextChange)
    (hint : Option (Tree → FocusHint)) (ahead : Option Draft) :
    (∃ e, s.prepare changes ahead = .error e ∧ s.commit changes hint ahead = (.error e, s)) ∨
    (∃ sorted draft e b, s.prepare changes ahead = .ok (sorted, draft) ∧
      writeAll s.buffer sorted = (.error e, b) ∧
      s.commit changes hint ahead = (.error e, { s with buffer := (overwriteAll b s.text).2 })) ∨
    (∃ sorted draft b, s.prepare changes ahead = .ok (sorted, draft) ∧
      writeAll s.buffer sorted = (.ok (), b) ∧
      s.commit changes hint ahead =
        (.ok ⟨s.chosenFocus hint draft sorted, sorted⟩,
          s.committed b draft (s.chosenFocus hint draft sorted))) := by
  unfold commit
  cases hprep : s.prepare changes ahead with
  | error e => exact Or.inl ⟨e, rfl, rfl⟩
  | ok prepared =>
      obtain ⟨sorted, draft⟩ := prepared
      right
      cases hwrite : writeAll s.buffer sorted with
      | mk result b =>
          cases result with
          | error e =>
              refine Or.inl ⟨sorted, draft, e, b, rfl, hwrite, ?_⟩
              simp only [hwrite]
          | ok u =>
              refine Or.inr ⟨sorted, draft, b, rfl, hwrite, ?_⟩
              simp only [hwrite]
              rfl

/-- A batch of edits does nothing if it is empty, is refused while it is planned, or is the commit of
its plan. -/
theorem perform_cases (s : Session β) (edits : List Edit) :
    (edits = [] ∧ s.perform edits = (.ok ⟨s.focus, []⟩, s)) ∨
    (∃ e, s.plan edits = .error e ∧ s.perform edits = (.error e, s)) ∨
    (∃ changes draft hint, s.plan edits = .ok (changes, draft) ∧
      s.perform edits = s.commit changes hint (some draft)) := by
  cases edits with
  | nil => exact Or.inl ⟨rfl, rfl⟩
  | cons edit rest =>
      right
      simp only [perform]
      cases hplan : s.plan (edit :: rest) with
      | error e => exact Or.inl ⟨e, rfl, rfl⟩
      | ok planned => exact Or.inr ⟨planned.1, planned.2, _, rfl, rfl⟩

/-- A move is refused or is the batch of its two edits. -/
theorem drop_cases (s : Session β) (source : NodeId) (target : DropTarget) :
    (∃ e, s.drop source target = (.error e, s)) ∨
    (∃ text edits, s.nodeText source = .ok text ∧ Edit.move s.tree text source target = .ok edits ∧
      s.drop source target = s.perform edits) := by
  unfold drop
  cases htext : s.nodeText source with
  | error e => exact Or.inl ⟨e, rfl⟩
  | ok text =>
      cases hmove : Edit.move s.tree text source target with
      | error e => exact Or.inl ⟨e, by simp only [hmove]⟩
      | ok edits => exact Or.inr ⟨text, edits, rfl, hmove, by simp only [hmove]⟩

/-- A script is refused while it is looked up in the tree, or is the batch of its edits. -/
theorem runScript_cases (s : Session β) (script : Script) :
    (∃ e, s.runScript script = (.error e, s)) ∨
    (∃ edits, script.resolve s.tree s.text = .ok edits ∧
      s.runScript script = ((s.perform edits).1.mapError .rejected, (s.perform edits).2)) := by
  unfold runScript
  cases hres : script.resolve s.tree s.text with
  | error e => exact Or.inl ⟨e, rfl⟩
  | ok edits => exact Or.inr ⟨edits, rfl, rfl⟩

/-- The focus that goes with a text from the history. -/
def restoredFocus (s : Session β) (roots : List Node) (mark : FocusMark) : Option NodeId :=
  let tree := (reconcile s.tree roots s.ids).1
  ((mark.resolve tree).or (tree.roots.head?.map Node.id)).map fun id =>
    Focus.visible tree id s.collapsed

/-- A text from the history cannot be read, or the buffer refuses it, or it is put in place. -/
theorem restore_cases (s : Session β) (text : String) (mark : FocusMark) :
    (∃ e, s.restore text mark = (.error e, s)) ∨
    (∃ e b, overwriteAll s.buffer text = (.error e, b) ∧
      s.restore text mark = (.error e, { s with buffer := b })) ∨
    (∃ roots b, readDocument text = .ok roots ∧ overwriteAll s.buffer text = (.ok (), b) ∧
      s.restore text mark =
        (.ok (), { s with buffer := b }.install (reconcile s.tree roots s.ids).1
          (reconcile s.tree roots s.ids).2 (s.restoredFocus roots mark))) := by
  unfold restore
  cases hread : readDocument text with
  | error e => exact Or.inl ⟨.read e, rfl⟩
  | ok roots =>
      right
      cases hover : overwriteAll s.buffer text with
      | mk result b =>
          cases result with
          | error e => exact Or.inl ⟨e, b, rfl, rfl⟩
          | ok u => exact Or.inr ⟨roots, b, rfl, rfl, rfl⟩

end Session

/-! ## Undo and redo as one operation -/

/-- The two ways along the history. -/
inductive Way where
  | back
  | ahead
deriving DecidableEq, Repr

namespace Way

/-- The other way. -/
def other : Way → Way
  | back => ahead
  | ahead => back

@[simp] theorem other_other (way : Way) : way.other.other = way := by
  cases way <;> rfl

theorem forall_iff (way : Way) {P : Way → Prop} : (∀ w, P w) ↔ P way ∧ P way.other := by
  constructor
  · exact fun h => ⟨h way, h way.other⟩
  · rintro ⟨hway, hother⟩ w
    cases way <;> cases w <;> assumption

end Way

/-- The text that an entry leads to. -/
def HistoryEntry.textTo (e : HistoryEntry) : Way → String
  | .back => e.textBefore
  | .ahead => e.textAfter

/-- The focus that an entry leads to. -/
def HistoryEntry.markTo (e : HistoryEntry) : Way → FocusMark
  | .back => e.oldFocus
  | .ahead => e.newFocus

namespace History

/-- The entries that lie one way, the next one first. -/
def side (h : History) : Way → List HistoryEntry
  | .back => h.undoable
  | .ahead => h.redoable

/-- The history with its next entry taken. -/
def go (h : History) : Way → History
  | .back => h.undo.2
  | .ahead => h.redo.2

/-- The entry that is taken goes to the other side. -/
theorem side_go {h : History} {way : Way} {entry : HistoryEntry} {rest : List HistoryEntry}
    (hside : h.side way = entry :: rest) :
    (h.go way).side way = rest ∧ (h.go way).side way.other = entry :: h.side way.other := by
  cases way with
  | back =>
      have hundoable : h.undoable = entry :: rest := hside
      simp only [go, undo, hundoable]
      exact ⟨rfl, rfl⟩
  | ahead =>
      have hredoable : h.redoable = entry :: rest := hside
      simp only [go, redo, hredoable]
      exact ⟨rfl, rfl⟩

@[simp] theorem limit_go (h : History) (way : Way) : (h.go way).limit = h.limit := by
  cases way with
  | back =>
      simp only [go, undo]
      cases h.undoable <;> rfl
  | ahead =>
      simp only [go, redo]
      cases h.redoable <;> rfl

end History

namespace Session

variable {β : Type} [TextBuffer β]

/-- Undo and redo. -/
def go (s : Session β) : Way → Except EditError Bool × Session β
  | .back => s.undo
  | .ahead => s.redo

/-- There is nothing to take, or the step fails as the restoring fails, or it restores and moves the entry to
the other side. -/
theorem go_cases (s : Session β) (way : Way) :
    (s.history.side way = [] ∧ s.go way = (.ok false, s)) ∨
    (∃ entry rest, s.history.side way = entry :: rest ∧
      ((∃ e s', s.restore (entry.textTo way) (entry.markTo way) = (.error e, s') ∧ s.go way = (.error e, s')) ∨
        (∃ s', s.restore (entry.textTo way) (entry.markTo way) = (.ok (), s') ∧
          s.go way = (.ok true, { s' with history := s'.history.go way })))) := by
  cases hside : s.history.side way with
  | nil =>
      refine Or.inl ⟨rfl, ?_⟩
      cases way <;> simp_all [go, undo, redo, History.side, History.nextUndo?, History.nextRedo?]
  | cons entry rest =>
      refine Or.inr ⟨entry, rest, rfl, ?_⟩
      cases hrestore : s.restore (entry.textTo way) (entry.markTo way) with
      | mk result s' =>
          cases result with
          | error e =>
              refine Or.inl ⟨e, s', rfl, ?_⟩
              cases way <;> simp_all [go, undo, redo, History.side, History.nextUndo?, History.nextRedo?,
                HistoryEntry.textTo, HistoryEntry.markTo]
          | ok u =>
              refine Or.inr ⟨s', rfl, ?_⟩
              cases way <;> simp_all [go, undo, redo, History.side, History.go, History.nextUndo?,
                History.nextRedo?, HistoryEntry.textTo, HistoryEntry.markTo]

theorem refresh_cases (s : Session β) :
    (∃ e, s.refresh = (.error e, s)) ∨
    (∃ roots, readDocument s.text = .ok roots ∧
      s.refresh =
        (.ok (), s.install (reconcile s.tree roots s.ids).1 (reconcile s.tree roots s.ids).2
          (s.focus.filter (reconcile s.tree roots s.ids).1.contains))) := by
  unfold refresh
  cases hread : readDocument s.text with
  | error e => exact Or.inl ⟨.read e, rfl⟩
  | ok roots => exact Or.inr ⟨roots, rfl, rfl⟩

end Session

end TreeEdit
