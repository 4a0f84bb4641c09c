import Mathlib
import TreeEdit.Proofs.Anonymous
import TreeEdit.Proofs.Changes
import TreeEdit.Proofs.Steps
import TreeEdit.Proofs.Trees

/-!
# Text and tree stay in step

A session keeps a text and the tree of that text, and changes the two by different routes: the tree
comes from a text that was put together by offsets and read ahead, the buffer is written piece by
piece. `Session.InStep` says that they agree, and that the focus and the collapsed nodes belong to
the tree. Every operation keeps it (`act_inStep`), so every run from a fresh session has it, whatever
the operations and whether they succeed or fail.
-/

namespace TreeEdit

/-! ## The focus is a node of the tree -/

namespace Focus

theorem visible_mem {t : Tree} {id : NodeId} (h : id ∈ t.ids) (collapsed : List NodeId) :
    visible t id collapsed ∈ t.ids := by
  unfold visible
  split
  · rename_i a ha
    exact Tree.mem_ids_of_mem_ancestors (List.mem_of_find?_eq_some ha)
  · exact h

theorem ofHint?_mem {t : Tree} {hint : Option (Tree → FocusHint)} {id : NodeId}
    (h : ofHint? t hint = some id) : id ∈ t.ids := by
  obtain ⟨suggest, -, hid⟩ := Option.bind_eq_some_iff.1 h
  split at hid
  · split at hid
    · rename_i hcontains
      cases hid
      exact Tree.contains_iff.1 hcontains
    · cases hid
  · cases hid

theorem ofChanges_mem {t : Tree} {old new : String} {changes : List TextChange} {id : NodeId}
    (h : ofChanges t old new changes = some id) : id ∈ t.ids := by
  obtain ⟨n, hn, rfl⟩ := Option.map_eq_some_iff.1 h
  rcases Option.or_eq_some_iff.1 hn with hbefore | ⟨-, hroot⟩
  · obtain ⟨pos, -, hpos⟩ := Option.bind_eq_some_iff.1 hbefore
    exact Tree.before?_id_mem_ids hpos
  · exact Tree.head?_id_mem_ids hroot

theorem resolve_mem {t : Tree} {hint : Option (Tree → FocusHint)} {old new : String}
    {changes : List TextChange} {collapsed : List NodeId} {id : NodeId}
    (h : resolve t hint old new changes collapsed = some id) : id ∈ t.ids := by
  obtain ⟨target, htarget, rfl⟩ := Option.map_eq_some_iff.1 h
  refine visible_mem ?_ collapsed
  rcases Option.or_eq_some_iff.1 htarget with hhint | ⟨-, hchanges⟩
  · exact ofHint?_mem hhint
  · exact ofChanges_mem hchanges

end Focus

theorem FocusMark.resolve_mem {m : FocusMark} {t : Tree} {id : NodeId} (h : m.resolve t = some id) :
    id ∈ t.ids := by
  rcases Option.or_eq_some_iff.1 h with hid | ⟨-, hpath⟩
  · exact Tree.contains_iff.1 (Option.filter_eq_some_iff.1 hid).2
  · obtain ⟨n, hn, rfl⟩ := Option.map_eq_some_iff.1 hpath
    obtain ⟨path, -, hat⟩ := Option.bind_eq_some_iff.1 hn
    exact Tree.id_mem_ids hat

/-! ## Texts read ahead -/

theorem Draft.ofChanges_eq_ok_iff {text : String} {changes : List TextChange} {draft : Draft} :
    Draft.ofChanges text changes = .ok draft ↔
      applyChanges text changes = .ok draft.text ∧ readDocument draft.text = .ok draft.roots := by
  simp only [Draft.ofChanges, bind_eq_ok, Draft.ofText]
  constructor
  · rintro ⟨new, hnew, hread⟩
    split at hread
    · rename_i roots hroots
      cases hread
      exact ⟨hnew, hroots⟩
    · cases hread
  · rintro ⟨hnew, hroots⟩
    refine ⟨draft.text, hnew, ?_⟩
    rw [hroots]

theorem Draft.ofChanges_latestFirst (text : String) (changes : List TextChange) :
    Draft.ofChanges text (latestFirst changes) = Draft.ofChanges text changes := by
  simp only [Draft.ofChanges, applyChanges, latestFirst_latestFirst]

namespace Session

/-! ## Runs of operations -/

/-- An operation on a session. A commit may come with a hint for the focus; its text is read by the
session itself. -/
inductive Action where
  | perform (edits : List Edit)
  | drop (source : NodeId) (target : DropTarget)
  | commit (changes : List TextChange) (hint : Option (Tree → FocusHint))
  | undo
  | redo
  | refresh
  | setFocus (id : NodeId)
  | collapse (id : NodeId)
  | expand (id : NodeId)

section Runs

variable {β : Type} [TextBuffer β]

/-- The session after an operation, whether it succeeded or failed. -/
def act (s : Session β) : Action → Session β
  | .perform edits => (s.perform edits).2
  | .drop source target => (s.drop source target).2
  | .commit changes hint => (s.commit changes hint none).2
  | .undo => s.undo.2
  | .redo => s.redo.2
  | .refresh => s.refresh.2
  | .setFocus id => (s.setFocus id).2
  | .collapse id => (s.collapse id).2
  | .expand id => (s.expand id).2

/-- The operation that goes one way along the history. -/
def Action.go : Way → Action
  | .back => .undo
  | .ahead => .redo

theorem act_go (s : Session β) (way : Way) : s.act (.go way) = (s.go way).2 := by
  cases way <;> rfl

/-- The way back and the way forward are one step: nothing is left to take, or a text of the history is restored
as far as it can be, and at most the history changes besides. -/
theorem act_restores (s : Session β) {a : Action} (ha : a = .undo ∨ a = .redo) :
    s.act a = s ∨ ∃ text mark history, s.act a = { (s.restore text mark).2 with history := history } := by
  obtain ⟨way, rfl⟩ : ∃ way, a = .go way := by
    rcases ha with rfl | rfl
    · exact ⟨.back, rfl⟩
    · exact ⟨.ahead, rfl⟩
  rw [act_go]
  rcases s.go_cases way with ⟨-, h⟩ | ⟨entry, rest, -, ⟨e, s', hrestore, h⟩ | ⟨s', hrestore, h⟩⟩
  · exact .inl (by rw [h])
  · exact .inr ⟨_, _, s'.history, by rw [h, hrestore]⟩
  · exact .inr ⟨_, _, s'.history.go way, by rw [h, hrestore]⟩

/-- The session after a run of operations. -/
def run (s : Session β) (actions : List Action) : Session β := actions.foldl act s

end Runs

/-- The text can be read, the tree is what is read there but for its identities, and the focus and
the collapsed nodes are in the tree. -/
structure InStep (s : Session String) : Prop where
  roots : ∃ roots, readDocument s.text = .ok roots ∧
    s.tree.roots.map Node.anonymous = roots.map Node.anonymous
  collapsed : ∀ id ∈ s.collapsed, id ∈ s.tree.ids
  focus : ∀ id, s.focus = some id → id ∈ s.tree.ids

/-! ## Single operations -/

/-- A newly read tree put in place, with a focus in it, agrees with the text it was read from. -/
theorem install_inStep {s : Session String} {old : Tree} {roots : List Node} {ids : IdSource}
    {focus : Option NodeId} (hread : readDocument s.buffer = .ok roots)
    (hfocus : ∀ id, focus = some id → id ∈ (reconcile old roots ids).1.ids) (next : IdSource) :
    (s.install (reconcile old roots ids).1 next focus).InStep where
  roots := ⟨roots, hread, reconcile_anonymous old roots ids⟩
  collapsed := by
    intro id hid
    exact Tree.contains_iff.1 (List.mem_filter.1 hid).2
  focus := hfocus

theorem start_inStep {text : String} {settings : Settings} {s : Session String}
    (h : start text settings = .ok s) : s.InStep := by
  obtain ⟨roots, hread, rfl⟩ := started_of_start h
  exact ⟨⟨roots, hread, reconcile_anonymous .empty roots .new⟩, by simp [started], by simp [started]⟩

/-- A plain text always takes a new text as a whole. -/
theorem overwriteAll_string (old new : String) : overwriteAll old new = (.ok (), new) := by
  have h := replaceIn_whole old new
  simp only [overwriteAll, TextBuffer.replace, TextBuffer.text, id_eq, h]

theorem prepare_of_draft {β : Type} [TextBuffer β] {s : Session β} {changes : List TextChange} {draft : Draft}
    (h : Draft.ofChanges s.text changes = .ok draft) :
    s.prepare changes none = .ok (latestFirst changes, draft) := by
  obtain ⟨happly, -⟩ := Draft.ofChanges_eq_ok_iff.1 h
  unfold applyChanges at happly
  obtain ⟨⟨⟩, hoverlap, -⟩ := bind_eq_ok.1 happly
  refine bind_eq_ok.2 ⟨(), hoverlap, bind_eq_ok.2 ⟨draft, ?_, rfl⟩⟩
  rw [Draft.ofChanges_latestFirst, h]

/-- A commit to a plain text succeeds if the new text can be read. -/
theorem commit_of_draft {s : Session String} {changes : List TextChange} {draft : Draft}
    (h : Draft.ofChanges s.text changes = .ok draft) (hint : Option (Tree → FocusHint)) :
    s.commit changes hint none = (.ok ⟨s.chosenFocus hint draft (latestFirst changes), latestFirst changes⟩,
      s.committed draft.text draft (s.chosenFocus hint draft (latestFirst changes))) := by
  have hwrite : writeAll s.buffer (latestFirst changes) = (.ok (), draft.text) :=
    writeAll_of_applyChanges (Draft.ofChanges_eq_ok_iff.1 h).1
  simp only [commit, prepare_of_draft h, hwrite]
  rfl

/-- What a commit to a plain text writes, latest change first, is the text it has read ahead. -/
theorem prepare_writes {s : Session String} {changes sorted : List TextChange}
    {ahead : Option Draft} {draft : Draft}
    (hahead : ∀ d, ahead = some d → Draft.ofChanges s.text changes = .ok d)
    (h : s.prepare changes ahead = .ok (sorted, draft)) :
    sorted = latestFirst changes ∧ writeAll s.buffer sorted = (.ok (), draft.text) ∧
      readDocument draft.text = .ok draft.roots := by
  have hdraft : sorted = latestFirst changes ∧ Draft.ofChanges s.text changes = .ok draft := by
    unfold prepare at h
    obtain ⟨⟨⟩, -, h⟩ := bind_eq_ok.1 h
    cases ahead with
    | some d =>
        cases h
        exact ⟨rfl, hahead _ rfl⟩
    | none =>
        obtain ⟨d, hd, h⟩ := bind_eq_ok.1 h
        cases h
        rw [Draft.ofChanges_latestFirst] at hd
        exact ⟨rfl, hd⟩
  obtain ⟨rfl, hof⟩ := hdraft
  obtain ⟨happly, hread⟩ := Draft.ofChanges_eq_ok_iff.1 hof
  exact ⟨rfl, writeAll_of_applyChanges happly, hread⟩

theorem commit_inStep {s : Session String} (hs : s.InStep) {changes : List TextChange}
    (hint : Option (Tree → FocusHint)) {ahead : Option Draft}
    (hahead : ∀ d, ahead = some d → Draft.ofChanges s.text changes = .ok d) :
    (s.commit changes hint ahead).2.InStep := by
  rcases s.commit_cases changes hint ahead with ⟨e, -, h⟩ | ⟨sorted, draft, e, b, hprep, hwrite, -⟩ |
    ⟨sorted, draft, b, hprep, hwrite, h⟩
  · rw [h]
    exact hs
  · -- a plain text takes every change that was applied ahead
    have hok := (prepare_writes hahead hprep).2.1
    rw [hwrite] at hok
    cases hok
  · rw [h]
    obtain ⟨-, hok, hread⟩ := prepare_writes hahead hprep
    rw [hwrite] at hok
    cases hok
    unfold committed
    refine install_inStep hread ?_ _
    intro id hid
    exact Focus.resolve_mem hid

theorem draft_of_plan {s : Session String} {edits : List Edit} {changes : List TextChange} {draft : Draft}
    (h : s.plan edits = .ok (changes, draft)) : Draft.ofChanges s.text changes = .ok draft := by
  obtain ⟨planned, -, h⟩ := bind_eq_ok.1 h
  obtain ⟨ahead, hahead, h⟩ := bind_eq_ok.1 h
  cases h
  exact hahead

theorem perform_inStep {s : Session String} (hs : s.InStep) (edits : List Edit) :
    (s.perform edits).2.InStep := by
  rcases s.perform_cases edits with ⟨-, h⟩ | ⟨e, -, h⟩ | ⟨changes, draft, hint, hplan, h⟩
  · rw [h]
    exact hs
  · rw [h]
    exact hs
  · rw [h]
    refine commit_inStep hs hint ?_
    rintro d ⟨⟩
    exact draft_of_plan hplan

theorem restore_inStep {s : Session String} (hs : s.InStep) (text : String) (mark : FocusMark) :
    (s.restore text mark).2.InStep := by
  rcases s.restore_cases text mark with ⟨e, h⟩ | ⟨e, b, hover, -⟩ | ⟨roots, b, hread, hover, h⟩
  · rw [h]
    exact hs
  · rw [overwriteAll_string] at hover
    cases hover
  · rw [h]
    rw [overwriteAll_string] at hover
    cases hover
    refine install_inStep hread ?_ _
    intro id hid
    obtain ⟨target, htarget, rfl⟩ := Option.map_eq_some_iff.1 hid
    refine Focus.visible_mem ?_ _
    rcases Option.or_eq_some_iff.1 htarget with hmark | ⟨-, hroot⟩
    · exact FocusMark.resolve_mem hmark
    · obtain ⟨r, hr, rfl⟩ := Option.map_eq_some_iff.1 hroot
      exact Tree.head?_id_mem_ids hr

/-- The history has no part in the agreement. -/
theorem InStep.withHistory {s : Session String} (hs : s.InStep) (history : History) :
    { s with history := history }.InStep :=
  ⟨hs.roots, hs.collapsed, hs.focus⟩

theorem collapse_inStep {s : Session String} (hs : s.InStep) (id : NodeId) :
    (s.collapse id).2.InStep := by
  unfold collapse
  split
  · rename_i hcontains
    refine ⟨hs.roots, ?_, ?_⟩
    · intro other hother
      simp only at hother
      split at hother
      · exact hs.collapsed other hother
      · rcases List.mem_cons.1 hother with rfl | hother
        · exact Tree.contains_iff.1 hcontains
        · exact hs.collapsed other hother
    · intro other hother
      obtain ⟨f, hf, rfl⟩ := Option.map_eq_some_iff.1 hother
      exact Focus.visible_mem (hs.focus f hf) _
  · exact hs

/-! ## All operations -/

theorem act_inStep {s : Session String} (hs : s.InStep) (a : Action) : (s.act a).InStep := by
  by_cases ha : a = .undo ∨ a = .redo
  · rcases s.act_restores ha with h | ⟨text, mark, history, h⟩
    · rw [h]
      exact hs
    · rw [h]
      exact (restore_inStep hs text mark).withHistory history
  cases a with
  | perform edits => exact perform_inStep hs edits
  | drop source target =>
      rcases s.drop_cases source target with ⟨e, h⟩ | ⟨text, edits, -, -, h⟩
      · simp only [act, h]
        exact hs
      · simp only [act, h]
        exact perform_inStep hs edits
  | commit changes hint => exact commit_inStep hs hint (by simp)
  | undo | redo => simp at ha
  | refresh =>
      rcases s.refresh_cases with ⟨e, h⟩ | ⟨roots, hread, h⟩
      · simp only [act, h]
        exact hs
      · simp only [act, h]
        refine install_inStep hread ?_ _
        intro id hid
        exact Tree.contains_iff.1 (Option.filter_eq_some_iff.1 hid).2
  | setFocus id =>
      simp only [act, setFocus]
      split
      · rename_i hcontains
        refine ⟨hs.roots, hs.collapsed, ?_⟩
        rintro other ⟨⟩
        exact Focus.visible_mem (Tree.contains_iff.1 hcontains) _
      · exact hs
  | collapse id => exact collapse_inStep hs id
  | expand id =>
      refine ⟨hs.roots, ?_, hs.focus⟩
      intro other hother
      exact hs.collapsed other (List.mem_filter.1 hother).1

theorem run_inStep {s : Session String} (hs : s.InStep) (actions : List Action) :
    (s.run actions).InStep := by
  induction actions generalizing s with
  | nil => exact hs
  | cons a actions ih => exact ih (act_inStep hs a)

/-- A session can be started on every text that can be read, and after every run of operations its
text and its tree agree, and its focus and its collapsed nodes are in the tree. -/
theorem run_keeps_text_and_tree_in_step {text : String} {roots : List Node}
    (hread : readDocument text = .ok roots) (settings : Settings) :
    ∃ s, start text settings = .ok s ∧ ∀ actions, (s.run actions).InStep := by
  have hs := start_eq (β := String) hread settings
  exact ⟨_, hs, run_inStep (start_inStep hs)⟩

/-- A run with a commit that goes through, one that is refused because a bracket would not be closed, and a way
back and forth. -/
theorem run_keeps_text_and_tree_in_step_refused_commit :
    let call : List TextChange := [⟨⟨1, 1⟩, ⟨1, 2⟩, "(g y)"⟩]
    let bracket : List TextChange := [⟨⟨0, 0⟩, ⟨0, 1⟩, ""⟩]
    ∃ roots s s' committed e, readDocument "(f\n x)" = .ok roots ∧ start "(f\n x)" .default = .ok s ∧
      s.commit call none none = (.ok committed, s') ∧ s'.text = "(f\n (g y))" ∧
      s'.commit bracket none none = (.error e, s') ∧
      (s.run [.commit call none, .commit bracket none, .undo, .redo, .setFocus ⟨1⟩, .collapse ⟨1⟩,
        .refresh]).InStep := by
  intro call bracket
  obtain ⟨roots, hread⟩ : ∃ roots, readDocument "(f\n x)" = .ok roots := Except.exists_eq_ok (by decide +kernel)
  obtain ⟨roots', hread'⟩ : ∃ roots, readDocument "(f\n (g y))" = .ok roots :=
    Except.exists_eq_ok (by decide +kernel)
  have hbracket : (readDocument "f\n (g y))").toOption = none := by decide +kernel
  obtain ⟨s, hs, hrun⟩ := run_keeps_text_and_tree_in_step hread .default
  have htext : s.text = "(f\n x)" := by
    obtain ⟨-, -, rfl⟩ := started_of_start hs
    rfl
  have hdraft : Draft.ofChanges s.text call = .ok ⟨"(f\n (g y))", roots'⟩ := by
    rw [htext]
    exact Draft.ofChanges_eq_ok_iff.2 ⟨by cbv, hread'⟩
  have hcommit := commit_of_draft hdraft none
  generalize hs' : s.committed _ _ _ = s' at hcommit
  have htext' : s'.text = "(f\n (g y))" := by
    rw [← hs']
    rfl
  have happly : applyChanges s'.text (latestFirst bracket) = .ok "f\n (g y))" := by
    rw [htext']
    cbv
  obtain ⟨e, hrefused⟩ : ∃ e, readDocument "f\n (g y))" = .error e := by
    cases hcut : readDocument "f\n (g y))" with
    | error e => exact ⟨e, rfl⟩
    | ok roots => simp [hcut, Except.toOption] at hbracket
  have hprepare : s'.prepare bracket none = .error (.read e) := by
    rw [prepare, show refuseOverlap (latestFirst bracket) = .ok () by cbv]
    simp only [bind, Except.bind, Draft.ofChanges, happly, Draft.ofText, hrefused]
  refine ⟨roots, s, s', _, .read e, hread, hs, hcommit, htext', ?_, hrun _⟩
  simp only [commit, hprepare]

end Session

end TreeEdit
