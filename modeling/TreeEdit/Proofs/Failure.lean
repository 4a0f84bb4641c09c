import Mathlib
import TreeEdit.Proofs.Agreement

/-!
# A failed operation changes nothing

A buffer may refuse any of its replacements. When one of a batch is refused, those before it have
been written already, and the whole text is put back in one more replacement. So a failed operation
leaves text, tree, identities, focus, collapsed nodes and history as they were, with one exception:
if that last replacement is refused too, the text keeps what was written. Everything else is
unchanged even then. Only operations that commit a batch of changes have the exception.

`LawfulBuffer` says what is needed of a buffer: which replacements it refuses is its own business.
-/

namespace TreeEdit

/-! ## Buffers that may refuse -/

/-- A buffer whose replacements replace a range of its text, or fail and leave the text alone. -/
class LawfulBuffer (β : Type) [TextBuffer β] : Prop where
  text_of_ok : ∀ {b b' : β} {new : String} {span : Span},
    TextBuffer.replace b new span = (.ok (), b') →
      replaceIn (TextBuffer.text b) new span = .ok (TextBuffer.text b')
  text_of_error : ∀ {b b' : β} {new : String} {span : Span} {e : EditError},
    TextBuffer.replace b new span = (.error e, b') → TextBuffer.text b' = TextBuffer.text b

instance : LawfulBuffer String where
  text_of_ok := by
    intro b b' new span h
    simp only [TextBuffer.replace] at h
    split at h
    · cases h
      assumption
    · cases h
  text_of_error := by
    intro b b' new span e h
    simp only [TextBuffer.replace] at h
    split at h
    · cases h
    · cases h
      rfl

instance : LawfulBuffer RefusingBuffer where
  text_of_ok := by
    intro b b' new span h
    simp only [TextBuffer.replace] at h
    split at h
    · cases h
    · split at h
      · cases h
        assumption
      · cases h
  text_of_error := by
    intro b b' new span e h
    simp only [TextBuffer.replace] at h
    split at h
    · cases h
      rfl
    · split at h
      · cases h
      · cases h
        rfl

namespace Session

variable {β : Type} [TextBuffer β]

/-- The whole text is always a range, so a new text is either taken as it is or refused. -/
theorem text_of_overwriteAll [LawfulBuffer β] {b b' : β} {text : String}
    (h : overwriteAll b text = (.ok (), b')) : TextBuffer.text b' = text := by
  have hreplace := LawfulBuffer.text_of_ok h
  rw [replaceIn_whole] at hreplace
  cases hreplace
  rfl

/-! ## Requests and what they write -/

/-- An operation that may fail. -/
inductive Request where
  | perform (edits : List Edit)
  | drop (source : NodeId) (target : DropTarget)
  | commit (changes : List TextChange) (hint : Option (Tree → FocusHint)) (ahead : Option Draft)
  | undo
  | redo
  | refresh
  | script (script : Script)

/-- Whether a request succeeds, and the session after it. -/
def request (s : Session β) : Request → Bool × Session β
  | .perform edits => ((s.perform edits).1.isOk, (s.perform edits).2)
  | .drop source target => ((s.drop source target).1.isOk, (s.drop source target).2)
  | .commit changes hint ahead =>
    ((s.commit changes hint ahead).1.isOk, (s.commit changes hint ahead).2)
  | .undo => (s.undo.1.isOk, s.undo.2)
  | .redo => (s.redo.1.isOk, s.redo.2)
  | .refresh => (s.refresh.1.isOk, s.refresh.2)
  | .script script => ((s.runScript script).1.isOk, (s.runScript script).2)

/-- The changes that a batch of edits writes, in the order in which they are written. -/
def batchOfEdits? (s : Session β) (edits : List Edit) : Option (List TextChange) :=
  (s.plan edits).toOption.map fun planned => latestFirst planned.1

/-- The changes that a request writes one after the other; undo and redo write the text as a whole,
and a refresh writes nothing. -/
def batch? (s : Session β) : Request → Option (List TextChange)
  | .perform edits => s.batchOfEdits? edits
  | .drop source target =>
    match s.nodeText source with
    | .error _ => none
    | .ok text => (Edit.move s.tree text source target).toOption.bind s.batchOfEdits?
  | .commit changes _ _ => some (latestFirst changes)
  | .undo | .redo | .refresh => none
  | .script script => (script.resolve s.tree s.text).toOption.bind s.batchOfEdits?

/-- Two sessions that agree in everything but the buffer. -/
structure SameBesidesBuffer (s s' : Session β) : Prop where
  tree : s'.tree = s.tree
  ids : s'.ids = s.ids
  settings : s'.settings = s.settings
  collapsed : s'.collapsed = s.collapsed
  focus : s'.focus = s.focus
  history : s'.history = s.history

omit [TextBuffer β] in
theorem sameBesidesBuffer_withBuffer (s : Session β) (b : β) :
    s.SameBesidesBuffer { s with buffer := b } :=
  ⟨rfl, rfl, rfl, rfl, rfl, rfl⟩

/-- A batch was refused half way, and so was the old text when it was to be put back. -/
def TakeBackRefused (s s' : Session β) (batch : List TextChange) : Prop :=
  ∃ e b e', writeAll s.buffer batch = (.error e, b) ∧ overwriteAll b s.text = (.error e', s'.buffer)

/-- What a failure leaves behind: all but the buffer is as before, and so is its text, unless a batch
could not be taken back. -/
structure Untouched (s s' : Session β) (batch : Option (List TextChange)) : Prop where
  besides : s.SameBesidesBuffer s'
  text : s'.text = s.text ∨ ∃ changes, batch = some changes ∧ s.TakeBackRefused s' changes

theorem Untouched.refl (s : Session β) (batch : Option (List TextChange)) : s.Untouched s batch :=
  ⟨sameBesidesBuffer_withBuffer s s.buffer, Or.inl rfl⟩

/-! ## Where failures come from -/

theorem prepare_sorted {s : Session β} {changes sorted : List TextChange} {ahead : Option Draft}
    {draft : Draft} (h : s.prepare changes ahead = .ok (sorted, draft)) :
    sorted = latestFirst changes := by
  unfold prepare at h
  obtain ⟨⟨⟩, -, h⟩ := bind_eq_ok.1 h
  cases ahead with
  | some d =>
      cases h
      rfl
  | none =>
      obtain ⟨d, -, h⟩ := bind_eq_ok.1 h
      cases h
      rfl

variable [LawfulBuffer β]

theorem commit_untouched {s : Session β} {changes : List TextChange}
    {hint : Option (Tree → FocusHint)} {ahead : Option Draft}
    (h : (s.commit changes hint ahead).1.isOk = false) :
    s.Untouched (s.commit changes hint ahead).2 (some (latestFirst changes)) := by
  rcases s.commit_cases changes hint ahead with ⟨e, -, hc⟩ | ⟨sorted, draft, e, b, hprep, hwrite, hc⟩ |
    ⟨sorted, draft, b, -, -, hc⟩
  · rw [hc]
    exact .refl s _
  · rw [hc]
    refine ⟨sameBesidesBuffer_withBuffer s _, ?_⟩
    cases hback : overwriteAll b s.text with
    | mk result b' =>
        cases result with
        | ok u => exact Or.inl (text_of_overwriteAll hback)
        | error e' =>
            refine Or.inr ⟨_, rfl, e, b, e', ?_, hback⟩
            rw [← prepare_sorted hprep]
            exact hwrite
  · rw [hc] at h
    cases h

theorem perform_untouched {s : Session β} {edits : List Edit}
    (h : (s.perform edits).1.isOk = false) :
    s.Untouched (s.perform edits).2 (s.batchOfEdits? edits) := by
  rcases s.perform_cases edits with ⟨-, hp⟩ | ⟨e, -, hp⟩ | ⟨changes, draft, hint, hplan, hp⟩
  · rw [hp] at h
    cases h
  · rw [hp]
    exact .refl s _
  · have hbatch : s.batchOfEdits? edits = some (latestFirst changes) := by
      rw [batchOfEdits?, hplan]
      rfl
    rw [hp] at h ⊢
    rw [hbatch]
    exact commit_untouched h

theorem restore_untouched {s s' : Session β} {text : String} {mark : FocusMark} {e : EditError}
    (h : s.restore text mark = (.error e, s')) (batch : Option (List TextChange)) :
    s.Untouched s' batch := by
  rcases s.restore_cases text mark with ⟨e', hr⟩ | ⟨e', b, hover, hr⟩ | ⟨roots, b, -, -, hr⟩
  · cases hr.symm.trans h
    exact .refl s _
  · cases hr.symm.trans h
    exact ⟨sameBesidesBuffer_withBuffer s b, Or.inl (LawfulBuffer.text_of_error hover)⟩
  · cases hr.symm.trans h

theorem go_untouched {s : Session β} (way : Way) (h : (s.go way).1.isOk = false)
    (batch : Option (List TextChange)) : s.Untouched (s.go way).2 batch := by
  rcases s.go_cases way with ⟨-, hgo⟩ | ⟨entry, rest, -, ⟨e, s', hrestore, hgo⟩ | ⟨s', -, hgo⟩⟩
  · rw [hgo]
    exact .refl s _
  · rw [hgo]
    exact restore_untouched hrestore _
  · rw [hgo] at h
    cases h

/-- A request that fails leaves the session as it was; only if a refused batch cannot be taken back
does the text of the buffer differ. -/
theorem failed_request_changes_nothing (s : Session β) (r : Request)
    (h : (s.request r).1 = false) : s.Untouched (s.request r).2 (s.batch? r) := by
  cases r with
  | perform edits => exact perform_untouched h
  | drop source target =>
      rcases s.drop_cases source target with ⟨e, hd⟩ | ⟨text, edits, htext, hmove, hd⟩
      · simp only [request, hd]
        exact .refl s _
      · have hbatch : s.batch? (.drop source target) = s.batchOfEdits? edits := by
          simp only [batch?, htext, hmove]
          rfl
        simp only [request, hd] at h ⊢
        rw [hbatch]
        exact perform_untouched h
  | commit changes hint ahead => exact commit_untouched h
  | undo => exact go_untouched .back h _
  | redo => exact go_untouched .ahead h _
  | refresh =>
      rcases s.refresh_cases with ⟨e, hr⟩ | ⟨roots, -, hr⟩
      · simp only [request, hr]
        exact .refl s _
      · simp only [request, hr] at h
        cases h
  | script script =>
      rcases s.runScript_cases script with ⟨e, hr⟩ | ⟨edits, hres, hr⟩
      · simp only [request, hr]
        exact .refl s _
      · have hbatch : s.batch? (.script script) = s.batchOfEdits? edits := by
          simp only [batch?, hres]
          rfl
        simp only [request, hr] at h ⊢
        rw [hbatch]
        refine perform_untouched ?_
        cases hresult : (s.perform edits).1 with
        | error e => rfl
        | ok c =>
            rw [hresult] at h
            cases h

/-- A session is started on a buffer that refuses its third replacement, and one change is committed. Of the two
changes of the next commit the first is taken back when the second is refused. -/
theorem refused_second_change_taken_back :
    let oneChange : Request := .commit [⟨⟨0, 3⟩, ⟨0, 4⟩, "y"⟩] none none
    let twoChanges : Request := .commit [⟨⟨0, 1⟩, ⟨0, 2⟩, "g"⟩, ⟨⟨0, 3⟩, ⟨0, 4⟩, "z"⟩] none none
    ∃ s s', start (⟨"(f x)", 0, [3]⟩ : RefusingBuffer) .default = .ok s ∧ s.request oneChange = (true, s') ∧
      s'.tree.ids = [⟨1⟩, ⟨2⟩, ⟨3⟩] ∧ s'.focus.isSome ∧ s'.history.nextUndo?.isSome ∧
      (s'.request twoChanges).1 = false ∧ s'.text = "(f y)" ∧ (s'.request twoChanges).2.text = "(f y)" ∧
      s'.Untouched (s'.request twoChanges).2 (s'.batch? twoChanges) := by
  intro oneChange twoChanges
  obtain ⟨roots, hread, roots₁, hread₁, hids, hfocus⟩ :
      ∃ roots, readDocument "(f x)" = .ok roots ∧ ∃ roots₁ ∈ (readDocument "(f y)").toOption,
        (reconcile (reconcile .empty roots .new).1 roots₁ (reconcile .empty roots .new).2).1.ids =
          [⟨1⟩, ⟨2⟩, ⟨3⟩] ∧
        (reconcile (reconcile .empty roots .new).1 roots₁ (reconcile .empty roots .new).2).1.roots.head?.isSome :=
    Except.exists_ok (by decide +kernel)
  have hread₁ := Except.toOption_eq_some.1 hread₁
  obtain ⟨roots₂, hread₂⟩ : ∃ roots₂, readDocument "(g z)" = .ok roots₂ := Except.exists_eq_ok (by decide +kernel)
  have hstart : start (⟨"(f x)", 0, [3]⟩ : RefusingBuffer) .default = .ok _ := start_eq hread .default
  generalize hs : started _ _ _ = s at hstart
  have hbuffer : s.buffer = ⟨"(f x)", 0, [3]⟩ := by rw [← hs]; rfl
  have htext : s.text = "(f x)" := by rw [text, hbuffer]; rfl
  have hprep : s.prepare [⟨⟨0, 3⟩, ⟨0, 4⟩, "y"⟩] none =
      .ok (latestFirst [⟨⟨0, 3⟩, ⟨0, 4⟩, "y"⟩], ⟨"(f y)", roots₁⟩) :=
    prepare_of_draft (Draft.ofChanges_eq_ok_iff.2 ⟨by rw [htext]; cbv, hread₁⟩)
  have hwrite : writeAll s.buffer (latestFirst [⟨⟨0, 3⟩, ⟨0, 4⟩, "y"⟩]) = (.ok (), ⟨"(f y)", 1, [3]⟩) := by
    rw [hbuffer]
    cbv
  have hcommit : s.request oneChange = (true, s.committed ⟨"(f y)", 1, [3]⟩ ⟨"(f y)", roots₁⟩
      (s.chosenFocus none ⟨"(f y)", roots₁⟩ (latestFirst [⟨⟨0, 3⟩, ⟨0, 4⟩, "y"⟩]))) := by
    simp only [request, oneChange, commit, hprep, hwrite]
    rfl
  generalize hs' : s.committed _ _ _ = s' at hcommit
  have hbuffer' : s'.buffer = ⟨"(f y)", 1, [3]⟩ := by rw [← hs']; rfl
  have htext' : s'.text = "(f y)" := by rw [text, hbuffer']; rfl
  have hprep' : s'.prepare [⟨⟨0, 1⟩, ⟨0, 2⟩, "g"⟩, ⟨⟨0, 3⟩, ⟨0, 4⟩, "z"⟩] none =
      .ok (latestFirst [⟨⟨0, 1⟩, ⟨0, 2⟩, "g"⟩, ⟨⟨0, 3⟩, ⟨0, 4⟩, "z"⟩], ⟨"(g z)", roots₂⟩) :=
    prepare_of_draft (Draft.ofChanges_eq_ok_iff.2 ⟨by rw [htext']; cbv, hread₂⟩)
  obtain ⟨e, hwrite'⟩ : ∃ e, writeAll s'.buffer (latestFirst [⟨⟨0, 1⟩, ⟨0, 2⟩, "g"⟩, ⟨⟨0, 3⟩, ⟨0, 4⟩, "z"⟩]) =
      (.error e, ⟨"(f z)", 3, [3]⟩) := by
    rw [hbuffer']
    exact ⟨.buffer "call 3 refused", by cbv⟩
  have hcommit' : s'.request twoChanges =
      (false, { s' with buffer := (overwriteAll (⟨"(f z)", 3, [3]⟩ : RefusingBuffer) s'.text).2 }) := by
    simp only [request, twoChanges, commit, hprep', hwrite']
    rfl
  have hfails : (s'.request twoChanges).1 = false := by rw [hcommit']
  refine ⟨s, s', hstart, hcommit, ?_, ?_, ?_, hfails, htext', ?_, failed_request_changes_nothing s' twoChanges hfails⟩
  · rw [← hs', ← hs]
    exact hids
  · have hchosen : s'.focus = s.chosenFocus none ⟨"(f y)", roots₁⟩ (latestFirst [⟨⟨0, 3⟩, ⟨0, 4⟩, "y"⟩]) := by
      rw [← hs']
      rfl
    rw [← hs] at hchosen
    simp [hchosen, chosenFocus, started, Focus.resolve, Focus.ofHint?, Focus.ofChanges, Option.isSome_or, hfocus]
  · rw [← hs', ← hs]
    rfl
  · rw [hcommit', htext']
    cbv

end Session

end TreeEdit
