import Mathlib
import TreeEdit.Proofs.Agreement
import TreeEdit.Proofs.Lookup

/-!
# Undo and redo move along a line of texts

Seen from outside, the history of a session is a line of texts with a place on it: `TextZipper`. A commit
cuts off what lies ahead and goes on from there, undo and redo go one text back and one text ahead. The
session does this with entries that each hold the texts on both sides of a commit, and it reads a text
again before it puts it in place. That the two agree rests on `Session.Linked`: each entry begins with the
text at which the one before it ends, the present text is where the two stacks meet, and every text on the
line can be read.
-/

namespace TreeEdit

/-! ## Texts in a line -/

/-- The latest of some things, latest first; no limit is written as zero. -/
def keepLatest {α : Type} (limit : Nat) (xs : List α) : List α := if limit = 0 then xs else xs.take limit

theorem map_keepLatest {α β : Type} (f : α → β) (limit : Nat) (xs : List α) :
    (keepLatest limit xs).map f = keepLatest limit (xs.map f) := by
  unfold keepLatest
  split
  · rfl
  · rw [List.map_take]

theorem keepLatest_initial {α : Type} (limit : Nat) (xs : List α) : keepLatest limit xs <+: xs := by
  unfold keepLatest
  split
  · exact List.prefix_rfl
  · exact List.take_prefix limit xs

theorem dropLast_keepLatest {α : Type} (x y : α) (xs : List α) (limit : Nat) :
    (x :: keepLatest limit (y :: xs)).dropLast = keepLatest limit (x :: (y :: xs).dropLast) := by
  have hcons : x :: (y :: xs).dropLast = (x :: y :: xs).dropLast := rfl
  unfold keepLatest
  split
  · rfl
  · rw [hcons, ← List.take_succ_cons, List.dropLast_eq_take, List.dropLast_eq_take, List.take_take,
      List.take_take]
    congr 1
    simp only [List.length_take, List.length_cons]
    omega

/-- A line of texts and the one shown now; the texts behind it and ahead of it, nearest first. -/
structure TextZipper where
  back : List String
  here : String
  ahead : List String
deriving DecidableEq, Repr

namespace TextZipper

/-- A new text. What was ahead is dropped. -/
def commit (z : TextZipper) (limit : Nat) (new : String) : TextZipper :=
  ⟨keepLatest limit (z.here :: z.back), new, []⟩

/-- One text back, if there is one. -/
def undo (z : TextZipper) : Bool × TextZipper :=
  match z.back with
  | [] => (false, z)
  | text :: back => (true, ⟨back, text, z.here :: z.ahead⟩)

/-- One text ahead, if there is one. -/
def redo (z : TextZipper) : Bool × TextZipper :=
  match z.ahead with
  | [] => (false, z)
  | text :: ahead => (true, ⟨z.here :: z.back, text, ahead⟩)

/-- The texts that lie one way, nearest first. -/
def side (z : TextZipper) : Way → List String
  | .back => z.back
  | .ahead => z.ahead

/-- One text along one way, if there is one. -/
def go (z : TextZipper) : Way → Bool × TextZipper
  | .back => z.undo
  | .ahead => z.redo

theorem ext_side {z z' : TextZipper} (hhere : z.here = z'.here) (hside : ∀ way, z.side way = z'.side way) :
    z = z' := by
  obtain ⟨back, here, ahead⟩ := z
  obtain rfl : here = z'.here := hhere
  obtain rfl : back = z'.back := hside .back
  obtain rfl : ahead = z'.ahead := hside .ahead
  rfl

theorem go_of_nil {z : TextZipper} {way : Way} (h : z.side way = []) : z.go way = (false, z) := by
  cases way <;> simp_all [go, undo, redo, side]

theorem go_of_cons {z : TextZipper} {way : Way} {text : String} {rest : List String}
    (h : z.side way = text :: rest) :
    (z.go way).1 = true ∧ (z.go way).2.here = text ∧ (z.go way).2.side way = rest ∧
      (z.go way).2.side way.other = z.here :: z.side way.other := by
  cases way <;> simp_all [go, undo, redo, side, Way.other]

/-- There are as many texts around the one shown as before. -/
theorem length_go (z : TextZipper) (way : Way) :
    (z.go way).2.back.length + (z.go way).2.ahead.length = z.back.length + z.ahead.length := by
  obtain ⟨back, here, ahead⟩ := z
  cases way with
  | back =>
      cases back with
      | nil => rfl
      | cons text back => exact (Nat.succ_add_eq_add_succ back.length ahead.length).symm
  | ahead =>
      cases ahead with
      | nil => rfl
      | cons text ahead => exact Nat.succ_add_eq_add_succ back.length ahead.length

theorem redo_undo {z : TextZipper} (h : z.undo.1 = true) : z.undo.2.redo.2 = z := by
  obtain ⟨back, here, ahead⟩ := z
  cases back with
  | nil => cases h
  | cons text back => rfl

/-- The line after some steps back. -/
def undos (z : TextZipper) : Nat → TextZipper
  | 0 => z
  | k + 1 => (z.undos k).undo.2

/-- The line after some steps ahead. -/
def redos (z : TextZipper) : Nat → TextZipper
  | 0 => z
  | k + 1 => (z.redo.2).redos k

/-- Some steps back and as many ahead lead to the same place. -/
theorem redos_undos {z : TextZipper} {k : Nat} (h : ∀ i < k, (z.undos i).undo.1 = true) :
    (z.undos k).redos k = z := by
  induction k with
  | zero => rfl
  | succ k ih =>
      rw [undos, redos, redo_undo (h k (Nat.lt_succ_self k))]
      exact ih fun i hi => h i (Nat.lt_succ_of_lt hi)

end TextZipper

/-! ## What an operation on a plain text does to text and history -/

namespace Session

/-- Whether an operation is a commit that succeeds. An empty batch of edits is no commit. -/
def commits (s : Session String) : Action → Bool
  | .perform edits => !edits.isEmpty && (s.perform edits).1.isOk
  | .drop source target => (s.drop source target).1.isOk
  | .commit changes hint => (s.commit changes hint none).1.isOk
  | _ => false

/-- The second session has the text and the history of the first. -/
structure Keeps (s s' : Session String) : Prop where
  text : s'.text = s.text
  history : s'.history = s.history
  settings : s'.settings = s.settings

/-- The texts and the foci on both sides of a commit. -/
def entryTo (s s' : Session String) : HistoryEntry where
  oldFocus := .ofFocus s.tree s.focus
  newFocus := .ofFocus s'.tree s'.focus
  textBefore := s.text
  textAfter := s'.text

/-- The second session comes of the first by a commit, which is recorded. -/
structure Commits (s s' : Session String) : Prop where
  history : s'.history = s.history.record (s.entryTo s')
  settings : s'.settings = s.settings

theorem Keeps.refl (s : Session String) : s.Keeps s := ⟨rfl, rfl, rfl⟩

theorem commit_turns (s : Session String) (changes : List TextChange) (hint : Option (Tree → FocusHint))
    (ahead : Option Draft) (hahead : ∀ d, ahead = some d → Draft.ofChanges s.text changes = .ok d) :
    ((s.commit changes hint ahead).1.isOk = true ∧ s.Commits (s.commit changes hint ahead).2) ∨
      ((s.commit changes hint ahead).1.isOk = false ∧ (s.commit changes hint ahead).2 = s) := by
  rcases s.commit_cases changes hint ahead with ⟨e, -, h⟩ | ⟨sorted, draft, e, b, hprep, hwrite, -⟩ |
    ⟨sorted, draft, b, hprep, hwrite, h⟩
  · rw [h]
    exact .inr ⟨rfl, rfl⟩
  · have hok := (prepare_writes hahead hprep).2.1
    rw [hwrite] at hok
    cases hok
  · have hok := (prepare_writes hahead hprep).2.1
    rw [hwrite] at hok
    cases hok
    rw [h]
    exact .inl ⟨rfl, ⟨rfl, rfl⟩⟩

theorem perform_turns (s : Session String) {edits : List Edit} (hedits : edits ≠ []) :
    ((s.perform edits).1.isOk = true ∧ s.Commits (s.perform edits).2) ∨
      ((s.perform edits).1.isOk = false ∧ (s.perform edits).2 = s) := by
  rcases s.perform_cases edits with ⟨hnil, -⟩ | ⟨e, -, h⟩ | ⟨changes, draft, hint, hplan, h⟩
  · exact absurd hnil hedits
  · rw [h]
    exact .inr ⟨rfl, rfl⟩
  · rw [h]
    refine s.commit_turns changes hint (some draft) ?_
    rintro d ⟨⟩
    exact draft_of_plan hplan

theorem drop_turns (s : Session String) (source : NodeId) (target : DropTarget) :
    ((s.drop source target).1.isOk = true ∧ s.Commits (s.drop source target).2) ∨
      ((s.drop source target).1.isOk = false ∧ (s.drop source target).2 = s) := by
  rcases s.drop_cases source target with ⟨e, h⟩ | ⟨text, edits, -, hmove, h⟩
  · rw [h]
    exact .inr ⟨rfl, rfl⟩
  · rw [h]
    refine s.perform_turns ?_
    obtain ⟨n, deletion, insertion, -, -, rfl, -⟩ := Edit.move_eq_ok hmove
    exact List.cons_ne_nil _ _

/-- An operation that is neither undo nor redo is a commit that succeeds or leaves text and history as they
were. -/
theorem act_turns (s : Session String) {a : Action} (hundo : a ≠ .undo) (hredo : a ≠ .redo) :
    (s.commits a = true ∧ s.Commits (s.act a)) ∨ (s.commits a = false ∧ s.Keeps (s.act a)) := by
  cases a with
  | perform edits =>
      by_cases hedits : edits = []
      · subst hedits
        exact .inr ⟨rfl, .refl s⟩
      · have hcommits : s.commits (.perform edits) = (s.perform edits).1.isOk := by simp [commits, hedits]
        rw [hcommits, act]
        rcases s.perform_turns hedits with h | ⟨hok, hs⟩
        · exact .inl h
        · exact .inr ⟨hok, hs.symm ▸ .refl s⟩
  | drop source target =>
      rcases s.drop_turns source target with h | ⟨hok, hs⟩
      · exact .inl h
      · exact .inr ⟨hok, by rw [act, hs]; exact .refl s⟩
  | commit changes hint =>
      rcases s.commit_turns changes hint none (by simp) with h | ⟨hok, hs⟩
      · exact .inl h
      · exact .inr ⟨hok, by rw [act, hs]; exact .refl s⟩
  | undo => exact absurd rfl hundo
  | redo => exact absurd rfl hredo
  | refresh =>
      refine .inr ⟨rfl, ?_⟩
      rcases s.refresh_cases with ⟨e, h⟩ | ⟨roots, -, h⟩
      · simp only [act, h]
        exact .refl s
      · simp only [act, h]
        exact ⟨rfl, rfl, rfl⟩
  | setFocus id =>
      refine .inr ⟨rfl, ?_⟩
      simp only [act, setFocus]
      split <;> exact ⟨rfl, rfl, rfl⟩
  | collapse id =>
      refine .inr ⟨rfl, ?_⟩
      simp only [act, collapse]
      split <;> exact ⟨rfl, rfl, rfl⟩
  | expand id => exact .inr ⟨rfl, ⟨rfl, rfl, rfl⟩⟩

theorem go_of_nil {s : Session String} {way : Way} (h : s.history.side way = []) : s.go way = (.ok false, s) := by
  rcases s.go_cases way with ⟨-, hgo⟩ | ⟨entry, rest, hside, -⟩
  · exact hgo
  · cases h.symm.trans hside

/-- What undo and redo do when the text they lead to can be read. -/
theorem go_restores {s : Session String} (way : Way) {entry : HistoryEntry} {rest : List HistoryEntry}
    (hside : s.history.side way = entry :: rest) {roots : List Node}
    (hread : readDocument (entry.textTo way) = .ok roots) :
    s.go way = (.ok true, { { s with buffer := entry.textTo way }.install (reconcile s.tree roots s.ids).1
      (reconcile s.tree roots s.ids).2 (s.restoredFocus roots (entry.markTo way)) with
      history := s.history.go way }) := by
  have hrestore : s.restore (entry.textTo way) (entry.markTo way) =
      (.ok (), { s with buffer := entry.textTo way }.install (reconcile s.tree roots s.ids).1
        (reconcile s.tree roots s.ids).2 (s.restoredFocus roots (entry.markTo way))) := by
    simp only [restore, hread, overwriteAll_string]
    rfl
  rcases s.go_cases way with ⟨hnone, -⟩ | ⟨entry', rest', hside', ⟨e, s', hfail, -⟩ | ⟨s', hdone, hgo⟩⟩
  · cases hside.symm.trans hnone
  · cases hside.symm.trans hside'
    cases hrestore.symm.trans hfail
  · cases hside.symm.trans hside'
    cases hrestore.symm.trans hdone
    exact hgo

/-! ## The session on its line of texts -/

/-- The texts that undo and redo lead to, around the present one. -/
def texts (s : Session String) : TextZipper :=
  ⟨s.history.undoable.map HistoryEntry.textBefore, s.text, s.history.redoable.map HistoryEntry.textAfter⟩

theorem side_texts (s : Session String) (way : Way) :
    s.texts.side way = (s.history.side way).map (·.textTo way) := by
  cases way <;> rfl

/-- What an operation does to the line of texts. -/
inductive Step where
  | commit (new : String)
  | undo
  | redo
  | stay

/-- The step that an operation takes. -/
def stepOf (s : Session String) : Action → Step
  | .undo => .undo
  | .redo => .redo
  | a => if s.commits a then .commit (s.act a).text else .stay

theorem stepOf_of_ne {s : Session String} {a : Action} (hundo : a ≠ .undo) (hredo : a ≠ .redo) :
    s.stepOf a = if s.commits a then .commit (s.act a).text else .stay := by
  cases a <;> first | rfl | contradiction

end Session

/-- The line of texts after a step. -/
def TextZipper.step (z : TextZipper) (limit : Nat) : Session.Step → TextZipper
  | .commit new => z.commit limit new
  | .undo => z.undo.2
  | .redo => z.redo.2
  | .stay => z

namespace Session

/-- The entries of the history are linked: each begins with the text at which the one before it ends, the
two stacks meet at the present text, and every text in them can be read. -/
structure Linked (s : Session String) : Prop where
  inStep : s.InStep
  links : ∀ way, (s.history.side way).map (·.textTo way.other) = (s.text :: s.texts.side way).dropLast
  readable : ∀ way, ∀ text ∈ s.texts.side way, ∃ roots, readDocument text = .ok roots
  limit : s.history.limit = s.settings.historyLimit
  bounded : 0 < s.settings.historyLimit →
    s.texts.back.length + s.texts.ahead.length ≤ s.settings.historyLimit

theorem InStep.readable {s : Session String} (hs : s.InStep) : ∃ roots, readDocument s.text = .ok roots := by
  obtain ⟨roots, hread, -⟩ := hs.roots
  exact ⟨roots, hread⟩

theorem start_linked {text : String} {settings : Settings} {s : Session String}
    (h : start text settings = .ok s) : s.Linked ∧ s.texts = ⟨[], text, []⟩ ∧ s.settings = settings := by
  have hstep := start_inStep h
  obtain ⟨roots, -, rfl⟩ := started_of_start h
  refine ⟨⟨hstep, ?_, ?_, rfl, by simp [started, texts, History.withLimit]⟩, rfl, rfl⟩
  · rintro (_ | _) <;> rfl
  · rintro (_ | _) text ⟨⟩

theorem Keeps.linked {s s' : Session String} (h : s.Keeps s') (hs : s.Linked) (hstep : s'.InStep) :
    s'.Linked ∧ s'.texts = s.texts := by
  have htexts : s'.texts = s.texts := by rw [texts, texts, h.text, h.history]
  refine ⟨⟨hstep, ?_, ?_, ?_, ?_⟩, htexts⟩
  · rw [htexts, h.history, h.text]
    exact hs.links
  · rw [htexts]
    exact hs.readable
  · rw [h.history, h.settings, hs.limit]
  · rw [htexts, h.settings]
    exact hs.bounded

/-- Recording an entry keeps the latest entries, if there were not too many before. -/
theorem undoable_record {h : History} (hbounded : 0 < h.limit → h.undoable.length ≤ h.limit)
    (entry : HistoryEntry) :
    (h.record entry).undoable = keepLatest h.limit (entry :: h.undoable) := by
  simp only [keepLatest, History.record, Bool.and_eq_true, decide_eq_true_eq]
  by_cases hzero : h.limit = 0
  · simp [hzero]
  · have hlen := hbounded (Nat.pos_of_ne_zero hzero)
    rw [if_neg hzero]
    split
    · rename_i htooMany
      -- There is just one entry too many, so dropping the last one keeps as many as the limit says.
      rw [List.dropLast_eq_take]
      congr 1
      simp only [List.length_cons] at htooMany ⊢
      omega
    · rename_i hfew
      rw [List.take_of_length_le]
      simp only [not_and, not_lt] at hfew
      exact hfew (Nat.pos_of_ne_zero hzero)

theorem Commits.undoable {s s' : Session String} (h : s.Commits s') (hs : s.Linked) :
    s'.history.undoable = keepLatest s.settings.historyLimit (s.entryTo s' :: s.history.undoable) := by
  rw [h.history, undoable_record, hs.limit]
  intro hpos
  have hsum := hs.bounded (hs.limit ▸ hpos)
  simp only [texts, List.length_map] at hsum
  rw [hs.limit]
  omega

theorem Commits.redoable {s s' : Session String} (h : s.Commits s') : s'.history.redoable = [] := by
  rw [h.history]
  rfl

theorem Commits.linked {s s' : Session String} (h : s.Commits s') (hs : s.Linked) (hstep : s'.InStep) :
    s'.Linked ∧ s'.texts = s.texts.commit s.settings.historyLimit s'.text := by
  have hentries := h.undoable hs
  have hredoable := h.redoable
  have hback : s'.texts.back = keepLatest s.settings.historyLimit (s.text :: s.texts.back) := by
    rw [texts, hentries, map_keepLatest]
    rfl
  have htexts : s'.texts = s.texts.commit s.settings.historyLimit s'.text := by
    rw [TextZipper.commit, ← show s.text :: s.texts.back = s.texts.here :: s.texts.back from rfl, ← hback]
    simp [texts, hredoable]
  have hahead : s'.texts.ahead = [] := by rw [htexts]; rfl
  refine ⟨⟨hstep, ?_, ?_, ?_, ?_⟩, htexts⟩
  · rintro (_ | _)
    · show s'.history.undoable.map HistoryEntry.textAfter = (s'.text :: s'.texts.back).dropLast
      have hlinks : s.history.undoable.map HistoryEntry.textAfter = (s.text :: s.texts.back).dropLast :=
        hs.links .back
      rw [hback, dropLast_keepLatest, hentries, map_keepLatest, List.map_cons, hlinks]
      rfl
    · show s'.history.redoable.map HistoryEntry.textBefore = (s'.text :: s'.texts.ahead).dropLast
      rw [hredoable, hahead]
      rfl
  · rintro (_ | _) text htext
    · change text ∈ s'.texts.back at htext
      rw [hback] at htext
      rcases List.mem_cons.1 ((keepLatest_initial _ _).subset htext) with rfl | hold
      · exact hs.inStep.readable
      · exact hs.readable .back text hold
    · change text ∈ s'.texts.ahead at htext
      rw [hahead] at htext
      cases htext
  · rw [h.history, h.settings]
    exact hs.limit
  · intro hpos
    rw [h.settings] at hpos ⊢
    rw [hahead, hback, keepLatest, if_neg (by omega), List.length_nil, Nat.add_zero]
    exact List.length_take_le _ _

/-- The next entry one way begins at the present text, and the others go on from where it ends. -/
theorem Linked.of_side {s : Session String} (hs : s.Linked) {way : Way} {entry : HistoryEntry}
    {rest : List HistoryEntry} (hside : s.history.side way = entry :: rest) :
    entry.textTo way.other = s.text ∧
      rest.map (·.textTo way.other) = (entry.textTo way :: rest.map (·.textTo way)).dropLast := by
  have hlinks := hs.links way
  rwa [side_texts, hside, List.map_cons, List.map_cons, List.dropLast_cons_cons, List.cons.injEq] at hlinks

theorem go_linked {s : Session String} (hs : s.Linked) (way : Way) :
    (s.go way).1 = .ok (s.texts.go way).1 ∧ (s.go way).2.Linked ∧ (s.go way).2.texts = (s.texts.go way).2 := by
  have hstep : (s.go way).2.InStep := s.act_go way ▸ act_inStep hs.inStep (.go way)
  cases hside : s.history.side way with
  | nil =>
      have hnone : s.texts.side way = [] := by rw [side_texts, hside, List.map_nil]
      rw [go_of_nil hside, TextZipper.go_of_nil hnone]
      exact ⟨rfl, hs, rfl⟩
  | cons entry rest =>
      have hnext : s.texts.side way = entry.textTo way :: rest.map (·.textTo way) := by
        rw [side_texts, hside, List.map_cons]
      obtain ⟨roots, hread⟩ := hs.readable way (entry.textTo way) (hnext ▸ List.mem_cons_self)
      obtain ⟨hhere, hrest⟩ := hs.of_side hside
      obtain ⟨hnear, hfar⟩ := History.side_go hside
      obtain ⟨htrue, hthere, hnearTexts, hfarTexts⟩ := TextZipper.go_of_cons hnext
      rw [go_restores way hside hread] at hstep ⊢
      generalize hnew : ({ { s with buffer := entry.textTo way }.install (reconcile s.tree roots s.ids).1
        (reconcile s.tree roots s.ids).2 (s.restoredFocus roots (entry.markTo way)) with
        history := s.history.go way } : Session String) = new at hstep ⊢
      obtain ⟨htext, hhistory, hsettings⟩ : new.text = entry.textTo way ∧ new.history = s.history.go way ∧
          new.settings = s.settings := by
        rw [← hnew]
        exact ⟨rfl, rfl, rfl⟩
      -- What was ahead of the present text is now ahead of the text behind the entry, which is the same.
      have htexts : new.texts = (s.texts.go way).2 := by
        refine TextZipper.ext_side (htext.trans hthere.symm) ((Way.forall_iff way).2 ⟨?_, ?_⟩)
        · rw [side_texts, hhistory, hnear, hnearTexts]
        · rw [side_texts, hhistory, hfar, hfarTexts, side_texts, List.map_cons, hhere]
          rfl
      refine ⟨by rw [htrue], ⟨hstep, (Way.forall_iff way).2 ⟨?_, ?_⟩, (Way.forall_iff way).2 ⟨?_, ?_⟩, ?_, ?_⟩, htexts⟩
      · rw [hhistory, hnear, htext, htexts, hnearTexts]
        exact hrest
      · have hlinks := hs.links way.other
        rw [hhistory, hfar, htext, htexts, hfarTexts, List.dropLast_cons_cons, Way.other_other]
        rw [Way.other_other] at hlinks
        exact congrArg (entry.textTo way :: ·) hlinks
      · rw [htexts, hnearTexts]
        exact fun text htext => hs.readable way text (hnext ▸ List.mem_cons_of_mem _ htext)
      · rw [htexts, hfarTexts]
        intro text htext
        rcases List.mem_cons.1 htext with rfl | htext
        · exact hs.inStep.readable
        · exact hs.readable way.other text htext
      · rw [hhistory, History.limit_go, hsettings]
        exact hs.limit
      · rw [htexts, TextZipper.length_go, hsettings]
        exact hs.bounded

/-- Every operation takes its step along the line of texts. -/
theorem act_linked {s : Session String} (hs : s.Linked) (a : Action) :
    (s.act a).Linked ∧ (s.act a).texts = s.texts.step s.settings.historyLimit (s.stepOf a) := by
  have hstep : (s.act a).InStep := act_inStep hs.inStep a
  by_cases hundo : a = .undo
  · subst hundo
    exact (go_linked hs .back).2
  by_cases hredo : a = .redo
  · subst hredo
    exact (go_linked hs .ahead).2
  rw [stepOf_of_ne hundo hredo]
  rcases s.act_turns hundo hredo with ⟨hcommits, h⟩ | ⟨hcommits, h⟩
  · rw [hcommits, if_pos rfl]
    exact h.linked hs hstep
  · rw [hcommits, if_neg Bool.false_ne_true]
    exact h.linked hs hstep

theorem restore_settings (s : Session String) (text : String) (mark : FocusMark) :
    (s.restore text mark).2.settings = s.settings := by
  rcases s.restore_cases text mark with ⟨e, h⟩ | ⟨e, b, -, h⟩ | ⟨roots, b, -, -, h⟩
  · rw [h]
  · rw [h]
  · rw [h]
    rfl

theorem act_settings (s : Session String) (a : Action) : (s.act a).settings = s.settings := by
  by_cases ha : a = .undo ∨ a = .redo
  · rcases s.act_restores ha with h | ⟨text, mark, history, h⟩
    · rw [h]
    · rw [h]
      exact s.restore_settings text mark
  obtain ⟨hundo, hredo⟩ := not_or.1 ha
  rcases s.act_turns hundo hredo with ⟨-, h⟩ | ⟨-, h⟩
  · exact h.settings
  · exact h.settings

/-- The line of texts after a run of operations, each taking its step. -/
def zipperAfter (s : Session String) (z : TextZipper) : List Action → TextZipper
  | [] => z
  | a :: actions => (s.act a).zipperAfter (z.step s.settings.historyLimit (s.stepOf a)) actions

theorem run_linked {s : Session String} (hs : s.Linked) (actions : List Action) :
    (s.run actions).Linked ∧ (s.run actions).texts = s.zipperAfter s.texts actions ∧
      (s.run actions).settings = s.settings := by
  induction actions generalizing s with
  | nil => exact ⟨hs, rfl, rfl⟩
  | cons a actions ih =>
      obtain ⟨hact, htexts⟩ := act_linked hs a
      obtain ⟨hrun, hzipper, hsettings⟩ := ih hact
      refine ⟨hrun, ?_, hsettings.trans (s.act_settings a)⟩
      rw [zipperAfter, ← htexts]
      exact hzipper

/-- Undo is taken some times. -/
theorem run_undos {s : Session String} (hs : s.Linked) (k : Nat) :
    (s.run (List.replicate k .undo)).Linked ∧
      (s.run (List.replicate k .undo)).texts = s.texts.undos k := by
  induction k with
  | zero => exact ⟨hs, rfl⟩
  | succ k ih =>
      obtain ⟨hk, htexts⟩ := ih
      obtain ⟨-, hlinked, hundo⟩ := go_linked hk .back
      rw [List.replicate_succ', run, List.foldl_append]
      refine ⟨hlinked, ?_⟩
      rw [TextZipper.undos, ← htexts]
      exact hundo

theorem run_redos {s : Session String} (hs : s.Linked) (k : Nat) :
    (s.run (List.replicate k .redo)).texts = s.texts.redos k := by
  induction k generalizing s with
  | zero => rfl
  | succ k ih =>
      obtain ⟨-, hlinked, hredo⟩ := go_linked hs .ahead
      have hnext := ih hlinked
      rw [hredo] at hnext
      exact hnext

/-- A text that was read ahead is the one a commit would read itself. -/
theorem commit_ahead {s : Session String} {changes : List TextChange} {draft : Draft}
    (h : Draft.ofChanges s.text changes = .ok draft) (hint : Option (Tree → FocusHint)) :
    s.commit changes hint (some draft) = s.commit changes hint none := by
  have hprepare : s.prepare changes (some draft) = s.prepare changes none := by
    simp only [prepare, Draft.ofChanges_latestFirst, h]
    rfl
  unfold commit
  rw [hprepare]

/-- A commit succeeds if its text can be read, and puts that text and its tree in place. -/
theorem commits_of_draft {s : Session String} {changes : List TextChange} {draft : Draft}
    (h : Draft.ofChanges s.text changes = .ok draft) (hint : Option (Tree → FocusHint)) :
    s.commits (.commit changes hint) = true ∧ (s.act (.commit changes hint)).text = draft.text ∧
      ((s.act (.commit changes hint)).tree, (s.act (.commit changes hint)).ids) =
        reconcile s.tree draft.roots s.ids := by
  simp only [commits, act, commit_of_draft h hint]
  exact ⟨rfl, rfl, rfl⟩

/-- The history of a session is a line of texts. A session can be started on every text that can be read,
and after every run its text is the one shown on the line; undo and redo never fail, go one step along the
line and say whether there was one; their levels are the texts on either side, together no more than the
limit; and undoing some commits and redoing as many leads back to the same text. -/
theorem run_refines_text_zipper {text : String} {roots : List Node} (hread : readDocument text = .ok roots)
    (settings : Settings) :
    ∃ s, start text settings = .ok s ∧ ∀ actions s' z, s.run actions = s' →
      s.zipperAfter ⟨[], text, []⟩ actions = z →
      s'.text = z.here ∧
      s'.undo.1 = .ok z.undo.1 ∧ s'.undo.2.text = z.undo.2.here ∧
      s'.redo.1 = .ok z.redo.1 ∧ s'.redo.2.text = z.redo.2.here ∧
      s'.history.undoable.length = z.back.length ∧ s'.history.redoable.length = z.ahead.length ∧
      (0 < settings.historyLimit → z.back.length + z.ahead.length ≤ settings.historyLimit) ∧
      (∀ k, (∀ i < k, (s'.run (List.replicate i .undo)).undo.1 = .ok true) →
        (s'.run (List.replicate k .undo ++ List.replicate k .redo)).text = s'.text) ∧
      s'.perform [] = (.ok ⟨s'.focus, []⟩, s') ∧
      ∀ changes hint draft, Draft.ofChanges s'.text changes = .ok draft →
        s'.commit changes hint (some draft) = s'.commit changes hint none := by
  obtain ⟨s, hs⟩ : ∃ s, start text settings = .ok s := ⟨_, start_eq hread settings⟩
  refine ⟨s, hs, ?_⟩
  rintro actions s' z hrun hz
  obtain ⟨hlinked, htexts, hsettings⟩ := start_linked hs
  obtain ⟨hlinked', hz', hsettings'⟩ := run_linked hlinked actions
  rw [htexts, hz, hrun] at hz'
  rw [hrun] at hlinked' hsettings'
  obtain ⟨hundo, -, hundone⟩ := go_linked hlinked' .back
  obtain ⟨hredo, -, hredone⟩ := go_linked hlinked' .ahead
  subst hz'
  refine ⟨rfl, hundo, congrArg TextZipper.here hundone, hredo, congrArg TextZipper.here hredone,
    (List.length_map _).symm, (List.length_map _).symm, ?_, ?_, rfl, fun changes hint draft h => commit_ahead h hint⟩
  · rw [← hsettings, ← hsettings']
    exact hlinked'.bounded
  · intro k hk
    obtain ⟨hback, hbackTexts⟩ := run_undos hlinked' k
    have hall : ∀ i < k, (s'.texts.undos i).undo.1 = true := by
      intro i hi
      obtain ⟨hi', hiTexts⟩ := run_undos hlinked' i
      have hok : (s'.run (List.replicate i .undo)).undo.1 = .ok _ := (go_linked hi' .back).1
      rw [hk i hi, hiTexts] at hok
      exact (Except.ok.inj hok).symm
    have hthere := run_redos hback k
    rw [hbackTexts, TextZipper.redos_undos hall] at hthere
    rw [run, List.foldl_append]
    exact congrArg TextZipper.here hthere

/-- With one level of undo, the text before the last commit is kept and the one before that is not. -/
theorem run_refines_text_zipper_one_level :
    ∃ roots, readDocument "a" = .ok roots ∧ ∃ s, start "a" ⟨80, 1⟩ = .ok s ∧
      ∃ s', s.run [.commit [⟨⟨0, 0⟩, ⟨0, 1⟩, "b"⟩] none, .commit [⟨⟨0, 0⟩, ⟨0, 1⟩, "c"⟩] none] = s' ∧
        s'.text = "c" ∧ s'.undo.1 = .ok true ∧ s'.undo.2.text = "b" ∧
        s'.history.undoable.length = 1 ∧ (s'.run [.undo, .redo]).text = s'.text := by
  obtain ⟨roots, hread⟩ : ∃ roots, readDocument "a" = .ok roots := Except.exists_eq_ok (by decide +kernel)
  obtain ⟨roots₁, hread₁⟩ : ∃ roots, readDocument "b" = .ok roots := Except.exists_eq_ok (by decide +kernel)
  obtain ⟨roots₂, hread₂⟩ : ∃ roots, readDocument "c" = .ok roots := Except.exists_eq_ok (by decide +kernel)
  obtain ⟨s, hs, hrun⟩ := run_refines_text_zipper hread ⟨80, 1⟩
  refine ⟨roots, hread, s, hs, _, rfl, ?_⟩
  obtain ⟨-, htexts, hsettings⟩ := start_linked hs
  have htext : s.text = "a" := congrArg TextZipper.here htexts
  have hdraft₁ : Draft.ofChanges s.text [⟨⟨0, 0⟩, ⟨0, 1⟩, "b"⟩] = .ok ⟨"b", roots₁⟩ := by
    rw [htext]
    exact Draft.ofChanges_eq_ok_iff.2 ⟨by cbv, hread₁⟩
  obtain ⟨hcommits, htext₁, -⟩ := commits_of_draft hdraft₁ none
  have hdraft₂ : Draft.ofChanges (s.act (.commit [⟨⟨0, 0⟩, ⟨0, 1⟩, "b"⟩] none)).text
      [⟨⟨0, 0⟩, ⟨0, 1⟩, "c"⟩] = .ok ⟨"c", roots₂⟩ := by
    rw [htext₁]
    exact Draft.ofChanges_eq_ok_iff.2 ⟨by cbv, hread₂⟩
  obtain ⟨hcommits₁, htext₂, -⟩ := commits_of_draft hdraft₂ none
  have hzipper : s.zipperAfter ⟨[], "a", []⟩ [.commit [⟨⟨0, 0⟩, ⟨0, 1⟩, "b"⟩] none,
      .commit [⟨⟨0, 0⟩, ⟨0, 1⟩, "c"⟩] none] = ⟨["b"], "c", []⟩ := by
    simp only [zipperAfter, stepOf, hcommits, hcommits₁, htext₁, htext₂, act_settings, hsettings, if_true]
    rfl
  obtain ⟨hhere, hundo, hundone, -, -, hlevels, -, -, hback, -⟩ := hrun _ _ _ rfl hzipper
  exact ⟨hhere, hundo, hundone, hlevels, hback 1 fun i hi => by rw [Nat.lt_one_iff.1 hi]; exact hundo⟩

end Session

end TreeEdit
