import TreeEdit.Proofs.Agreement
import TreeEdit.Proofs.Clashes
import TreeEdit.Proofs.Performed

/-!
# The order of a script

All addresses of a script are looked up in the tree as it was before the script ran, so each edit stands for the same
wherever in the script it is (`ScriptEdit.toOption_resolve`), and two orders of a script are two orders of one batch.
They do the same but for edits that clash (`Session.perform_reordered`). For these the order matters: text put into
one gap twice ends up in the reverse order (`Session.textChanges_in_a_gap`).
-/

namespace TreeEdit

open Lexeme

/-! ## A batch in a session -/

namespace Session

variable {β : Type} [TextBuffer β] {s : Session β} {doc : List Lexeme} (ht : Placed s.tree.roots doc)
  (hids : s.tree.Distinct)

include ht hids

theorem plan_reordered {edits edits' : List Edit} (hperm : edits'.Perm edits) (hmade : ∀ e ∈ edits, e.Against s.tree)
    (hkeep : Edit.ClashesInOrder edits edits') {planned : List TextChange × Draft}
    (h : s.plan edits = .ok planned) : s.plan edits' = .ok planned := by
  obtain ⟨changes, hchanges, h⟩ := bind_eq_ok.1 h
  obtain ⟨draft, hdraft, h⟩ := bind_eq_ok.1 h
  cases h
  obtain ⟨happly, -⟩ := Draft.ofChanges_eq_ok_iff.1 hdraft
  obtain ⟨hover, -⟩ := applyChanges_eq_ok_iff.1 happly
  have hlatest : latestFirst changes = changes := by
    obtain ⟨groups, -, h⟩ := bind_eq_ok.1 hchanges
    obtain ⟨printed, -, h⟩ := bind_eq_ok.1 h
    cases h
    exact latestFirst_latestFirst _
  rw [hlatest] at hover
  have hchanges' := textChanges_reordered ht hids hperm hmade hkeep hchanges hover
  exact bind_eq_ok.2 ⟨changes, hchanges', bind_eq_ok.2 ⟨draft, hdraft, rfl⟩⟩

/-- Two orders of a batch are both refused, or do the same. -/
theorem perform_reordered {edits edits' : List Edit} (hperm : edits'.Perm edits)
    (hmade : ∀ e ∈ edits, e.Against s.tree) (hkeep : Edit.ClashesInOrder edits edits') :
    (∃ e e', s.perform edits = (.error e, s) ∧ s.perform edits' = (.error e', s)) ∨
      s.perform edits' = s.perform edits := by
  have hplan : ∀ planned, s.plan edits = .ok planned ↔ s.plan edits' = .ok planned := fun planned =>
    ⟨plan_reordered ht hids hperm hmade hkeep,
      plan_reordered ht hids hperm.symm (fun e he => hmade e (hperm.subset he)) (hkeep.symm hperm)⟩
  -- A single edit is committed with its own focus, so batches of one and of several edits are told apart.
  match edits, edits', hperm with
  | [], _, hperm =>
      obtain rfl := List.perm_nil.1 hperm
      exact .inr rfl
  | [a], _, hperm =>
      obtain rfl := List.perm_singleton.1 hperm
      exact .inr rfl
  | _ :: _ :: _, [], hperm => cases hperm.length_eq
  | _ :: _ :: _, [_], hperm => simp at hperm
  | a :: b :: rest, a' :: b' :: rest', hperm =>
      simp only [perform]
      cases h : s.plan (a :: b :: rest) with
      | ok planned =>
          rw [(hplan planned).1 h]
          exact .inr rfl
      | error e =>
          cases h' : s.plan (a' :: b' :: rest') with
          | ok planned => cases h.symm.trans ((hplan planned).2 h')
          | error e' => exact .inl ⟨e, e', rfl, rfl⟩

end Session

/-! ## Scripts in two orders -/

section Outcome

variable {ε ε' α γ : Type}

theorem Except.toOption_bind (x : Except ε α) (f : α → Except ε γ) :
    (x >>= f).toOption = x.toOption.bind fun a => (f a).toOption := by
  cases x <;> rfl

theorem Except.toOption_mapError (f : ε → ε') (x : Except ε α) : (x.mapError f).toOption = x.toOption := by
  cases x <;> rfl

theorem Except.toOption_map (f : α → γ) (x : Except ε α) : (x.map f).toOption = x.toOption.map f := by
  cases x <;> rfl

end Outcome

theorem Tree.toOption_atAddress (t : Tree) (i j : Nat) (address : String) :
    (t.atAddress i address).toOption = (t.atAddress j address).toOption := by
  simp only [atAddress]
  split <;> rfl

theorem Tree.toOption_parentAt (t : Tree) (i j : Nat) (parent : Option String) :
    (t.parentAt i parent).toOption = (t.parentAt j parent).toOption := by
  cases parent with
  | none => rfl
  | some address => rw [parentAt, parentAt, Except.toOption_map, Except.toOption_map, t.toOption_atAddress i j]

/-- The edits that one edit of a script stands for, wherever in the script it is. -/
def ScriptEdit.meaning? (t : Tree) (text : String) (e : ScriptEdit) : Option (List Edit) :=
  (e.resolve t text 0).toOption

theorem ScriptEdit.toOption_resolve (t : Tree) (text : String) (i : Nat) (e : ScriptEdit) :
    (e.resolve t text i).toOption = e.meaning? t text := by
  unfold meaning?
  cases e <;>
    simp only [resolve, Except.toOption_bind, Except.toOption_mapError, t.toOption_atAddress i 0,
      t.toOption_parentAt i 0]

theorem ScriptEdit.resolve_eq_ok_iff {t : Tree} {text : String} {i : Nat} {e : ScriptEdit} {edits : List Edit} :
    e.resolve t text i = .ok edits ↔ e.meaning? t text = some edits := by
  rw [← Except.toOption_eq_some, toOption_resolve]

/-- A script stands for what its edits stand for, one after the other. -/
theorem Script.resolve_eq_ok_iff {script : Script} {t : Tree} {text : String} {edits : List Edit} :
    script.resolve t text = .ok edits ↔
      (∀ e ∈ script.edits, (e.meaning? t text).isSome) ∧
        edits = script.edits.flatMap fun e => (e.meaning? t text).getD [] := by
  have hall : ∀ (f : ScriptEdit × Nat → Except ScriptError (List Edit)), (∀ e i, f (e, i) = e.resolve t text i) →
      ∀ (es : List ScriptEdit) (k : Nat) (ess : List (List Edit)), (es.zipIdx k).mapM f = .ok ess ↔
        (∀ e ∈ es, (e.meaning? t text).isSome) ∧ ess = es.map fun e => (e.meaning? t text).getD [] := by
    intro f hf es
    induction es with
    | nil =>
        intro k ess
        constructor
        · rintro ⟨⟩
          exact ⟨fun e he => absurd he List.not_mem_nil, rfl⟩
        · rintro ⟨-, rfl⟩
          rfl
    | cons e es ih =>
        intro k ess
        simp only [List.zipIdx_cons, mapM_cons_eq_ok, hf, ScriptEdit.resolve_eq_ok_iff, ih]
        cases he : e.meaning? t text <;> simp [he]
  rw [resolve, bind_eq_ok]
  constructor
  · rintro ⟨ess, hess, hedits⟩
    obtain ⟨hsome, rfl⟩ := (hall _ (by exact fun _ _ => rfl) _ _ _).1 hess
    exact ⟨hsome, (pure_eq_ok.1 hedits).trans List.flatMap_def.symm⟩
  · rintro ⟨hsome, rfl⟩
    exact ⟨_, (hall _ (by exact fun _ _ => rfl) _ _ _).2 ⟨hsome, rfl⟩, pure_eq_ok.2 List.flatMap_def.symm⟩

/-- Two orders of a script are both refused, or stand for the same edits in two orders. -/
theorem Script.resolve_reordered {script script' : Script} (hperm : script'.edits.Perm script.edits) (t : Tree)
    (text : String) :
    (∃ e e', script.resolve t text = .error e ∧ script'.resolve t text = .error e') ∨
      ∃ edits edits', script.resolve t text = .ok edits ∧ script'.resolve t text = .ok edits' ∧ edits'.Perm edits := by
  cases h : script.resolve t text with
  | ok edits =>
      obtain ⟨hsome, rfl⟩ := resolve_eq_ok_iff.1 h
      refine .inr ⟨_, _, rfl, resolve_eq_ok_iff.2 ⟨fun e he => hsome e (hperm.subset he), rfl⟩, ?_⟩
      exact hperm.flatMap_right _
  | error e =>
      cases h' : script'.resolve t text with
      | error e' => exact .inl ⟨e, e', rfl, rfl⟩
      | ok edits' =>
          obtain ⟨hsome, -⟩ := resolve_eq_ok_iff.1 h'
          cases h.symm.trans (resolve_eq_ok_iff.2 ⟨fun e he => hsome e (hperm.mem_iff.2 he), rfl⟩)

/-! ## What a script stands for is made against the tree -/

namespace Edit

theorem against_of_insertRoot {t : Tree} {text : String} {pos : Pos} {e : Edit} (h : insertRoot t text pos = .ok e) :
    e.Against t := by
  unfold insertRoot at h
  split at h
  · cases h
  · cases h
    exact .between rfl (le_refl _) fun _ => if_pos rfl

theorem against_of_insert {t : Tree} {text field : String} {parent : Option NodeId} {pos : Pos} {e : Edit}
    (h : insert t text parent field pos = .ok e) : e.Against t := by
  cases parent with
  | none => exact against_of_insertRoot h
  | some id =>
      obtain ⟨-, m, hm, -, hfits⟩ := insert_eq_ok h
      exact .inside hm hfits

theorem against_of_overwrite {t : Tree} {text : String} {start stop : Pos} {e : Edit}
    (h : overwrite t text start stop = .ok e) : e.Against t := by
  unfold overwrite at h
  split at h
  · cases h
  · rename_i hordered
    simp only at h
    split at h
    · cases h
    · cases h
      exact .between rfl (not_lt.1 hordered) fun heq => if_pos heq

variable {t : Tree} {doc : List Lexeme} (ht : Placed t.roots doc) (hids : t.Distinct)

include ht hids

/-- A node without a parent is a root, and takes up room. -/
theorem root_proper {id : NodeId} {n : Node} (hn : t.find id = .ok n) (hparent : t.parent? id = none) :
    n.range.start < n.range.stop := by
  obtain ⟨hnode, rfl⟩ := find_eq_ok hn
  rcases Tree.Distinct.root_or_child hnode with hroot | ⟨p, hp, hchild⟩
  · exact ht.range_proper hroot (.self n)
  · cases hparent.symm.trans (hids.parent?_of_child hp hchild)

theorem against_of_delete {id : NodeId} {e : Edit} (h : delete t id = .ok e) : e.Against t := by
  by_cases hchild : e.parent?.isSome
  · obtain ⟨-, m, hm, hfits⟩ := delete_eq_ok hids h hchild
    exact .inside hm hfits
  · obtain ⟨n, hn, h⟩ := bind_eq_ok.1 h
    simp only at h
    split at h
    · rename_i hparent
      cases h
      have hproper := root_proper ht hids hn hparent
      exact .between rfl hproper.le fun heq => absurd heq hproper.ne
    · obtain ⟨place, -, h⟩ := bind_eq_ok.1 h
      cases h
      exact absurd rfl hchild

theorem against_of_replace {text : String} {id : NodeId} {e : Edit} (h : replace t text id = .ok e) :
    e.Against t := by
  by_cases hchild : e.parent?.isSome
  · obtain ⟨-, m, hm, hfits⟩ := replace_eq_ok hids h hchild
    exact .inside hm hfits
  · unfold replace at h
    split at h
    · exact against_of_delete ht hids h
    · obtain ⟨n, hn, h⟩ := bind_eq_ok.1 h
      simp only at h
      split at h
      · rename_i hparent
        cases h
        have hproper := root_proper ht hids hn hparent
        exact .between rfl hproper.le fun heq => absurd heq hproper.ne
      · obtain ⟨place, -, h⟩ := bind_eq_ok.1 h
        cases h
        exact absurd rfl hchild

end Edit

section Resolved

variable {t : Tree} {doc : List Lexeme} (ht : Placed t.roots doc) (hids : t.Distinct)

include ht hids

theorem ScriptEdit.against_of_resolve {text : String} {i : Nat} {e : ScriptEdit} {edits : List Edit}
    (h : e.resolve t text i = .ok edits) : ∀ x ∈ edits, x.Against t := by
  have hrefused : ∀ {α : Type} {r : Except EditError α} {a : α},
      r.mapError (ScriptError.refused i) = .ok a → r = .ok a :=
    fun h => by rwa [← Except.toOption_eq_some, Except.toOption_mapError, Except.toOption_eq_some] at h
  cases e with
  | insert parent field index new =>
      obtain ⟨parent, -, h⟩ := bind_eq_ok.1 h
      obtain ⟨x, hx, h⟩ := bind_eq_ok.1 h
      cases h
      obtain ⟨pos, -, hx⟩ := bind_eq_ok.1 (hrefused hx)
      simpa using Edit.against_of_insert hx
  | delete target =>
      obtain ⟨id, -, h⟩ := bind_eq_ok.1 h
      obtain ⟨x, hx, h⟩ := bind_eq_ok.1 h
      cases h
      simpa using Edit.against_of_delete ht hids (hrefused hx)
  | replace target new =>
      obtain ⟨id, -, h⟩ := bind_eq_ok.1 h
      obtain ⟨x, hx, h⟩ := bind_eq_ok.1 h
      cases h
      simpa using Edit.against_of_replace ht hids (hrefused hx)
  | overwrite start stop new =>
      obtain ⟨x, hx, h⟩ := bind_eq_ok.1 h
      cases h
      simpa using Edit.against_of_overwrite (hrefused hx)
  | drop source parent field index =>
      obtain ⟨source, -, h⟩ := bind_eq_ok.1 h
      obtain ⟨parent, -, h⟩ := bind_eq_ok.1 h
      obtain ⟨pos, -, h⟩ := bind_eq_ok.1 h
      obtain ⟨n, deletion, insertion, -, hdeletion, rfl, hinsertion⟩ := Edit.move_eq_ok (hrefused h)
      have hput : insertion.Against t := by
        cases parent with
        | none => exact Edit.against_of_insert hinsertion.2
        | some id => exact Edit.against_of_insert hinsertion.2
      simpa using ⟨Edit.against_of_delete ht hids hdeletion, hput⟩

theorem Script.against_of_resolve {script : Script} {text : String} {edits : List Edit}
    (h : script.resolve t text = .ok edits) : ∀ x ∈ edits, x.Against t := by
  obtain ⟨hsome, rfl⟩ := resolve_eq_ok_iff.1 h
  intro x hx
  obtain ⟨e, he, hx⟩ := List.mem_flatMap.1 hx
  obtain ⟨edits, hedits⟩ := Option.isSome_iff_exists.1 (hsome e he)
  rw [hedits] at hx
  exact e.against_of_resolve ht hids (i := 0) (ScriptEdit.resolve_eq_ok_iff.2 hedits) x hx

end Resolved

/-! ## What a script does -/

namespace Session

/-- A script whose text changes make a text that can be read is carried out. -/
theorem runScript_of_changes {s : Session String} {script : Script} {edits : List Edit}
    (hedits : script.resolve s.tree s.text = .ok edits) (hne : edits ≠ []) {changes : List TextChange}
    (hchanges : textChanges s.tree edits s.settings.prettyWidth = .ok changes) {after : String}
    (happly : applyChanges s.text changes = .ok after) {reread : List Node}
    (hread : readDocument after = .ok reread) :
    ∃ committed s', s.runScript script = (.ok committed, s') ∧ s'.text = after := by
  obtain ⟨committed, s', hperform, htext⟩ := perform_of_changes hne hchanges happly hread
  refine ⟨committed, s', ?_, htext⟩
  simp only [runScript, hedits, hperform, Except.mapError]

/-- Texts for one gap are put in one after the other, the first one first, so they end up in the reverse order. -/
theorem textChanges_in_a_gap (t : Tree) (pos : Pos) (a b : String) (width : Nat) :
    textChanges t [⟨pos, pos, .insertRoot a⟩, ⟨pos, pos, .insertRoot b⟩] width =
      .ok [⟨pos, pos, a⟩, ⟨pos, pos, b⟩] := by
  have hsorted : Edit.latestFirst [⟨pos, pos, .insertRoot a⟩, ⟨pos, pos, .insertRoot b⟩] =
      [⟨pos, pos, .insertRoot a⟩, ⟨pos, pos, .insertRoot b⟩] :=
    List.mergeSort_of_pairwise (List.pairwise_pair.2 (rangeLe_refl _))
  rw [textChanges, hsorted]
  exact congrArg Except.ok (List.mergeSort_of_pairwise (List.pairwise_pair.2 (rangeLe_refl _)))

/-- In a session whose tree has the shape of its text and whose nodes can be told apart, two orders of a script are
both refused, which leaves the session alone, or have the same outcome and leave the same session, unless they
change the order of edits that clash. -/
theorem script_order_matters_for_clashes_only {β : Type} [TextBuffer β] {s : Session β} {read : List Node}
    (hread : readDocument s.text = .ok read)
    (htree : s.tree.roots.map Node.anonymous = read.map Node.anonymous) (hids : s.tree.Distinct)
    {script script' : Script} (hperm : script'.edits.Perm script.edits)
    (hkeep : ∀ edits edits', script.resolve s.tree s.text = .ok edits → script'.resolve s.tree s.text = .ok edits' →
      Edit.ClashesInOrder edits edits') :
    (∃ e e', s.runScript script = (.error e, s) ∧ s.runScript script' = (.error e', s)) ∨
      s.runScript script' = s.runScript script := by
  obtain ⟨doc, -, ht⟩ := readDocument_placed hread htree
  rcases Script.resolve_reordered hperm s.tree s.text with
    ⟨e, e', h, h'⟩ | ⟨edits, edits', h, h', hedits⟩
  · exact .inl ⟨e, e', by rw [runScript, h], by rw [runScript, h']⟩
  · have hmade := Script.against_of_resolve ht hids h
    rcases perform_reordered ht hids hedits hmade (hkeep edits edits' h h') with
      ⟨e, e', hfail, hfail'⟩ | hsame
    · refine .inl ⟨.rejected e, .rejected e', ?_, ?_⟩
      · simp only [runScript, h, hfail, Except.mapError]
      · simp only [runScript, h', hfail', Except.mapError]
    · exact .inr (by simp only [runScript, h, h', hsame])

/-- Text is put into one gap twice and a root is replaced; the second script replaces it first. -/
theorem script_order_matters_for_clashes_only_kept :
    ∃ (s : Session String) (script script' : Script) (edits edits' : List Edit), start "a b" .default = .ok s ∧
      script = ⟨[.insert none none 0 "x ", .insert none none 0 "y ", .overwrite ⟨0, 2⟩ ⟨0, 3⟩ "c"]⟩ ∧
      script' = ⟨[.overwrite ⟨0, 2⟩ ⟨0, 3⟩ "c", .insert none none 0 "x ", .insert none none 0 "y "]⟩ ∧
      script.resolve s.tree s.text = .ok edits ∧ script'.resolve s.tree s.text = .ok edits' ∧
      (∃ e ∈ edits, ∃ e' ∈ edits, e.Clash e') ∧ Edit.ClashesInOrder edits edits' ∧
      ∃ committed s', s.runScript script = (.ok committed, s') ∧ s.runScript script' = (.ok committed, s') ∧
        s'.text = "y x a c" := by
  let script : Script := ⟨[.insert none none 0 "x ", .insert none none 0 "y ", .overwrite ⟨0, 2⟩ ⟨0, 3⟩ "c"]⟩
  let script' : Script := ⟨[.overwrite ⟨0, 2⟩ ⟨0, 3⟩ "c", .insert none none 0 "x ", .insert none none 0 "y "]⟩
  let x : Edit := ⟨⟨0, 0⟩, ⟨0, 0⟩, .insertRoot "x "⟩
  let y : Edit := ⟨⟨0, 0⟩, ⟨0, 0⟩, .insertRoot "y "⟩
  let c : Edit := ⟨⟨0, 2⟩, ⟨0, 3⟩, .overwrite "c"⟩
  obtain ⟨s, hstart, htext, hids, hresolve, hresolve'⟩ :
      ∃ s, start "a b" .default = .ok s ∧ s.text = "a b" ∧
        s.tree.Identified ∧
        (script.resolve s.tree s.text).toOption = some [x, y, c] ∧
        (script'.resolve s.tree s.text).toOption = some [c, x, y] :=
    Except.exists_ok (by decide +kernel)
  have hresolve := Except.toOption_eq_some.1 hresolve
  have hresolve' := Except.toOption_eq_some.1 hresolve'
  obtain ⟨read, hread, htree⟩ := (start_inStep hstart).roots
  have hchanges : textChanges s.tree [x, y, c] s.settings.prettyWidth =
      .ok [⟨⟨0, 2⟩, ⟨0, 3⟩, "c"⟩, ⟨⟨0, 0⟩, ⟨0, 0⟩, "x "⟩, ⟨⟨0, 0⟩, ⟨0, 0⟩, "y "⟩] := by
    have hsorted : Edit.latestFirst [x, y, c] = [c, x, y] := by cbv
    rw [textChanges, hsorted]
    exact congrArg Except.ok (List.mergeSort_of_pairwise (by decide))
  have happly : applyChanges s.text [⟨⟨0, 2⟩, ⟨0, 3⟩, "c"⟩, ⟨⟨0, 0⟩, ⟨0, 0⟩, "x "⟩, ⟨⟨0, 0⟩, ⟨0, 0⟩, "y "⟩] =
      .ok "y x a c" := by
    rw [htext]
    cbv
  obtain ⟨reread, hreread⟩ : ∃ reread, readDocument "y x a c" = .ok reread :=
    Except.exists_eq_ok (by decide +kernel)
  obtain ⟨committed, s', hrun, hs'⟩ := runScript_of_changes hresolve (List.cons_ne_nil _ _) hchanges happly hreread
  have hkeep : Edit.ClashesInOrder [x, y, c] [c, x, y] := by decide
  refine ⟨s, script, script', [x, y, c], [c, x, y], hstart, rfl, rfl, hresolve, hresolve', by decide, hkeep, committed,
    s', hrun, ?_, hs'⟩
  rw [← hrun]
  refine (script_order_matters_for_clashes_only hread htree hids.distinct (by decide) ?_).resolve_left
    ?_
  · rintro edits edits' hedits hedits'
    cases hresolve.symm.trans hedits
    cases hresolve'.symm.trans hedits'
    exact hkeep
  · rintro ⟨e, e', hfails, -⟩
    cases hrun.symm.trans hfails

/-- The order of a script matters: two texts for one gap, in either order. -/
theorem script_order_matters_in_a_gap :
    ∃ s : Session String, start "a" .default = .ok s ∧
      Script.issues ⟨[.insert none none 0 "x ", .insert none none 0 "y "]⟩ = [] ∧
      Script.issues ⟨[.insert none none 0 "y ", .insert none none 0 "x "]⟩ = [] ∧
      (∃ committed s', s.runScript ⟨[.insert none none 0 "x ", .insert none none 0 "y "]⟩ = (.ok committed, s') ∧
        s'.text = "y x a") ∧
      ∃ committed s', s.runScript ⟨[.insert none none 0 "y ", .insert none none 0 "x "]⟩ = (.ok committed, s') ∧
        s'.text = "x y a" := by
  obtain ⟨read, hread⟩ : ∃ read, readDocument "y x a" = .ok read := Except.exists_eq_ok (by decide +kernel)
  obtain ⟨read', hread'⟩ : ∃ read, readDocument "x y a" = .ok read := Except.exists_eq_ok (by decide +kernel)
  obtain ⟨s, hstart, htext, hresolve, hresolve'⟩ :
      ∃ s, start "a" .default = .ok s ∧ s.text = "a" ∧
        (Script.resolve ⟨[.insert none none 0 "x ", .insert none none 0 "y "]⟩ s.tree s.text).toOption =
          some [⟨⟨0, 0⟩, ⟨0, 0⟩, .insertRoot "x "⟩, ⟨⟨0, 0⟩, ⟨0, 0⟩, .insertRoot "y "⟩] ∧
        (Script.resolve ⟨[.insert none none 0 "y ", .insert none none 0 "x "]⟩ s.tree s.text).toOption =
          some [⟨⟨0, 0⟩, ⟨0, 0⟩, .insertRoot "y "⟩, ⟨⟨0, 0⟩, ⟨0, 0⟩, .insertRoot "x "⟩] :=
    Except.exists_ok (by decide +kernel)
  have happly : applyChanges s.text [⟨⟨0, 0⟩, ⟨0, 0⟩, "x "⟩, ⟨⟨0, 0⟩, ⟨0, 0⟩, "y "⟩] = .ok "y x a" := by
    rw [htext]
    cbv
  have happly' : applyChanges s.text [⟨⟨0, 0⟩, ⟨0, 0⟩, "y "⟩, ⟨⟨0, 0⟩, ⟨0, 0⟩, "x "⟩] = .ok "x y a" := by
    rw [htext]
    cbv
  refine ⟨s, hstart, by decide +kernel, by decide +kernel, ?_, ?_⟩
  · exact runScript_of_changes (Except.toOption_eq_some.1 hresolve) (List.cons_ne_nil _ _)
      (textChanges_in_a_gap _ _ _ _ _) happly hread
  · exact runScript_of_changes (Except.toOption_eq_some.1 hresolve') (List.cons_ne_nil _ _)
      (textChanges_in_a_gap _ _ _ _ _) happly' hread'

end Session

end TreeEdit
