import Mathlib
import TreeEdit.Proofs.Lineage
import TreeEdit.Proofs.Zipper

/-!
# Undo and redo bring the focus back

A commit is recorded with the focus on both sides of it, each as an identity and a path. Undo looks the
identity up first, and goes by the path only if the identity is gone. In between the document may have been
read many times over, and each time identities were passed on from node to node. So the question is where an
identity can be when its text comes back.

It can only be where it was. An identity goes from a place to its kin (`Identity.Kin`), which is settled by
the two texts alone, is the same from either side and leads to at most one place; so going back over a
commit undoes what going over it did. `Follows` says this of all entries of one stack at once: it carries
the places of identities from the present text along the entries, from text to text, and asks that at each
mark an identity can only have come to the path marked.
-/

namespace TreeEdit

open Identity

/-! ## Places in texts -/

theorem Node.at?_anonymous (n : Node) (path : Path) :
    n.anonymous.at? path = (n.at? path).map Node.anonymous := by
  refine Node.at?_map (fun n => ?_) n path
  simp only [Node.anonymous_eq n, Node.children, Kind.children_map]

theorem Forest.isSome_at?_of_anonymous {ns ns' : List Node} (h : ns.map Node.anonymous = ns'.map Node.anonymous)
    (path : Path) : (at? ns path).isSome = (at? ns' path).isSome := by
  have hmap : ∀ ns : List Node, at? (ns.map Node.anonymous) path = (at? ns path).map Node.anonymous := by
    intro ns
    cases path with
    | nil => rfl
    | cons i path =>
        rw [at?_cons, at?_cons, List.getElem?_map]
        cases ns[i]? with
        | none => rfl
        | some n => exact n.at?_anonymous path
  rw [← Option.isSome_map (f := Node.anonymous), ← hmap, h, hmap, Option.isSome_map]

/-- The path leads to a node of the text. -/
def Leads (text : String) (path : Path) : Prop :=
  ∃ roots, readDocument text = .ok roots ∧ (Forest.at? roots path).isSome

/-- What is read in the second text at one path continues what is read in the first at the other. -/
def Akin (text text' : String) (p q : Path) : Prop :=
  ∃ roots roots', readDocument text = .ok roots ∧ readDocument text' = .ok roots' ∧ Kin roots roots' p q

theorem Akin.symm {text text' : String} {p q : Path} (h : Akin text text' p q) : Akin text' text q p := by
  obtain ⟨roots, roots', hread, hread', hkin⟩ := h
  exact ⟨roots', roots, hread', hread, hkin.symm⟩

theorem Akin.unique {text text' : String} {p p' q : Path} (h : Akin text text' p q)
    (h' : Akin text text' p' q) : p = p' := by
  obtain ⟨old, new, hold, hnew, hkin⟩ := h
  obtain ⟨old', new', hold', hnew', hkin'⟩ := h'
  obtain rfl := Except.ok.inj (hold.symm.trans hold')
  obtain rfl := Except.ok.inj (hnew.symm.trans hnew')
  exact hkin.unique hkin'

theorem Akin.self {text : String} {p : Path} (h : Leads text p) : Akin text text p p := by
  obtain ⟨roots, hread, hp⟩ := h
  refine ⟨roots, roots, hread, hread, ?_⟩
  cases p with
  | nil => cases hp
  | cons i p =>
      obtain ⟨n, hn⟩ := Option.isSome_iff_exists.1 hp
      obtain ⟨root, hroot, -⟩ := Option.bind_eq_some_iff.1 hn
      exact .self_of_same hroot p

/-- Where identities are. -/
abbrev Places := NodeId → Path → Prop

/-- Where the identities are in a tree. -/
def Tree.places (t : Tree) : Places := fun id path => ∃ n, t.at? path = some n ∧ n.id = id

/-- Where identities can be in another text, given where they are in this one. -/
def Places.carried (places : Places) (here there : String) : Places :=
  fun id p => ∃ q, places id q ∧ Akin there here p q

theorem Tree.places_unique {t : Tree} (h : t.ids.Nodup) {id : NodeId} {p q : Path} (hp : t.places id p)
    (hq : t.places id q) : p = q := by
  obtain ⟨n, hn, rfl⟩ := hp
  obtain ⟨m, hm, hid⟩ := hq
  exact path_unique_of_nodup h hn hm hid.symm

/-! ## Marks along a line of texts -/

/-- The mark points into the text: its path leads to a node there, its identity was handed out already, and
if the identity is anywhere it is at the path. -/
def FocusMark.Holds (m : FocusMark) (bound : Nat) (places : Places) (text : String) : Prop :=
  ∀ p, m.path = some p → Leads text p ∧
    ∃ id, m.id = some id ∧ id.val.toNat < bound ∧ ∀ q, places id q → q = p

/-- The second places are among the first, for the identities that were handed out already. -/
def Places.Within (places places' : Places) (bound : Nat) : Prop :=
  ∀ id path, id.val.toNat < bound → places' id path → places id path

theorem Places.Within.carried {places places' : Places} {bound : Nat} (h : places.Within places' bound)
    (here there : String) : (places.carried here there).Within (places'.carried here there) bound := by
  rintro id p hid ⟨q, hq, hkin⟩
  exact ⟨q, h id q hid hq, hkin⟩

theorem FocusMark.Holds.mono {m : FocusMark} {bound bound' : Nat} {places places' : Places} {text : String}
    (h : m.Holds bound places text) (hbound : bound ≤ bound') (hwithin : places.Within places' bound) :
    m.Holds bound' places' text := by
  intro p hp
  obtain ⟨hleads, id, hid, hlt, hat⟩ := h p hp
  exact ⟨hleads, id, hid, hlt.trans_le hbound, fun q hq => hat q (hwithin id q hlt hq)⟩

/-- An entry of the history, seen from one side: the mark on this side, the one on the far side and the text
there. -/
structure Crossing where
  near : FocusMark
  far : FocusMark
  farText : String

/-- An entry as it is seen from one side. -/
def HistoryEntry.crossing (e : HistoryEntry) (way : Way) : Crossing :=
  ⟨e.markTo way.other, e.markTo way, e.textTo way⟩

/-- All marks hold when the places of identities are carried along the entries, from text to text. -/
def Follows (bound : Nat) : Places → String → List Crossing → Prop
  | _, _, [] => True
  | places, here, c :: rest =>
    c.near.Holds bound places here ∧ c.far.Holds bound (places.carried here c.farText) c.farText ∧
      Follows bound (places.carried here c.farText) c.farText rest

theorem Follows.mono {bound bound' : Nat} {places places' : Places} {here : String} {cs : List Crossing}
    (h : Follows bound places here cs) (hbound : bound ≤ bound') (hwithin : places.Within places' bound) :
    Follows bound' places' here cs := by
  induction cs generalizing places places' here with
  | nil => trivial
  | cons c rest ih =>
      obtain ⟨hnear, hfar, hrest⟩ := h
      have hcarried := hwithin.carried here c.farText
      exact ⟨hnear.mono hbound hwithin, hfar.mono hbound hcarried, ih hrest hcarried⟩

/-- Forgetting the oldest entries does no harm. -/
theorem Follows.of_initial {bound : Nat} {places : Places} {here : String} {cs cs' : List Crossing}
    (h : Follows bound places here cs) (hinit : cs' <+: cs) : Follows bound places here cs' := by
  induction cs' generalizing places here cs with
  | nil => trivial
  | cons c' rest' ih =>
      cases cs with
      | nil => exact absurd (List.prefix_nil.1 hinit) (List.cons_ne_nil _ _)
      | cons c rest =>
          obtain ⟨rfl, hrest'⟩ := List.cons_prefix_cons.1 hinit
          obtain ⟨hnear, hfar, hrest⟩ := h
          exact ⟨hnear, hfar, ih hrest hrest'⟩

/-- Crossing an entry turns it round and leaves all marks holding, if identities are on the far side only
where they can be carried to, and carried back only where they were. -/
theorem Follows.cross {bound bound' : Nat} {places places' : Places} {here : String} {near far : FocusMark}
    {farText : String} {rest others : List Crossing}
    (h : Follows bound places here (⟨near, far, farText⟩ :: rest)) (hothers : Follows bound places here others)
    (hbound : bound ≤ bound') (hgo : (places.carried here farText).Within places' bound)
    (hreturn : places.Within (places'.carried farText here) bound) :
    Follows bound' places' farText rest ∧ Follows bound' places' farText (⟨far, near, here⟩ :: others) := by
  obtain ⟨hnear, hfar, hrest⟩ := h
  exact ⟨hrest.mono hbound hgo, hfar.mono hbound hgo, hnear.mono hbound hreturn, hothers.mono hbound hreturn⟩

/-! ## Where identities go when a document is read again -/

theorem Tree.Numbered.ids_nodup {t : Tree} {ids : IdSource} (h : t.Numbered ids) : t.ids.Nodup :=
  (t.identities_perm.nodup_iff.2 h.nodup).of_append_left

theorem Tree.Numbered.suffices {t : Tree} {ids : IdSource} (h : t.Numbered ids) {roots : List Node}
    (hfew : ids.next.toNat + (Forest.allIds roots).length < 2 ^ 64) : ids.Suffices t roots := by
  refine ⟨hfew, fun id hid => ?_⟩
  have hlt := h.lt id (mem_identities.1 hid)
  omega

theorem places_carried_of_kin {t t' : Tree} {text text' : String} (ht : t.Shows text) (ht' : t'.Shows text')
    {id : NodeId} {p q : Path} (hp : t.places id p) (hkin : Kin t.roots t'.roots p q) :
    t.places.carried text text' id q := by
  obtain ⟨roots, hread, hsame⟩ := ht
  obtain ⟨roots', hread', hsame'⟩ := ht'
  exact ⟨p, hp, roots', roots, hread', hread, (hkin.of_anonymous hsame hsame').symm⟩

namespace Session

theorem InStep.shows {s : Session String} (h : s.InStep) : s.tree.Shows s.text := h.roots

/-- From one session to the next, an identity that was handed out before goes from a place to its kin, if it
is still there. -/
theorem Reads.within {s s' : Session String} {docs : List (List Node)} (h : s.Reads s' docs)
    (hs : s.tree.Shows s.text) (hs' : s'.tree.Shows s'.text) (hnum : s.tree.Numbered s.ids)
    (hfew : s.ids.next.toNat + handedOut docs < 2 ^ 64) :
    (s.tree.places.carried s.text s'.text).Within s'.tree.places s.ids.next.toNat := by
  rintro id q hid ⟨n, hn, rfl⟩
  rcases h with ⟨-, htree, -⟩ | ⟨text, roots, -, rfl, hrec⟩
  · rw [htree] at hn
    refine places_carried_of_kin hs hs' ⟨n, hn, rfl⟩ ?_
    rw [htree]
    cases q with
    | nil => cases hn
    | cons i q =>
        obtain ⟨r, hr, -⟩ := Option.bind_eq_some_iff.1 hn
        exact .self_of_same hr q
  · have hfew : s.ids.next.toNat + (Forest.allIds roots).length < 2 ^ 64 := by
      simpa [handedOut] using hfew
    have htree : s'.tree = (reconcile s.tree roots s.ids).1 := congrArg Prod.fst hrec
    rw [htree] at hn
    -- The identity is too small to be fresh, so it is one of the tree before.
    have hold : n.id ∈ Forest.allIds s.tree.roots := by
      rcases (reconcile_numbered hnum roots hfew).2.2 n.id (Forest.id_mem_allIds hn) with hold | hnew
      · exact hold
      · omega
    have hfresh : n.id ∉ Forest.allIds (freshRoots s.tree roots s.ids) :=
      fun hfresh => freshRoots_new (hnum.suffices hfew) n.id hfresh hold
    obtain ⟨p, o, ho, hsame, hkin, -⟩ := reconcile_lineage hn hfresh
    refine places_carried_of_kin hs hs' ⟨o, ho, hsame.symm⟩ ?_
    rw [htree]
    exact hkin.of_anonymous rfl (reconcile_anonymous s.tree roots s.ids).symm

/-- Carried back to the session before, an identity comes to where it was. -/
theorem Reads.within_return {s s' : Session String} {docs : List (List Node)} (h : s.Reads s' docs)
    (hs : s.tree.Shows s.text) (hs' : s'.tree.Shows s'.text) (hnum : s.tree.Numbered s.ids)
    (hfew : s.ids.next.toNat + handedOut docs < 2 ^ 64) :
    s.tree.places.Within (s'.tree.places.carried s'.text s.text) s.ids.next.toNat := by
  rintro id p hid ⟨q, hq, hkin⟩
  obtain ⟨p', hp', hkin'⟩ := h.within hs hs' hnum hfew id q hid hq
  rwa [hkin.unique hkin'.symm]

theorem Reads.numbered {s s' : Session String} {docs : List (List Node)} (h : s.Reads s' docs)
    (hnum : s.tree.Numbered s.ids) (hfew : s.ids.next.toNat + handedOut docs < 2 ^ 64) :
    s'.tree.Numbered s'.ids ∧ s'.ids.next.toNat = s.ids.next.toNat + handedOut docs :=
  h.takesIn.numbered hnum hfew

/-! ## Sessions -/

/-- The history can be followed both ways from the present tree. -/
structure Traced (s : Session String) : Prop where
  linked : s.Linked
  numbered : s.tree.Numbered s.ids
  follows : ∀ way, Follows s.ids.next.toNat s.tree.places s.text ((s.history.side way).map (·.crossing way))

theorem InStep.leads {s : Session String} (hs : s.InStep) {p : Path} {n : Node} (hn : s.tree.at? p = some n) :
    Leads s.text p := by
  obtain ⟨roots, hread, hsame⟩ := hs.roots
  refine ⟨roots, hread, ?_⟩
  rw [← Forest.isSome_at?_of_anonymous hsame]
  exact Option.isSome_of_eq_some hn

/-- The present focus is where it is marked. -/
theorem focus_holds {s : Session String} (hs : s.InStep) (hnum : s.tree.Numbered s.ids) :
    (FocusMark.ofFocus s.tree s.focus).Holds s.ids.next.toNat s.tree.places s.text := by
  intro p hp
  obtain ⟨id, hid, hpath⟩ := Option.bind_eq_some_iff.1 hp
  obtain ⟨n, hn, rfl⟩ := Tree.at?_of_pathOf? hpath
  refine ⟨hs.leads hn, n.id, hid, hnum.lt n.id (Forest.id_mem_allIds hn), fun q hq => ?_⟩
  exact Tree.places_unique hnum.ids_nodup hq ⟨n, hn, rfl⟩

section Step

variable {s s' : Session String} {docs : List (List Node)}

theorem Keeps.traced (h : s.Keeps s') (hs : s.Traced) (hs' : s'.InStep) (hreads : s.Reads s' docs)
    (hfew : s.ids.next.toNat + handedOut docs < 2 ^ 64) : s'.Traced := by
  obtain ⟨hnum, hnext⟩ := hreads.numbered hs.numbered hfew
  have hgo := hreads.within hs.linked.inStep.shows hs'.shows hs.numbered hfew
  have hwithin : s.tree.places.Within s'.tree.places s.ids.next.toNat := by
    intro id q hid hq
    obtain ⟨p, ⟨n, hn, hnid⟩, hkin⟩ := hgo id q hid hq
    rw [h.text] at hkin
    obtain rfl := hkin.unique (.self (hs.linked.inStep.leads hn))
    exact ⟨n, hn, hnid⟩
  refine ⟨(h.linked hs.linked hs').1, hnum, fun way => ?_⟩
  rw [h.text, h.history]
  exact (hs.follows way).mono (by omega) hwithin

theorem Commits.traced (h : s.Commits s') (hs : s.Traced) (hs' : s'.InStep) (hreads : s.Reads s' docs)
    (hfew : s.ids.next.toNat + handedOut docs < 2 ^ 64) : s'.Traced := by
  obtain ⟨hnum, hnext⟩ := hreads.numbered hs.numbered hfew
  have hreturn := hreads.within_return hs.linked.inStep.shows hs'.shows hs.numbered hfew
  have hold := focus_holds hs.linked.inStep hs.numbered
  refine ⟨(h.linked hs.linked hs').1, hnum, ?_⟩
  rintro (_ | _)
  · have hall : Follows s'.ids.next.toNat s'.tree.places s'.text
        ((s.entryTo s' :: s.history.undoable).map (·.crossing .back)) :=
      ⟨focus_holds hs' hnum, hold.mono (by omega) hreturn, (hs.follows .back).mono (by omega) hreturn⟩
    rw [History.side, h.undoable hs.linked, map_keepLatest]
    exact hall.of_initial (keepLatest_initial _ _)
  · rw [History.side, h.redoable]
    trivial

theorem go_traced (hs : s.Traced) (way : Way) (hreads : s.Reads (s.go way).2 docs)
    (hfew : s.ids.next.toNat + handedOut docs < 2 ^ 64) : (s.go way).2.Traced := by
  obtain ⟨-, hlinked, -⟩ := go_linked hs.linked way
  cases hside : s.history.side way with
  | nil =>
      rw [go_of_nil hside]
      exact hs
  | cons entry rest =>
      obtain ⟨roots, hread⟩ := hs.linked.readable way (entry.textTo way) (by simp [side_texts, hside])
      obtain ⟨hnum, hnext⟩ := hreads.numbered hs.numbered hfew
      have hgo := hreads.within hs.linked.inStep.shows hlinked.inStep.shows hs.numbered hfew
      have hreturn := hreads.within_return hs.linked.inStep.shows hlinked.inStep.shows hs.numbered hfew
      have hfollows := hs.follows way
      rw [hside] at hfollows
      rw [go_restores way hside hread] at hlinked hnum hnext hgo hreturn ⊢
      obtain ⟨hrest, hcrossed⟩ := hfollows.cross (hs.follows way.other) (Nat.le.intro hnext.symm) hgo hreturn
      rw [← (hs.linked.of_side hside).1] at hcrossed
      obtain ⟨hnear, hfar⟩ := History.side_go hside
      refine ⟨hlinked, hnum, (Way.forall_iff way).2 ⟨?_, ?_⟩⟩
      · show Follows _ _ _ (((s.history.go way).side way).map _)
        rw [hnear]
        exact hrest
      · show Follows _ _ _ (((s.history.go way).side way.other).map _)
        rw [hfar, List.map_cons, HistoryEntry.crossing, Way.other_other]
        exact hcrossed

end Step

theorem act_traced {s : Session String} (hs : s.Traced) {a : Action} {docs : List (List Node)}
    (hreads : s.Reads (s.act a) docs) (hfew : s.ids.next.toNat + handedOut docs < 2 ^ 64) :
    (s.act a).Traced ∧ (s.act a).ids.next.toNat = s.ids.next.toNat + handedOut docs := by
  refine ⟨?_, (hreads.numbered hs.numbered hfew).2⟩
  have hstep : (s.act a).InStep := act_inStep hs.linked.inStep a
  by_cases hundo : a = .undo
  · subst hundo
    exact go_traced hs .back hreads hfew
  by_cases hredo : a = .redo
  · subst hredo
    exact go_traced hs .ahead hreads hfew
  rcases s.act_turns hundo hredo with ⟨-, h⟩ | ⟨-, h⟩
  · exact h.traced hs hstep hreads hfew
  · exact h.traced hs hstep hreads hfew

theorem run_traced {s : Session String} (hs : s.Traced) {actions : List Action} {docs : List (List Node)}
    (hreads : s.ReadsAll (actions.map .act) docs) (hfew : s.ids.next.toNat + handedOut docs < 2 ^ 64) :
    (s.run actions).Traced ∧ (s.run actions).ids.next.toNat = s.ids.next.toNat + handedOut docs := by
  induction actions generalizing s docs with
  | nil =>
      cases hreads
      exact ⟨hs, rfl⟩
  | cons a actions ih =>
      obtain ⟨first, more, rfl, hfirst, hmore⟩ := hreads
      have hsum : handedOut (first ++ more) = handedOut first + handedOut more := by simp [handedOut]
      rw [hsum] at hfew ⊢
      obtain ⟨hact, hnext⟩ := act_traced hs hfirst (by omega)
      obtain ⟨hrun, hend⟩ := ih hact hmore (by rw [hnext]; omega)
      exact ⟨hrun, by rw [run, List.foldl_cons, ← run, hend, hnext, Nat.add_assoc]⟩

/-- Where no texts lie around the present one, the history is empty. -/
theorem side_eq_nil {s : Session String} {text : String} (h : s.texts = ⟨[], text, []⟩) (way : Way) :
    s.history.side way = [] := by
  have hside : (s.history.side way).map (·.textTo way) = [] := by
    rw [← side_texts, h]
    cases way <;> rfl
  exact List.map_eq_nil_iff.1 hside

theorem start_traced {text : String} {settings : Settings} {s : Session String} {roots : List Node}
    (h : start text settings = .ok s) (hread : readDocument text = .ok roots)
    (hfew : handedOut [roots] < 2 ^ 64 - 1) : s.Traced ∧ s.ids.next.toNat = handedOut [roots] + 1 := by
  obtain ⟨hlinked, htexts, -⟩ := start_linked h
  obtain ⟨hnum, hnext⟩ := start_numbered h hread hfew
  refine ⟨⟨hlinked, hnum, fun way => ?_⟩, hnext⟩
  rw [side_eq_nil htexts way]
  trivial

end Session

/-! ## The places of the focus -/

/-- The places of the focus on both sides of a commit. -/
structure FocusShift where
  before : Option Path
  after : Option Path

/-- The commits that can be undone and redone, as far as the focus is concerned; the next one first. -/
structure FocusLedger where
  done : List FocusShift
  undone : List FocusShift

/-- The place that undo or redo puts the focus back to. -/
def FocusShift.placeTo (shift : FocusShift) : Way → Option Path
  | .back => shift.before
  | .ahead => shift.after

namespace FocusLedger

/-- The latest commit is taken back. -/
def undo (l : FocusLedger) : FocusLedger :=
  match l.done with
  | [] => l
  | shift :: done => ⟨done, shift :: l.undone⟩

/-- The commit that was taken back last is done again. -/
def redo (l : FocusLedger) : FocusLedger :=
  match l.undone with
  | [] => l
  | shift :: undone => ⟨shift :: l.done, undone⟩

/-- The commits that lie one way. -/
def side (l : FocusLedger) : Way → List FocusShift
  | .back => l.done
  | .ahead => l.undone

/-- The next commit one way is taken. -/
def go (l : FocusLedger) : Way → FocusLedger
  | .back => l.undo
  | .ahead => l.redo

/-- The ledger after a step. A commit comes with the places of the focus on both sides of it. -/
def step (l : FocusLedger) (limit : Nat) (shift : FocusShift) : Session.Step → FocusLedger
  | .commit _ => ⟨keepLatest limit (shift :: l.done), []⟩
  | .undo => l.undo
  | .redo => l.redo
  | .stay => l

end FocusLedger

namespace Session

/-- The place of the focus. -/
def focusPath (s : Session String) : Option Path := s.focus.bind s.tree.pathOf?

/-- The ledger after a run of operations. -/
def ledgerAfter (s : Session String) (l : FocusLedger) : List Action → FocusLedger
  | [] => l
  | a :: actions => (s.act a).ledgerAfter
      (l.step s.settings.historyLimit ⟨s.focusPath, (s.act a).focusPath⟩ (s.stepOf a)) actions

/-- A collapsed node is at the path. -/
def CollapsedAt (s : Session String) (path : Path) : Prop :=
  ∃ a, s.tree.at? path = some a ∧ a.id ∈ s.collapsed

/-- The focus is the node at a path, or the outermost node above it that is collapsed. -/
def FocusesOn (s : Session String) (p : Path) : Prop :=
  ∃ n, s.tree.at? p = some n ∧
    ((s.focus = some n.id ∧ ∀ k < p.length, ¬ s.CollapsedAt (p.take k)) ∨
      ∃ k < p.length, ∃ a, s.tree.at? (p.take k) = some a ∧ s.focus = some a.id ∧ a.id ∈ s.collapsed ∧
        ∀ j < k, ¬ s.CollapsedAt (p.take j))

end Session

/-- The focus marked in an entry. -/
def HistoryEntry.shift (e : HistoryEntry) : FocusShift := ⟨e.oldFocus.path, e.newFocus.path⟩

namespace Session

/-- The foci marked in the history. -/
def ledger (s : Session String) : FocusLedger :=
  ⟨s.history.undoable.map HistoryEntry.shift, s.history.redoable.map HistoryEntry.shift⟩

theorem side_ledger (s : Session String) (way : Way) :
    s.ledger.side way = (s.history.side way).map HistoryEntry.shift := by
  cases way <;> rfl

theorem go_ledger {s : Session String} (hs : s.Linked) (way : Way) : (s.go way).2.ledger = s.ledger.go way := by
  cases hside : s.history.side way with
  | nil =>
      rw [go_of_nil hside]
      cases way <;> simp_all [History.side, ledger, FocusLedger.go, FocusLedger.undo, FocusLedger.redo]
  | cons entry rest =>
      obtain ⟨roots, hread⟩ := hs.readable way (entry.textTo way) (by simp [side_texts, hside])
      rw [go_restores way hside hread]
      cases way <;> simp_all [History.side, History.go, History.undo, History.redo, ledger, FocusLedger.go,
        FocusLedger.undo, FocusLedger.redo]

theorem act_ledger {s : Session String} (hs : s.Linked) (a : Action) :
    (s.act a).ledger =
      s.ledger.step s.settings.historyLimit ⟨s.focusPath, (s.act a).focusPath⟩ (s.stepOf a) := by
  by_cases hundo : a = .undo
  · subst hundo
    exact go_ledger hs .back
  by_cases hredo : a = .redo
  · subst hredo
    exact go_ledger hs .ahead
  rw [stepOf_of_ne hundo hredo]
  rcases s.act_turns hundo hredo with ⟨hcommits, h⟩ | ⟨hcommits, h⟩
  · rw [hcommits, if_pos rfl, ledger, h.undoable hs, h.redoable, map_keepLatest]
    rfl
  · rw [hcommits, if_neg Bool.false_ne_true, ledger, h.history]
    rfl

theorem run_ledger {s : Session String} (hs : s.Linked) (actions : List Action) :
    (s.run actions).ledger = s.ledgerAfter s.ledger actions := by
  induction actions generalizing s with
  | nil => rfl
  | cons a actions ih =>
      rw [ledgerAfter, ← act_ledger hs a]
      exact ih (act_linked hs a).1

end Session

/-- A focus moved out of collapsed nodes is the node itself or the outermost collapsed one above it. -/
theorem Focus.visible_cases {t : Tree} (h : t.ids.Nodup) {p : Path} {n : Node} (hn : t.at? p = some n)
    (collapsed : List NodeId) :
    (visible t n.id collapsed = n.id ∧ ∀ k < p.length, ∀ a, t.at? (p.take k) = some a → a.id ∉ collapsed) ∨
      ∃ k < p.length, ∃ a, t.at? (p.take k) = some a ∧ visible t n.id collapsed = a.id ∧ a.id ∈ collapsed ∧
        ∀ j < k, ∀ b, t.at? (p.take j) = some b → b.id ∉ collapsed := by
  have hpath := Tree.pathOf?_of_nodup h hn
  simp only [visible, Tree.ancestors, hpath, List.find?_filterMap]
  cases hfind : (List.range p.length).find? fun k =>
      (t.at? (p.take k)).any fun a => collapsed.contains a.id with
  | none =>
      left
      refine ⟨rfl, fun k hk a ha hcollapsed => ?_⟩
      have hnot := List.find?_eq_none.1 hfind k (List.mem_range.2 hk)
      simp [ha, hcollapsed] at hnot
  | some k =>
      right
      obtain ⟨hk, hlt, hfirst⟩ := List.find?_range_eq_some.1 hfind
      obtain ⟨a, ha, hcollapsed⟩ := (Option.any_eq_true _ _).1 hk
      refine ⟨k, List.mem_range.1 hlt, a, ha, by simp [ha], by simpa using hcollapsed, ?_⟩
      intro j hj b hb hmem
      have hnot := hfirst j hj
      simp [hb, hmem] at hnot

/-- A mark that holds leads to the node at its path. -/
theorem FocusMark.Holds.resolve_eq {m : FocusMark} {bound : Nat} {t : Tree} {text : String} {p : Path}
    (h : m.Holds bound t.places text) (ht : t.Shows text) (hp : m.path = some p) :
    ∃ n, t.at? p = some n ∧ m.resolve t = some n.id := by
  obtain ⟨⟨roots, hread, hleads⟩, id, hid, -, hat⟩ := h p hp
  obtain ⟨roots', hread', hsame⟩ := ht
  obtain rfl := Except.ok.inj (hread.symm.trans hread')
  rw [← Forest.isSome_at?_of_anonymous hsame] at hleads
  obtain ⟨n, hn⟩ := Option.isSome_iff_exists.1 hleads
  refine ⟨n, hn, ?_⟩
  rw [resolve, hid, hp]
  by_cases hcontains : t.contains id = true
  · -- The identity is still there, so it is at the path.
    obtain ⟨m, hm, rfl⟩ := List.mem_map.1 (Tree.contains_iff.1 hcontains)
    obtain ⟨q, hq⟩ := Forest.mem_nodes_iff.1 hm
    obtain rfl := hat q ⟨m, hq, rfl⟩
    obtain rfl := Option.some.inj (hn.symm.trans hq)
    simp [Option.filter, hcontains]
  · have hgone : Tree.at? t p = some n := hn
    simp [Option.filter, hcontains, hgone]

namespace Session

/-- A focus moved out of collapsed nodes from the node at a path is on the path. -/
theorem focusesOn_of_visible {s : Session String} (hnodup : s.tree.ids.Nodup) {collapsed : List NodeId}
    (hcollapsed : s.collapsed = collapsed.filter s.tree.contains) {p : Path} {n : Node} (hn : s.tree.at? p = some n)
    (hshown : s.focus = some (Focus.visible s.tree n.id collapsed)) : s.FocusesOn p := by
  have hmem : ∀ {k a}, s.tree.at? (p.take k) = some a → (a.id ∈ s.collapsed ↔ a.id ∈ collapsed) := by
    intro k a ha
    rw [hcollapsed, List.mem_filter]
    exact and_iff_left (Tree.contains_iff.2 (Tree.id_mem_ids ha))
  have hfree : ∀ {k}, (∀ a, s.tree.at? (p.take k) = some a → a.id ∉ collapsed) → ¬ s.CollapsedAt (p.take k) := by
    rintro k hnone ⟨a, ha, hin⟩
    exact hnone a ha ((hmem ha).1 hin)
  refine ⟨n, hn, ?_⟩
  rcases Focus.visible_cases hnodup hn collapsed with ⟨hvisible, hnone⟩ | ⟨k, hk, a, ha, hvisible, hin, hnone⟩
  · left
    exact ⟨by rw [hshown, hvisible], fun k hk => hfree (hnone k hk)⟩
  · right
    exact ⟨k, hk, a, ha, by rw [hshown, hvisible], (hmem ha).2 hin, fun j hj => hfree (hnone j hj)⟩

/-- A text put in place with a mark that holds there has its focus at the path of the mark. -/
theorem restored_focusesOn {s s' : Session String} {roots : List Node} {mark : FocusMark} {p : Path}
    (htree : s'.tree = (reconcile s.tree roots s.ids).1) (hfocus : s'.focus = s.restoredFocus roots mark)
    (hcollapsed : s'.collapsed = s.collapsed.filter s'.tree.contains) (hs' : s'.Traced)
    (hmark : mark.Holds s'.ids.next.toNat s'.tree.places s'.text) (hp : mark.path = some p) : s'.FocusesOn p := by
  obtain ⟨n, hn, hresolve⟩ := hmark.resolve_eq hs'.linked.inStep.shows hp
  refine focusesOn_of_visible hs'.numbered.ids_nodup hcollapsed hn ?_
  rw [hfocus, restoredFocus, ← htree, hresolve]
  rfl

/-- Undo and redo put the focus back to the place noted for them. -/
theorem go_focusesOn {s : Session String} (hs : s.Linked) {way : Way} (hs' : (s.go way).2.Traced)
    {shift : FocusShift} {rest : List FocusShift} (hside : s.ledger.side way = shift :: rest) {p : Path}
    (hp : shift.placeTo way = some p) : (s.go way).2.FocusesOn p := by
  rw [side_ledger] at hside
  obtain ⟨entry, entries, hentries, rfl, -⟩ := List.map_eq_cons_iff.1 hside
  obtain ⟨roots, hread⟩ := hs.readable way (entry.textTo way) (by simp [side_texts, hentries])
  have hplace : (entry.markTo way).path = some p := by
    rw [← hp]
    cases way <;> rfl
  -- The entry has been turned round, so the mark gone by is now the near one of the way back.
  have hmark := hs'.follows way.other
  rw [go_restores way hentries hread] at hs' hmark ⊢
  change Follows _ _ _ (((s.history.go way).side way.other).map _) at hmark
  rw [(History.side_go hentries).2, List.map_cons, HistoryEntry.crossing, Way.other_other] at hmark
  exact restored_focusesOn rfl rfl rfl hs' hmark.1 hplace

theorem exists_shift_of_go {s : Session String} {way : Way} (h : (s.go way).1 = .ok true) :
    ∃ shift rest, s.ledger.side way = shift :: rest := by
  cases hside : s.history.side way with
  | nil =>
      rw [go_of_nil hside] at h
      cases h
  | cons entry rest => exact ⟨_, _, by rw [side_ledger, hside, List.map_cons]⟩

/-- The source of identities does not wrap around in a run of a session that was started on some roots. -/
def Suffices (s : Session String) (roots : List Node) (actions : List Action) : Prop :=
  ∃ docs, s.ReadsAll (actions.map .act) docs ∧ handedOut ([roots] ++ docs) < 2 ^ 64 - 1

theorem Suffices.traced {text : String} {settings : Settings} {s : Session String} {roots : List Node}
    {actions : List Action} (h : s.Suffices roots actions) (hstart : start text settings = .ok s)
    (hread : readDocument text = .ok roots) : (s.run actions).Traced := by
  obtain ⟨docs, hreads, hfew⟩ := h
  have hsum : handedOut ([roots] ++ docs) = handedOut [roots] + handedOut docs := by simp [handedOut]
  obtain ⟨hs, hnext⟩ := start_traced hstart hread (by omega)
  exact (run_traced hs hreads (by omega)).1

/-- Undo and redo bring the focus back. A session can be started on every text that can be read. After every
run from there, whatever was committed, undone, redone, read again, focused and collapsed, undo puts the
focus where it was before the commit that is taken back, and redo where it was right after the commit that is
done again; or on the outermost collapsed node above that place, if there is one. This is so as long as the
source of identities does not wrap around. -/
theorem undo_and_redo_refocus {text : String} {roots : List Node} (hread : readDocument text = .ok roots)
    (settings : Settings) :
    ∃ s, start text settings = .ok s ∧ ∀ actions s' l, s.run actions = s' →
      s.ledgerAfter ⟨[], []⟩ actions = l →
      (s'.undo.1 = .ok true → s.Suffices roots (actions ++ [.undo]) →
        ∃ shift done, l.done = shift :: done ∧ ∀ p, shift.before = some p → s'.undo.2.FocusesOn p) ∧
      (s'.redo.1 = .ok true → s.Suffices roots (actions ++ [.redo]) →
        ∃ shift undone, l.undone = shift :: undone ∧ ∀ p, shift.after = some p → s'.redo.2.FocusesOn p) := by
  obtain ⟨s, hs⟩ : ∃ s, start text settings = .ok s := ⟨_, start_eq hread settings⟩
  refine ⟨s, hs, ?_⟩
  rintro actions _ _ rfl rfl
  obtain ⟨hlinked, htexts, -⟩ := start_linked hs
  -- A session starts with an empty ledger, which then goes along with the history.
  have hempty : s.ledger = ⟨[], []⟩ := by
    have hback : s.history.undoable = [] := side_eq_nil htexts .back
    have hahead : s.history.redoable = [] := side_eq_nil htexts .ahead
    rw [ledger, hback, hahead]
    rfl
  have hlinked' := (run_linked hlinked actions).1
  rw [← hempty, ← run_ledger hlinked actions]
  have hways : ∀ way, ((s.run actions).go way).1 = .ok true → s.Suffices roots (actions ++ [.go way]) →
      ∃ shift rest, (s.run actions).ledger.side way = shift :: rest ∧
        ∀ p, shift.placeTo way = some p → ((s.run actions).go way).2.FocusesOn p := by
    intro way hok hfew
    obtain ⟨shift, rest, hside⟩ := exists_shift_of_go hok
    have htraced := hfew.traced hs hread
    rw [run, List.foldl_append] at htraced
    change ((s.run actions).act (.go way)).Traced at htraced
    rw [act_go] at htraced
    exact ⟨shift, rest, hside, fun p hp => go_focusesOn hlinked' htraced hside hp⟩
  exact ⟨hways .back, hways .ahead⟩

/-- The focus is on the second root when the first is cut away. The second root keeps its identity and moves
to the first place; undo puts it and the focus back. -/
theorem undo_and_redo_refocus_second_root :
    ∃ roots, readDocument "a b" = .ok roots ∧ ∃ s, start "a b" .default = .ok s ∧
      ∃ s', s.run [.setFocus ⟨2⟩, .commit [⟨⟨0, 0⟩, ⟨0, 2⟩, ""⟩] none] = s' ∧ s'.text = "b" ∧
        s'.undo.1 = .ok true ∧
        s.Suffices roots [.setFocus ⟨2⟩, .commit [⟨⟨0, 0⟩, ⟨0, 2⟩, ""⟩] none, .undo] ∧
        s'.undo.2.FocusesOn [1] := by
  obtain ⟨roots, hread, hcount, hfirst, n, hn, hid⟩ : ∃ roots, readDocument "a b" = .ok roots ∧
      (Forest.allIds roots).length = 2 ∧ (reconcile .empty roots .new).1.ids = [⟨1⟩, ⟨2⟩] ∧
        ∃ n ∈ (reconcile .empty roots .new).1.at? [1], n.id = ⟨2⟩ := Except.exists_ok (by decide +kernel)
  obtain ⟨left, hleft, hcount'⟩ : ∃ left, readDocument "b" = .ok left ∧ (Forest.allIds left).length = 1 :=
    Except.exists_ok (by decide +kernel)
  obtain ⟨s, hs, hrun⟩ := undo_and_redo_refocus hread .default
  refine ⟨_, hread, s, hs, _, rfl, ?_⟩
  obtain ⟨hlinked, htexts, hsettings⟩ := start_linked hs
  have htext : s.text = "a b" := congrArg TextZipper.here htexts
  obtain ⟨htree, hcollapsed⟩ : s.tree = (reconcile .empty roots .new).1 ∧ s.collapsed = [] := by
    cases hs.symm.trans (start_eq hread .default)
    exact ⟨rfl, rfl⟩
  have hids : s.tree.ids = [⟨1⟩, ⟨2⟩] := by rw [htree, hfirst]
  -- The focus goes to the second root.
  have hpath : s.tree.pathOf? ⟨2⟩ = some [1] := by
    rw [← hid]
    exact Tree.pathOf?_of_nodup (by rw [hids]; decide) (htree ▸ hn)
  have hfocus : s.act (.setFocus ⟨2⟩) = { s with focus := some ⟨2⟩ } := by
    have hcontains : s.tree.contains ⟨2⟩ = true := Tree.contains_iff.2 (by simp [hids])
    have hvisible : Focus.visible s.tree ⟨2⟩ s.collapsed = ⟨2⟩ := by
      rw [Focus.visible, hcollapsed, List.find?_eq_none.2 (by simp)]
    simp only [act, setFocus, hcontains, if_true, hvisible]
  have hplace : (s.act (.setFocus ⟨2⟩)).focusPath = some [1] := by rw [hfocus]; exact hpath
  -- The first root is cut away.
  have hdraft : Draft.ofChanges (s.act (.setFocus ⟨2⟩)).text [⟨⟨0, 0⟩, ⟨0, 2⟩, ""⟩] = .ok ⟨"b", left⟩ := by
    rw [hfocus]
    refine Draft.ofChanges_eq_ok_iff.2 ⟨?_, hleft⟩
    change applyChanges s.text _ = _
    rw [htext]
    cbv
  obtain ⟨hcommits, hnew, hreads⟩ := commits_of_draft hdraft none
  have hledger : (s.ledgerAfter ⟨[], []⟩ [.setFocus ⟨2⟩, .commit [⟨⟨0, 0⟩, ⟨0, 2⟩, ""⟩] none]).done =
      [⟨some [1], ((s.act (.setFocus ⟨2⟩)).act (.commit [⟨⟨0, 0⟩, ⟨0, 2⟩, ""⟩] none)).focusPath⟩] := by
    simp only [ledgerAfter, stepOf, hcommits, act_settings, hsettings, if_true, hplace]
    rfl
  -- Undo leads back to the first text.
  obtain ⟨hlinked', hzipper, -⟩ :=
    run_linked hlinked [.setFocus ⟨2⟩, .commit [⟨⟨0, 0⟩, ⟨0, 2⟩, ""⟩] none]
  have hline : (s.run [.setFocus ⟨2⟩, .commit [⟨⟨0, 0⟩, ⟨0, 2⟩, ""⟩] none]).texts = ⟨["a b"], "b", []⟩ := by
    rw [hzipper, htexts]
    simp only [zipperAfter, stepOf, hcommits, hnew, act_settings, hsettings, if_true]
    rfl
  obtain ⟨entry, rest, hundoable, hbefore, -⟩ := List.map_eq_cons_iff.1 (congrArg TextZipper.back hline)
  have hundo := go_restores .back hundoable (hbefore.symm ▸ hread)
  have hfew : s.Suffices roots [.setFocus ⟨2⟩, .commit [⟨⟨0, 0⟩, ⟨0, 2⟩, ""⟩] none, .undo] := by
    refine ⟨[] ++ ([left] ++ ([roots] ++ [])), ⟨_, _, rfl, .inl ⟨rfl, ?_, ?_⟩, _, _, rfl,
      .inr ⟨_, _, hleft, rfl, hreads⟩, _, _, rfl, .inr ⟨_, _, hread, rfl, ?_⟩, rfl⟩, ?_⟩
    · rw [meet, hfocus]
    · rw [meet, hfocus]
    · exact congrArg (fun r => (r.2.tree, r.2.ids)) hundo
    · simp [handedOut, hcount, hcount']
  have hok := congrArg Prod.fst hundo
  obtain ⟨shift, done, hdone, hback⟩ := (hrun _ _ _ rfl rfl).1 hok hfew
  rw [hledger] at hdone
  obtain ⟨rfl, -⟩ := List.cons.inj hdone
  exact ⟨congrArg TextZipper.here hline, hok, hfew, hback [1] rfl⟩

end Session

end TreeEdit
