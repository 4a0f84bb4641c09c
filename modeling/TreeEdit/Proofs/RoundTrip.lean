import Mathlib
import TreeEdit.Proofs.ReadBack
import TreeEdit.Proofs.Stamps

/-!
# Printing and reading

The tree of a text, printed at any width, can be read, and what is read is structurally equal to the
tree: `pretty_reads_back`. Printing what was read gives the same text again, and reconciling it with
the tree keeps every identity.
-/

namespace TreeEdit

open Reader Doc

/-- The tree has the roots that are read from the text, whatever their identities are. -/
def Tree.Shows (tree : Tree) (text : String) : Prop :=
  ∃ roots, readDocument text = .ok roots ∧
    tree.roots.map Node.anonymous = roots.map Node.anonymous

/-! ## Documents -/

theorem Node.pretty_sets (n : Node) (width : Nat) : Sets false n.doc (n.pretty width).toList := by
  obtain ⟨cs, hsets, htext⟩ := display_sets n.doc width
  rw [Node.pretty, htext]
  exact hsets

theorem broken_sets (ns : List Node) (width : Nat) :
    Sets false (Layout.broken (ns.map Node.doc))
      (ns.flatMap fun n => '\n' :: (n.pretty width).toList) := by
  induction ns with
  | nil => exact .nil
  | cons n ns ih =>
      have hline : Sets false line ['\n'] := .brokenLine 0
      rw [List.flatMap_cons, List.map_cons]
      exact hline.append ((n.pretty_sets width).append ih)

theorem toList_prettyRoots (n : Node) (ns : List Node) (width : Nat) :
    (prettyRoots (n :: ns) width).toList =
      (n.pretty width).toList ++ ns.flatMap fun n => '\n' :: (n.pretty width).toList := by
  rw [prettyRoots, toList_joinLines]
  induction ns generalizing n with
  | nil => simp
  | cons m ns ih =>
      have htail := ih m
      simp only [List.map_cons] at htail ⊢
      rw [List.intercalate_cons_cons, htail, List.flatMap_cons]
      simp

/-- What was read, printed at any width, is read again as structurally equal roots. -/
theorem readDocument_prettyRoots {roots : List Node} (h : ∀ n ∈ roots, n.Standing) (width : Nat) :
    ∃ reread, readDocument (prettyRoots roots width) = .ok reread ∧
      reread.map Node.bare = roots.map Node.bare := by
  cases roots with
  | nil => exact ⟨[], readDocument_eq_ok_iff.2 ⟨[], [], .nil, rfl, rfl, rfl⟩, rfl⟩
  | cons n ns =>
      obtain ⟨hn, hns⟩ := List.forall_mem_cons.1 h
      obtain ⟨ls, es, htext, hrun, -, hreads, hbare⟩ := items_read hn.sound.readsBack
        (forall₂_readsBack fun m hm => (hns m hm).sound.readsBack) (n.pretty_sets width)
        (broken_sets ns width) .zero
      have hes : elementsFrom (Lexeme.tokens .zero ls) [] [] = .ok es := by
        have hall := hreads [] [] []
        simpa [elementsFrom] using hall
      refine ⟨Element.attach es, readDocument_eq_ok_iff.2 ⟨ls, es, hrun, ?_, hes, rfl⟩, ?_⟩
      · rw [htext, toList_prettyRoots]
      · rw [hbare, ← List.map_cons, map_raw_of_standing h]

theorem prettyRoots_eq_of_bare {ns ms : List Node} (h : ns.map Node.bare = ms.map Node.bare)
    (width : Nat) : prettyRoots ns width = prettyRoots ms width := by
  have hpretty : ∀ roots : List Node,
      roots.map (·.pretty width) = (roots.map Node.bare).map (·.pretty width) := by
    intro roots
    rw [List.map_map]
    refine List.map_congr_left fun n _ => ?_
    simp only [Function.comp_apply, Node.pretty, Node.doc_eq_of_bare n.bare_bare]
  rw [prettyRoots, prettyRoots, hpretty, h, ← hpretty]

/-- Printed at any width, the tree of a text can be read; what is read is structurally equal to the
tree, prints as the tree does, and keeps every identity when it is reconciled with the tree. -/
theorem pretty_reads_back {text : String} {tree : Tree} (h : tree.Shows text) (width : Nat) :
    ∃ reread, readDocument (prettyRoots tree.roots width) = .ok reread ∧
      reread.map Node.bare = tree.roots.map Node.bare ∧
      (∀ width', prettyRoots reread width' = prettyRoots tree.roots width') ∧
      ∀ ids, (reconcile tree reread ids).1.roots.map Node.bare = tree.roots.map Node.bare ∧
        (reconcile tree reread ids).1.ids = tree.ids ∧
        (reconcile tree reread ids).1.commentIds = tree.commentIds := by
  obtain ⟨roots, hread, htree⟩ := h
  have hroots : tree.roots.map Node.bare = roots.map Node.bare :=
    map_eq_of_anonymous Node.bare_anonymous htree
  obtain ⟨reread, hreread, hbare⟩ := readDocument_prettyRoots (readDocument_standing hread) width
  have hhash : reread.map Node.hash = tree.roots.map Node.hash := by
    rw [map_eq_of_anonymous Node.hash_anonymous htree]
    exact Node.map_hash_of_bare (readDocument_stamped hreread) (readDocument_stamped hread) hbare
  refine ⟨reread, ?_, hbare.trans hroots.symm, prettyRoots_eq_of_bare (hbare.trans hroots.symm), ?_⟩
  · rw [prettyRoots_eq_of_bare hroots, hreread]
  · intro ids
    have hlabels := reconcile_keeps_labels ids (hbare.trans hroots.symm) hhash
    refine ⟨?_, ?_, ?_⟩
    · rw [map_eq_of_anonymous Node.bare_anonymous (reconcile_anonymous tree reread ids)]
      exact hbare.trans hroots.symm
    · have hids := congrArg (List.map Prod.fst) hlabels
      rwa [List.map_map, List.map_map] at hids
    · have hids := congrArg (List.filterMap Prod.snd) hlabels
      rwa [List.filterMap_map, List.filterMap_map] at hids

/-- A function with a comment in its header, set as narrow as it can be. -/
theorem commented_header_reads_back :
    ∃ roots, readDocument "(define (f ;; of x\n x) (g x))" = .ok roots ∧
      ∃ reread, readDocument (prettyRoots (identify roots).roots 0) = .ok reread ∧
        reread.map Node.bare = (identify roots).roots.map Node.bare ∧
        (reconcile (identify roots) reread .new).1.ids = (identify roots).ids := by
  obtain ⟨roots, hread⟩ : ∃ roots, readDocument "(define (f ;; of x\n x) (g x))" = .ok roots :=
    Except.exists_eq_ok (by decide +kernel)
  have hshows : (identify roots).Shows "(define (f ;; of x\n x) (g x))" :=
    ⟨roots, hread, reconcile_anonymous .empty roots .new⟩
  obtain ⟨reread, hreread, hbare, -, hids⟩ := pretty_reads_back hshows 0
  exact ⟨roots, hread, reread, hreread, hbare, (hids .new).2.1⟩

end TreeEdit
