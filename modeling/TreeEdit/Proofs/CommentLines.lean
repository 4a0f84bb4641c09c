import Mathlib
import TreeEdit.Proofs.RoundTrip
import TreeEdit.Proofs.Rows

/-!
# Where comment lines go

The lines of the comments in a node, in whatever order, are its remarks. Hanging notes on a node adds
their lines to its remarks, so hanging the comments of a list on its expressions loses nothing if there is
an expression (`attach_remarks`). Nor does recognising a list: the comment of a keyword, of a function
header or of a list of bindings goes to a node that stays (`recognise_remarks`). Only a keyword that makes a
form on its own, `begin` or `cond`, has no node to leave its comment to (`recognise_alone`).
-/

namespace TreeEdit

open Reader

/-! ## Remarks -/

/-- The lines of the comment of a node. -/
def Node.commentLines (n : Node) : List String := n.comment.elim [] fun c => linesOf c.text

/-- The lines of the comments of a node and its descendants, in whatever order. -/
def Node.remarks (n : Node) : Multiset String := ↑(n.walk.flatMap Node.commentLines)

/-- The lines of the comments in some nodes. -/
def remarksOf (ns : List Node) : Multiset String := (ns.map Node.remarks).sum

/-- The lines of a note. -/
def Note.remarks (t : Note) : Multiset String := ↑(linesOf t.text)

/-- The lines of an element. -/
def Element.remarks : Element → Multiset String
  | .expr n => n.remarks
  | .note t => t.remarks

theorem coe_flatMap {α β : Type} (l : List α) (f : α → List β) :
    (↑(l.flatMap f) : Multiset β) = (l.map fun a => (↑(f a) : Multiset β)).sum := by
  induction l with
  | nil => rfl
  | cons a l ih => rw [List.flatMap_cons, ← Multiset.coe_add, ih, List.map_cons, List.sum_cons]

@[simp] theorem remarksOf_nil : remarksOf [] = 0 := rfl

@[simp] theorem remarksOf_cons (n : Node) (ns : List Node) : remarksOf (n :: ns) = n.remarks + remarksOf ns := by
  rw [remarksOf, List.map_cons, List.sum_cons, remarksOf]

@[simp] theorem remarksOf_append (ns ms : List Node) : remarksOf (ns ++ ms) = remarksOf ns + remarksOf ms := by
  rw [remarksOf, List.map_append, List.sum_append, remarksOf, remarksOf]

theorem remarksOf_reverse (ns : List Node) : remarksOf ns.reverse = remarksOf ns := by
  rw [remarksOf, remarksOf, List.map_reverse, List.sum_reverse]

theorem coe_nodes_commentLines (ns : List Node) :
    (↑((Forest.nodes ns).flatMap Node.commentLines) : Multiset String) = remarksOf ns := by
  rw [Forest.nodes, List.flatMap_assoc, coe_flatMap]
  rfl

namespace Node

theorem remarks_eq (n : Node) : n.remarks = ↑n.commentLines + remarksOf n.children := by
  rw [remarks, walk_eq, List.flatMap_cons, ← Multiset.coe_add, List.flatMap_assoc, coe_flatMap]
  rfl

@[simp] theorem remarks_make (k : Kind Node) (span : Span) : (make k span).remarks = remarksOf k.children := by
  rw [remarks_eq]
  exact zero_add _

theorem remarks_withComment (n : Node) (c : Option Comment) :
    (n.withComment c).remarks = ↑(c.elim [] fun c => linesOf c.text) + remarksOf n.children :=
  remarks_eq _

theorem remarks_of_symbol {n : Node} (h : n.symbol?.isSome) : n.remarks = ↑n.commentLines := by
  obtain ⟨name, hname⟩ := Option.isSome_iff_exists.1 h
  have hchildren : n.children = [] := by
    rw [children, kind_of_symbol? hname]
    rfl
  rw [remarks_eq, hchildren, remarksOf_nil, add_zero]

/-- Hanging notes on a node adds their lines. -/
@[simp] theorem remarks_addNotes (n : Node) (notes : List Note) :
    (n.addNotes notes).remarks = n.remarks + (notes.map Note.remarks).sum := by
  unfold addNotes
  split
  · rename_i hempty
    rw [List.isEmpty_iff.1 hempty, List.map_nil, List.sum_nil, add_zero]
  · rename_i hne
    have hsorted : (Note.sorted (notes ++ (n.comment.map Comment.note).toList)).Perm
        (notes ++ (n.comment.map Comment.note).toList) := List.mergeSort_perm _ _
    have hown : (((n.comment.map Comment.note).toList).map Note.remarks).sum = ↑n.commentLines := by
      rw [commentLines]
      cases n.comment with
      | none => rfl
      | some c => exact add_zero _
    split
    · rename_i hnil
      rw [hnil, List.nil_perm, List.append_eq_nil_iff] at hsorted
      exact absurd (List.isEmpty_iff.2 hsorted.1) hne
    · rename_i first rest heq
      have hlines : (↑(linesOf (joinLines ((first :: rest).map Note.text))) : Multiset String) =
          ((first :: rest).map Note.remarks).sum := by
        rw [linesOf_joinLines (by simp), List.flatMap_map, coe_flatMap]
        rfl
      rw [heq] at hsorted
      rw [remarks_withComment, remarks_eq]
      show ↑(linesOf (joinLines ((first :: rest).map Note.text))) + remarksOf n.children = _
      rw [hlines, (hsorted.map Note.remarks).sum_eq, List.map_append, List.sum_append, hown]
      abel

end Node

/-! ## Hanging comments -/

namespace Element

/-- One step of the walk takes up the lines of its element. -/
theorem Walk.step_remarks (w : Walk) (e : Element) :
    remarksOf (w.step e).done + ((w.step e).waiting.map Note.remarks).sum =
      remarksOf w.done + (w.waiting.map Note.remarks).sum + e.remarks := by
  cases e with
  | expr n =>
      simp only [Walk.step, remarksOf_cons, Node.remarks_addNotes, List.map_nil, List.sum_nil, add_zero, remarks]
      abel
  | note t =>
      rcases step_note w t with ⟨prev, before, hwaiting, hdone, hstep⟩ | hstep
      · rw [hstep, hwaiting, hdone]
        simp only [remarksOf_cons, Node.remarks_addNotes, List.map_nil, List.sum_nil, add_zero, List.map_cons,
          List.sum_cons, remarks]
        abel
      · rw [hstep]
        simp only [List.map_append, List.sum_append, List.map_cons, List.map_nil, List.sum_cons, List.sum_nil,
          add_zero, remarks]
        abel

theorem Walk.foldl_remarks (w : Walk) (es : List Element) :
    remarksOf (es.foldl Walk.step w).done + ((es.foldl Walk.step w).waiting.map Note.remarks).sum =
      remarksOf w.done + (w.waiting.map Note.remarks).sum + (es.map remarks).sum := by
  induction es generalizing w with
  | nil => simp
  | cons e es ih =>
      rw [List.foldl_cons, ih, Walk.step_remarks, List.map_cons, List.sum_cons]
      abel

/-- No line of a comment is lost where there is an expression to hang it on. -/
theorem attach_remarks {es : List Element} (h : nodes es ≠ []) :
    remarksOf (attach es) = (es.map remarks).sum := by
  have hall := Walk.foldl_remarks ⟨[], []⟩ es
  have hne : attach es ≠ [] := by
    intro hnil
    have hlen := length_attach es
    rw [hnil, List.length_nil, eq_comm, List.length_eq_zero_iff] at hlen
    exact h hlen
  rw [attach, Walk.finish] at hne ⊢
  cases hdone : (es.foldl Walk.step ⟨[], []⟩).done with
  | nil => simp [hdone] at hne
  | cons prev before =>
      rw [hdone] at hall
      simp only [remarksOf_reverse, remarksOf_cons, Node.remarks_addNotes, remarksOf_nil, List.map_nil,
        List.sum_nil, zero_add] at hall ⊢
      rw [← hall]
      abel

end Element

/-! ## Recognising lists -/

namespace Reader

/-- A list under another kind with the same children keeps its lines. -/
theorem remarks_rekind {n : Node} {k : Kind Node} (h : k.children = n.children) :
    (rekind n k).remarks = n.remarks := by
  rw [rekind, Node.remarks_withComment, Node.remarks_eq n]
  exact congrArg _ (congrArg remarksOf h)

theorem remarks_identifiers {n : Node} {ids : List Node} (h : symbols? n = some ids) :
    (rekind n (.identifiers ids)).remarks = n.remarks := by
  apply remarks_rekind
  rw [Node.children, (symbols?_eq_some h).1, children_applicationOf]
  simp [Kind.children, Kind.slots, Slot.nodes]

theorem remarks_clause {n c : Node} (h : clause? n = some c) : c.remarks = n.remarks := by
  obtain ⟨test, body, hkind, rfl⟩ := clause?_eq_some h
  apply remarks_rekind
  rw [Node.children, hkind]
  simp [Kind.children, Kind.slots, Slot.nodes]

theorem remarks_binding {n b : Node} (h : binding? n = some b) : b.remarks = n.remarks := by
  obtain ⟨name, value, hkind, -, rfl⟩ := binding?_eq_some h
  apply remarks_rekind
  rw [Node.children, hkind]
  simp [Kind.children, Kind.slots, Slot.nodes]

theorem remarksOf_mapM {f : Node → Option Node} (hf : ∀ n m, f n = some m → m.remarks = n.remarks)
    {ns ms : List Node} (h : ns.mapM f = some ms) : remarksOf ms = remarksOf ns := by
  have hall := forall₂_of_mapM h
  clear h
  induction hall with
  | nil => rfl
  | cons hm _ ih => rw [remarksOf_cons, remarksOf_cons, hf _ _ hm, ih]

/-- What the elements of a list hold, and what hangs on the list itself. -/
theorem remarks_of_list {n : Node} {items : List Node} (h : n.kind = applicationOf items) :
    n.remarks = ((n.comment.map Comment.note).toList.map Note.remarks).sum + remarksOf items := by
  rw [Node.remarks_eq, Node.children, h, children_applicationOf, Node.commentLines]
  congr 1
  cases n.comment with
  | none => rfl
  | some c => exact (add_zero _).symm

/-- A form keeps the lines of all elements behind the keyword. -/
theorem Formed.remarks {keyword : String} {items : List Node} {k : Kind Node} (h : Formed keyword items k) :
    remarksOf k.children = remarksOf (items.drop 1) := by
  cases h with
  | variableDef symbol => simp [Kind.children, Kind.slots, Slot.nodes]
  | functionDef header =>
      have htarget := remarks_of_list (symbols?_eq_some header).1
      simp [Kind.children, Kind.slots, Slot.nodes, htarget]
      abel
  | structDef symbol list => simp [Kind.children, Kind.slots, Slot.nodes, remarks_identifiers list]
  | lambda list => simp [Kind.children, Kind.slots, Slot.nodes, remarks_identifiers list]
  | oneArm => simp [Kind.children, Kind.slots, Slot.nodes]
  | twoArms => simp [Kind.children, Kind.slots, Slot.nodes]
  | cond all =>
      rw [← remarksOf_mapM (fun _ _ => remarks_clause) all]
      simp [Kind.children, Kind.slots, Slot.nodes]
  | letNothing form empty =>
      obtain ⟨elements, hkind, hmap⟩ := bindings?_eq_some empty
      have hlist := remarks_of_list hkind
      rw [← remarksOf_mapM (fun _ _ => remarks_binding) hmap] at hlist
      simp [Kind.children, Kind.slots, Slot.nodes, hlist]
      abel
  | letIn form bound =>
      obtain ⟨elements, hkind, hmap⟩ := bindings?_eq_some bound
      have hlist := remarks_of_list hkind
      rw [← remarksOf_mapM (fun _ _ => remarks_binding) hmap] at hlist
      simp [Kind.children, Kind.slots, Slot.nodes, hlist]
      abel
  | guarded form => simp [Kind.children, Kind.slots, Slot.nodes]
  | sequence => simp [Kind.children, Kind.slots, Slot.nodes]

/-- Of the keywords only `begin` and `cond` make a form on their own. -/
theorem Formed.alone {keyword : String} {n : Node} {k : Kind Node} (h : Formed keyword [n] k) :
    keyword = "begin" ∨ keyword = "cond" := by
  cases h with
  | cond all => exact .inr rfl
  | sequence => exact .inl rfl

theorem remarksOf_passKeywordComment (items : List Node) :
    remarksOf (passKeywordComment items) = remarksOf items := by
  rcases passKeywordComment_cases items with hpass | ⟨keyword, next, rest, c, rfl, hc, hpass⟩
  · rw [hpass]
  · have hkeyword := keyword.remarks_eq
    rw [Node.commentLines, hc] at hkeyword
    rw [hpass]
    simp [Node.remarks_withComment, hkeyword, Comment.note, Note.remarks]
    abel

/-- The keyword of a form with other elements has no comment left. -/
theorem remarks_head_passKeywordComment {keyword next : Node} (rest : List Node)
    (h : keyword.symbol?.isSome) :
    remarksOf ((passKeywordComment (keyword :: next :: rest)).drop 1) =
      remarksOf (passKeywordComment (keyword :: next :: rest)) := by
  rw [passKeywordComment]
  split
  · rename_i hc
    rw [remarksOf_cons keyword, Node.remarks_of_symbol h, Node.commentLines, hc]
    exact (zero_add _).symm
  · have hnone : (keyword.withComment none).remarks = 0 := Node.remarks_of_symbol (n := keyword.withComment none) h
    rw [remarksOf_cons (keyword.withComment none), hnone, zero_add]
    rfl

/-- A list keeps all comment lines of its elements, whatever it is recognised as, unless it is `begin` or
`cond` alone. -/
theorem recognise_remarks {items : List Node}
    (h : ∀ n, items = [n] → n.symbol? ≠ some "begin" ∧ n.symbol? ≠ some "cond") :
    remarksOf (recognise items).children = remarksOf items := by
  rcases recognise_cases items with ⟨-, hrec⟩ | ⟨keyword, hkeyword, -, hformed | hrec⟩
  · rw [hrec, children_applicationOf]
  · obtain ⟨head, hhead, hsymbol⟩ := Option.bind_eq_some_iff.1 hkeyword
    obtain ⟨rest, rfl⟩ := List.head?_eq_some_iff.1 hhead
    rw [hformed.remarks, ← remarksOf_passKeywordComment (head :: rest)]
    cases rest with
    | nil =>
        obtain ⟨hbegin, hcond⟩ := h head rfl
        rcases hformed.alone with rfl | rfl
        · exact absurd hsymbol hbegin
        · exact absurd hsymbol hcond
    | cons next rest => exact remarks_head_passKeywordComment rest (Option.isSome_of_eq_some hsymbol)
  · rw [hrec, ← remarksOf_passKeywordComment items]
    simp [Kind.children, Kind.slots, Slot.nodes]

/-- With `begin` or `cond` alone, the comment on the keyword is lost. -/
theorem recognise_alone {n : Node} (h : n.symbol? = some "begin" ∨ n.symbol? = some "cond") :
    (recognise [n]).children = [] := by
  rcases h with h | h <;>
    simp [recognise, h, form?, passKeywordComment, cond?, Kind.children, Kind.slots, Slot.nodes]

end Reader

end TreeEdit
