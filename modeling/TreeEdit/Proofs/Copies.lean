import TreeEdit.Proofs.Grouping
import TreeEdit.Proofs.Hanging
import TreeEdit.Proofs.RoundTrip

/-!
# Copies under edit

What a copy with all edits made says and how it is printed. The order in which the edits are listed does not
matter as long as it is latest first (`Node.edited_of_mem_iff`). A copy of a node that can be printed can be
printed (`Node.Writable.edited`), and a node that no edit touches says what its parts say
(`Node.wording_of_untouched`).
-/

namespace TreeEdit

open Edit

/-! ## The order of the edits -/

namespace Edit

/-- The child that the edit is about. -/
def target? (e : Edit) : Option NodeId :=
  match e.kind with
  | .deleteChild node _ _ _ => some node
  | .replaceChild node _ _ _ _ => some node
  | _ => none

theorem fateOf?_ne_none {e : Edit} {id : NodeId} : e.fateOf? id ≠ none ↔ e.target? = some id := by
  obtain ⟨start, stop, kind⟩ := e
  cases kind <;> simp [fateOf?, target?]

theorem refit_congr {edits edits' : List Edit} (hput : ∀ field i, putIn edits field i = putIn edits' field i)
    (hfate : ∀ id, fate edits id = fate edits' id) : refit edits = refit edits' := by
  have hleft : left edits = left edits' := by
    funext n
    rw [left, left, hfate]
  have hputs : putIn edits = putIn edits' := funext fun field => funext fun i => hput field i
  rw [refit, refit, hleft, hputs]

end Edit

theorem Node.edited_congr {edits edits' : List Edit} {n : Node}
    (h : ∀ id ∈ n.ids, Edit.refit (inside edits id) = Edit.refit (inside edits' id)) :
    n.edited edits = n.edited edits' := by
  induction n using induct with
  | step n ih =>
      have hchildren : n.kind.map (edited edits) = n.kind.map (edited edits') :=
        Kind.map_congr_left fun c hc => ih c hc fun id hid => h id (ids_subset_of_child hc hid)
      rw [edited_eq, edited_eq edits', hchildren, h n.id (by rw [ids_eq]; exact List.mem_cons_self)]

theorem Node.edited_eq_self {edits : List Edit} {n : Node} (h : ∀ id ∈ n.ids, inside edits id = []) :
    n.edited edits = n := by
  refine (edited_congr fun id hid => ?_).trans n.edited_nil
  rw [h id hid]
  rfl

namespace Edit

/-- Text is put in latest first, and no child is dealt with twice. -/
structure Settled (edits : List Edit) : Prop where
  latest : (edits.filter inserts).Pairwise fun e e' => e'.start < e.start
  once : ∀ e ∈ edits, ∀ e' ∈ edits, ∀ node, e.target? = some node → e'.target? = some node → e = e'

theorem Settled.inside {edits : List Edit} (h : Settled edits) (id : NodeId) : Settled (inside edits id) := by
  constructor
  · rw [Edit.inside, List.filter_comm]
    exact h.latest.filter _
  · exact fun e he e' he' => h.once e (List.mem_filter.1 he).1 e' (List.mem_filter.1 he').1

theorem putIn?_eq_none {e : Edit} (h : e.inserts = false) (field : String) (i : Nat) :
    e.putIn? field i = none := by
  by_contra hput
  have hinserts := (place?_of_putIn? hput).1
  rw [h] at hinserts
  cases hinserts

theorem putIn_filter (edits : List Edit) (field : String) (i : Nat) :
    putIn (edits.filter inserts) field i = putIn edits field i := by
  rw [putIn, putIn, ← List.filter_reverse, List.filterMap_filter]
  refine List.filterMap_congr fun e _ => ?_
  by_cases he : e.inserts
  · rw [if_pos he]
  · rw [if_neg he, putIn?_eq_none (by simpa using he)]

/-- Edits that put text in latest first and are about each child once have one effect in every order. -/
theorem Settled.refit_eq {edits edits' : List Edit} (h : Settled edits) (h' : Settled edits')
    (hmem : ∀ e, e ∈ edits ↔ e ∈ edits') : refit edits = refit edits' := by
  refine refit_congr (fun field i => ?_) fun id => ?_
  · have hirrefl : Std.Irrefl fun e e' : Edit => e'.start < e.start := ⟨fun e => lt_irrefl e.start⟩
    have hantisymm : Std.Antisymm fun e e' : Edit => e'.start < e.start :=
      ⟨fun e e' hlt hlt' => absurd hlt (lt_asymm hlt')⟩
    have hsame : edits.filter inserts = edits'.filter inserts :=
      h.latest.eq_of_mem_iff h'.latest fun e => by simp [hmem]
    rw [← putIn_filter, hsame, putIn_filter]
  · rw [fate, fate]
    congr 1
    cases hfound : edits.findSome? (·.fateOf? id) with
    | none =>
        refine (List.findSome?_eq_none_iff.2 fun e he => ?_).symm
        exact List.findSome?_eq_none_iff.1 hfound e ((hmem e).2 he)
    | some f =>
        obtain ⟨e, he, hf⟩ := List.exists_of_findSome?_eq_some hfound
        cases hfound' : edits'.findSome? (·.fateOf? id) with
        | none =>
            have hnone := List.findSome?_eq_none_iff.1 hfound' e ((hmem e).1 he)
            rw [hf] at hnone
            cases hnone
        | some f' =>
            obtain ⟨e', he', hf'⟩ := List.exists_of_findSome?_eq_some hfound'
            have htarget : e.target? = some id := fateOf?_ne_none.1 (by rw [hf]; simp)
            have htarget' : e'.target? = some id := fateOf?_ne_none.1 (by rw [hf']; simp)
            obtain rfl := h.once e he e' ((hmem e').2 he') id htarget htarget'
            rw [← hf, ← hf']

end Edit

theorem Node.edited_of_mem_iff {edits edits' : List Edit} (h : Edit.Settled edits) (h' : Edit.Settled edits') {n : Node}
    (hmem : ∀ id ∈ n.ids, ∀ e, e ∈ inside edits id ↔ e ∈ inside edits' id) :
    n.edited edits = n.edited edits' :=
  edited_congr fun id hid => (h.inside id).refit_eq (h'.inside id) (hmem id hid)

/-! ## What a copy says -/

theorem Kind.isList_refit {α : Type} (r : Refit α) (k : Kind α) : (k.refit r).isList = k.isList := by
  cases k <;> rfl

theorem Kind.identifiers_refit_iff {α : Type} {r : Refit α} {k : Kind α} :
    (∃ ids, k.refit r = .identifiers ids) ↔ ∃ ids, k = .identifiers ids := by
  cases k <;> simp [refit]

theorem Kind.pattern_congr {α β : Type} {whole : α → β} {header header' : α → List β} {k : Kind α}
    (h : ∀ name params body, k = .functionDef name params body → header params = header' params) :
    k.pattern whole header = k.pattern whole header' := by
  cases k with
  | functionDef name params body =>
      simp only [pattern]
      rw [h name params body rfl]
  | _ => rfl

namespace Node

variable {edits : List Edit}

theorem inside_eq_nil {id : NodeId} (h : ∀ e ∈ edits, e.parent? ≠ some id) : inside edits id = [] :=
  List.filter_eq_nil_iff.2 fun e he => by simpa using h e he

theorem kind_edited_of_none {n : Node} (h : ∀ e ∈ edits, e.parent? ≠ some n.id) :
    (n.edited edits).kind = n.kind.map (edited edits) := by
  rw [kind_edited, inside_eq_nil h, Kind.refit_nil]

theorem header_edited {n : Node} (h : ∀ e ∈ edits, e.parent? ≠ some n.id) :
    (n.edited edits).header = n.header.map (edited edits) := by
  have hkind := kind_edited_of_none h
  unfold header
  rw [hkind]
  cases n.kind with
  | identifiers ids => simp [Kind.map]
  | _ => rfl

/-- What a node says with the edits made. -/
def wording (edits : List Edit) (n : Node) : List Sign := (n.edited edits).flatten

/-- A node that no edit touches says what its parts say. -/
theorem wording_of_untouched {n : Node} (h : ∀ e ∈ edits, ¬ e.Touches n) :
    n.wording edits = fill (wording edits) n.kind.shape := by
  have hkind := kind_edited_of_none fun e he hparent => h e he (.inl hparent)
  have hshape : (n.edited edits).kind.shape = n.kind.shape.map (Sum.map (fun s => s) (edited edits)) := by
    rw [hkind, Kind.shape, Kind.pattern_map]
    refine Eq.trans ?_ (Kind.map_pattern _ _ _ _).symm
    refine Kind.pattern_congr fun name params body hk => ?_
    exact header_edited fun e he hparent => h e he (.inr ⟨name, params, body, hk, hparent⟩)
  rw [wording, flatten_eq, hshape]
  exact fill_map flatten (edited edits) n.kind.shape

theorem header_of_identifiers {n : Node} {ids : List Node} (h : n.kind = .identifiers ids) :
    n.header = n.children := by
  simp [header, children, h, Kind.children, Kind.slots, Slot.nodes]

theorem header_of_other {n : Node} (h : ∀ ids, n.kind ≠ .identifiers ids) : n.header = [n] := by
  unfold header
  split
  · rename_i ids hids
    exact absurd hids (h ids)
  · rfl

theorem header_eq_of_made {n : Node} (h : Made edits n) : n.header = [n] := by
  rcases h with ⟨_, _, _, _, _, rfl⟩ | ⟨span, rfl⟩ <;> rfl

theorem identifiers_edited_iff {n : Node} :
    (∃ ids, (n.edited edits).kind = .identifiers ids) ↔ ∃ ids, n.kind = .identifiers ids := by
  rw [kind_edited, Kind.identifiers_refit_iff]
  cases n.kind <;> simp [Kind.map]

theorem mem_header_edited {n m : Node} (h : m ∈ (n.edited edits).header) :
    Made edits m ∨ ∃ l ∈ n.header, m = l.edited edits := by
  by_cases hids : ∃ ids, n.kind = .identifiers ids
  · obtain ⟨ids', hids'⟩ := identifiers_edited_iff.2 hids
    obtain ⟨ids, hids⟩ := hids
    rw [header_of_identifiers hids'] at h
    rw [header_of_identifiers hids]
    exact mem_children_edited h
  · have hids' : ∀ ids, (n.edited edits).kind ≠ .identifiers ids :=
      fun ids hk => hids (identifiers_edited_iff.1 ⟨ids, hk⟩)
    rw [header_of_other hids', List.mem_singleton] at h
    rw [header_of_other fun ids hk => hids ⟨ids, hk⟩]
    exact .inr ⟨n, List.mem_singleton_self n, h⟩

/-- The parts of a copy were made by edits or are copies of the parts. -/
theorem mem_parts_edited {n m : Node} (h : m ∈ (n.edited edits).kind.parts) :
    Made edits m ∨ ∃ l ∈ n.kind.parts, m = l.edited edits := by
  by_cases hdef : ∃ name params body, n.kind = .functionDef name params body
  · obtain ⟨name, params, body, hk⟩ := hdef
    -- What is left of a required child is made up, or it is the child with the edits made.
    have hrequired : ∀ l, Made edits ((left (inside edits n.id) l).getD (.vacated l.span)) ∨
        (left (inside edits n.id) l).getD (.vacated l.span) = l := by
      intro l
      cases hl : left (inside edits n.id) l with
      | none => exact .inl (.inr ⟨_, rfl⟩)
      | some x =>
          rcases left_eq_some hl with rfl | hx
          · exact .inr rfl
          · exact .inl (hx.mono (List.filter_subset_self _))
    rw [kind_edited, hk] at h
    simp only [Kind.map, Kind.refit, refit_required, Kind.parts, List.mem_cons, List.mem_append,
      List.not_mem_nil, or_false] at h
    rw [hk]
    rcases h with rfl | h | rfl
    · exact (hrequired _).imp_right fun h => ⟨name, by simp, h⟩
    · rcases hrequired (params.edited edits) with hmade | heq
      · rw [header_eq_of_made hmade, List.mem_singleton] at h
        exact .inl (h ▸ hmade)
      · rw [heq] at h
        rcases mem_header_edited h with hmade | ⟨l, hl, hm⟩
        · exact .inl hmade
        · exact .inr ⟨l, by simp [hl], hm⟩
    · exact (hrequired _).imp_right fun h => ⟨body, by simp, h⟩
  · have hother : ∀ name params body, n.kind ≠ .functionDef name params body :=
      fun name params body hk => hdef ⟨name, params, body, hk⟩
    have hother' : ∀ name params body, (n.edited edits).kind ≠ .functionDef name params body := by
      intro name params body hk
      rw [kind_edited] at hk
      cases hk' : n.kind <;> rw [hk'] at hk <;> first | exact hother _ _ _ hk' | cases hk
    rw [parts_eq_children hother'] at h
    rw [parts_eq_children hother]
    exact mem_children_edited h

end Node

/-! ## What is printed -/

theorem Kind.Worded.refit {k : Kind Node} (h : k.Worded) (f : Node → Node) (r : Refit Node) :
    ((k.map f).refit r).Worded := by
  cases k with
  | literal value type => exact h
  | pasted text => exact h
  | _ => trivial

namespace Node

variable {edits : List Edit}

theorem writable_of_made (htext : ∀ e ∈ edits, ∀ text ∈ e.text?, Fragment text) {m : Node} (h : Made edits m) :
    m.Writable := by
  rcases h with ⟨e, he, text, ht, place, rfl⟩ | ⟨span, rfl⟩
  · exact .intro (htext e he text ht) (by simp [pasted, make]) (by simp [pasted, make])
  · exact .intro trivial (by simp [vacated, make]) (by simp [vacated, make])

/-- A copy of what can be printed can be printed, if the texts put in can. -/
theorem Writable.edited {n : Node} (h : n.Writable) (htext : ∀ e ∈ edits, ∀ text ∈ e.text?, Fragment text) :
    (n.edited edits).Writable := by
  induction h with
  | @intro n hkind hcomment _ ih =>
      refine .intro ?_ ?_ fun m hm => ?_
      · rw [kind_edited]
        exact hkind.refit _ _
      · rw [edited_eq]
        exact hcomment
      · rcases mem_parts_edited hm with hmade | ⟨l, hl, rfl⟩
        · exact writable_of_made htext hmade
        · exact ih l hl

theorem Writable.within {n m : Node} (h : n.Writable) (hm : n.Within m) : m.Writable := by
  induction hm with
  | self n => exact h
  | part hpart _ ih =>
      obtain ⟨-, -, hparts⟩ := h
      exact ih (hparts _ hpart)

theorem Writable.anonymous {n m : Node} (h : n.Writable) (hnm : n.anonymous = m.anonymous) : m.Writable := by
  induction h generalizing m with
  | @intro n hkind hcomment _ ih =>
      have hkinds : n.kind.map Node.anonymous = m.kind.map Node.anonymous := by
        rw [← kind_anonymous, hnm, kind_anonymous]
      refine .intro ?_ ?_ fun l hl => ?_
      · cases hk : n.kind with
        | literal value type =>
            rw [hk] at hkinds hkind
            cases hm : m.kind <;> rw [hm] at hkinds <;> cases hkinds
            exact hkind
        | pasted text =>
            rw [hk] at hkinds hkind
            cases hm : m.kind <;> rw [hm] at hkinds <;> cases hkinds
            exact hkind
        | _ =>
            rw [hk] at hkinds
            cases hm : m.kind <;> rw [hm] at hkinds <;> trivial
      · intro c hc
        have hcomments := congrArg Node.comment hnm
        rw [anonymous_eq, anonymous_eq, Option.mem_def.1 hc, Option.map_some, Option.map_eq_some_iff] at hcomments
        obtain ⟨d, hd, hdc⟩ := hcomments
        have htext : d.anonymous.text = c.anonymous.text := by rw [hdc]
        rw [← show d.text = c.text from htext]
        exact hcomment d hd
      · have hparts : n.kind.parts.map Node.anonymous = m.kind.parts.map Node.anonymous := by
          rw [← Kind.parts_anonymous, hkinds, Kind.parts_anonymous]
        have hmem := List.mem_map_of_mem (f := Node.anonymous) hl
        rw [← hparts] at hmem
        obtain ⟨l', hl', heq⟩ := List.mem_map.1 hmem
        exact ih l' hl' heq

end Node

open Lexeme

/-- A list that is printed as text over its old place has its signs, from bracket to bracket. -/
theorem Node.Writable.prints {n : Node} (h : n.Writable) (hlist : n.Bracketed) (width column : Nat) :
    ∃ ls, text ls = (hangingIndent (n.pretty width) column).toList ∧ Prints ls n.flatten := by
  obtain ⟨ls, htext, hspells⟩ := h.spells false _ (n.pretty_sets width)
  obtain ⟨ls', htext', hspells'⟩ := hangingIndent_spells htext hspells column
  obtain ⟨inner, hshape⟩ := Kind.shape_of_isList hlist
  refine ⟨ls', htext', hspells', ?_, ?_⟩
  · rw [flatten_eq, hshape, fill_inBrackets]
    rfl
  · rw [flatten_eq, hshape, fill_inBrackets, ← List.cons_append, List.getLast?_concat]

end TreeEdit
