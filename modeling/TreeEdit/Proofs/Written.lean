import Mathlib.Data.List.DropRight
import TreeEdit.Proofs.Lexemes
import TreeEdit.Proofs.Recognition
import TreeEdit.Proofs.Setting

/-!
# What was read can be written

A list is printed as its elements in brackets, and some of these elements are not nodes of the tree:
the keyword has no node, and the header of a function and the list of bindings of a `let` have none
either. `Kind.written` gives the elements back. `Node.raw` undoes what the place of a list did to its
kind: identifier lists, clauses and bindings are applications where they stand on their own.

A kind is `Readable` if recognising its written elements gives it back. This is so of every kind that
recognition yields (`recognise_standing`), and so every node of a document that was read is `Sound`:
it is readable in all its parts, and its comments are lines that start with a semicolon
(`readDocument_standing`).
-/

namespace TreeEdit

open Reader

/-! ## The elements a kind is written as -/

/-- The kind of a list where it stands on its own. -/
def Kind.raw : Kind Node → Kind Node
  | .identifiers ids => applicationOf ids
  | .clause test body => .app test body
  | .binding name value => .app name [value]
  | k => k

/-- A node as it is read where it stands on its own. -/
def Node.raw (n : Node) : Node := { n with kind := n.kind.raw }

/-- What a node adds to the header of a function. -/
def Node.header (n : Node) : List Node :=
  match n.kind with
  | .identifiers ids => ids
  | _ => [n]

/-- A keyword as it is read. -/
def keywordNode (keyword : String) : Node := .make (.literal keyword .symbol) (.point .zero)

/-- A list that starts with no keyword, as it is read. -/
def listNode (items : List Node) : Node := .make (applicationOf items) (.point .zero)

namespace Kind

/-- The elements of the list that a kind is written as. -/
def written : Kind Node → List Node
  | .literal .. | .blank | .pasted .. | .vacated => []
  | .app func args => func.raw :: args.map Node.raw
  | .identifiers ids => ids.map Node.raw
  | .variableDef name body => [keywordNode "define", name.raw, body.raw]
  | .functionDef name params body =>
    [keywordNode "define", listNode (name.raw :: params.header.map Node.raw), body.raw]
  | .lambda args body => [keywordNode "lambda", args.raw, body.raw]
  | .structDef name fields => [keywordNode "define-struct", name.raw, fields.raw]
  | .conditional test yes no =>
    keywordNode "if" :: test.raw :: yes.raw :: (no.map Node.raw).toList
  | .cond clauses => keywordNode "cond" :: clauses.map Node.raw
  | .clause test body => test.raw :: body.map Node.raw
  | .letIn form bindings body =>
    [keywordNode form.keyword, listNode (bindings.map Node.raw), body.raw]
  | .binding name value => [name.raw, value.raw]
  | .guarded form predicate exprs =>
    keywordNode form.keyword :: predicate.raw :: exprs.map Node.raw
  | .sequence exprs => keywordNode "begin" :: exprs.map Node.raw
  | .unknown elts => elts.map Node.raw

/-- The written lists of a kind that must not start with a keyword. -/
def plainLists : Kind Node → List (List Node)
  | .app func args => [func.raw :: args.map Node.raw]
  | .identifiers ids => [ids.map Node.raw]
  | .clause test body => [test.raw :: body.map Node.raw]
  | .binding name value => [[name.raw, value.raw]]
  | .functionDef name params _ => [name.raw :: params.header.map Node.raw]
  | .letIn _ bindings _ => [bindings.map Node.raw]
  | _ => []

/-- The nodes that are printed as parts of a kind: its children, and in place of the parameters of a
function the identifiers. -/
@[simp] def parts : Kind Node → List Node
  | .literal .. | .blank | .pasted .. | .vacated => []
  | .app func args => func :: args
  | .identifiers ids => ids
  | .variableDef name body => [name, body]
  | .functionDef name params body => name :: (params.header ++ [body])
  | .lambda args body => [args, body]
  | .structDef name fields => [name, fields]
  | .conditional test yes no => test :: yes :: no.toList
  | .cond clauses => clauses
  | .clause test body => test :: body
  | .letIn _ bindings body => bindings ++ [body]
  | .binding name value => [name, value]
  | .guarded _ predicate exprs => predicate :: exprs
  | .sequence exprs => exprs
  | .unknown elts => elts

/-- Recognising the written elements of a list gives its kind back. -/
structure ListReadable (k : Kind Node) : Prop where
  plain : ∀ items ∈ k.plainLists, shapeOf? items = none
  calm : Calm k.written
  back : (recognise k.written).map Node.bare = k.raw.map Node.bare

/-- Reading what a kind is written as gives it back. -/
def Readable : Kind Node → Prop
  | .literal value .string => ∃ body, (Lexeme.string body).Ok ∧ value.toList = '"' :: body
  | .literal value type => (Lexeme.atom value.toList).Ok ∧ Kind.ofAtom value = .literal value type
  | .blank => True
  | .pasted _ | .vacated => False
  | k => ListReadable k

end Kind

/-- A line of a comment, as the scanner reads it. -/
def CommentLine (line : String) : Prop :=
  ∃ body, line.toList = ';' :: body ∧ (Lexeme.comment body).Ok ∧ dropBlanksEnd (';' :: body) = ';' :: body

/-- A text made of lines of a comment. -/
def CommentText (text : String) : Prop := ∀ line ∈ linesOf text, CommentLine line

/-- A node that can be written and read back, with all its parts. -/
inductive Node.Sound : Node → Prop
  | intro {n : Node} (kind : n.kind.Readable) (comment : ∀ c ∈ n.comment, CommentText c.text)
      (parts : ∀ m ∈ n.kind.parts, m.Sound) : Sound n

/-! ## Comments -/

theorem splitLines_append (a b : List Char) :
    splitLines (a ++ '\n' :: b) = splitLines a ++ splitLines b := by
  induction a with
  | nil => simp [splitLines]
  | cons c a ih =>
      rw [List.cons_append, splitLines, splitLines, ih]
      split
      · rfl
      · cases hs : splitLines a with
        | nil => exact absurd hs (splitLines_ne_nil a)
        | cons line rest => rfl

theorem linesOf_joinLines {texts : List String} (h : texts ≠ []) :
    linesOf (joinLines texts) = texts.flatMap linesOf := by
  induction texts with
  | nil => exact absurd rfl h
  | cons t ts ih =>
      cases ts with
      | nil => rw [joinLines_singleton, List.flatMap_singleton]
      | cons u us =>
          have hjoin : (joinLines (t :: u :: us)).toList =
              t.toList ++ '\n' :: (joinLines (u :: us)).toList := by
            simp only [toList_joinLines, List.map_cons, List.intercalate_cons_cons]
            simp
          have htail := ih (List.cons_ne_nil u us)
          rw [linesOf, hjoin, splitLines_append, List.map_append, List.flatMap_cons, ← htail]
          rfl

theorem commentText_joinLines {texts : List String} (hne : texts ≠ [])
    (h : ∀ t ∈ texts, CommentText t) : CommentText (joinLines texts) := by
  intro line hline
  rw [linesOf_joinLines hne] at hline
  obtain ⟨t, ht, hline⟩ := List.mem_flatMap.1 hline
  exact h t ht line hline

namespace Node

theorem kind_withComment (n : Node) (c : Option Comment) : (n.withComment c).kind = n.kind := rfl

theorem kind_addNotes (n : Node) (notes : List Note) : (n.addNotes notes).kind = n.kind := by
  unfold addNotes
  split
  · rfl
  · split <;> rfl

@[simp] theorem span_addNotes (n : Node) (notes : List Note) : (n.addNotes notes).span = n.span := by
  unfold addNotes
  split
  · rfl
  · split <;> rfl

theorem sound_iff {n : Node} : n.Sound ↔ n.kind.Readable ∧ (∀ c ∈ n.comment, CommentText c.text) ∧
    ∀ m ∈ n.kind.parts, m.Sound := by
  constructor
  · rintro ⟨hkind, hcomment, hparts⟩
    exact ⟨hkind, hcomment, hparts⟩
  · rintro ⟨hkind, hcomment, hparts⟩
    exact ⟨hkind, hcomment, hparts⟩

theorem Sound.addNotes {n : Node} (h : n.Sound) {notes : List Note}
    (hnotes : ∀ t ∈ notes, CommentText t.text) : (n.addNotes notes).Sound := by
  obtain ⟨hkind, hcomment, hparts⟩ := sound_iff.1 h
  rw [sound_iff, kind_addNotes]
  refine ⟨hkind, ?_, hparts⟩
  unfold Node.addNotes
  split
  · exact hcomment
  · split
    · exact hcomment
    · rename_i first rest hsorted
      have hall : ∀ t ∈ first :: rest, CommentText t.text := by
        intro t ht
        rw [← hsorted, Note.sorted, List.mem_mergeSort, List.mem_append] at ht
        rcases ht with ht | ht
        · exact hnotes t ht
        · simp only [Option.mem_toList, Option.map_eq_some_iff] at ht
          obtain ⟨c, hc, rfl⟩ := ht
          exact hcomment c hc
      rintro c ⟨⟩
      refine commentText_joinLines (by simp) ?_
      intro text htext
      obtain ⟨t, ht, rfl⟩ := List.mem_map.1 htext
      exact hall t ht

theorem raw_of_eq {n : Node} (h : n.kind.raw = n.kind) : n.raw = n := by
  cases n
  rw [raw, h]

theorem raw_bare (n : Node) : n.raw.bare = { n.bare with kind := n.kind.raw.map bare } := by
  rw [bare_eq, bare_eq n]
  rfl

theorem raw_of_symbol {n : Node} (h : n.symbol?.isSome) : n.raw = n := by
  obtain ⟨name, hname⟩ := Option.isSome_iff_exists.1 h
  refine raw_of_eq ?_
  rw [kind_of_symbol? hname]
  rfl

theorem symbol?_addNotes (n : Node) (notes : List Note) : (n.addNotes notes).symbol? = n.symbol? := by
  unfold symbol?
  rw [kind_addNotes]

end Node

/-! ## Elements and what they are recognised as -/

namespace Reader

theorem raw_bare_of_forall₂ {ns ms : List Node} (h : List.Forall₂ (fun n m => m.raw.bare = n.bare) ns ms) :
    (ms.map Node.raw).map Node.bare = ns.map Node.bare := by
  induction h with
  | nil => rfl
  | cons hm _ ih => rw [List.map_cons, List.map_cons, List.map_cons, hm, ih]

/-- A list given another kind goes back to what it was where it stands on its own. -/
theorem rekind_raw_bare {n : Node} {k : Kind Node} (h : n.kind = k.raw) :
    (rekind n k).raw.bare = n.bare := by
  rw [Node.raw_bare, rekind_bare, Node.bare_eq n, h]
  rfl

end Reader

/-! ## Every recognised kind is readable -/

/-- A node that is read as it is where it stands on its own. -/
structure Node.Standing (n : Node) : Prop where
  sound : n.Sound
  raw : n.kind.raw = n.kind

theorem Node.Standing.raw_eq {n : Node} (h : n.Standing) : n.raw = n := Node.raw_of_eq h.raw

theorem Node.Standing.addNotes {n : Node} (h : n.Standing) {notes : List Note}
    (hnotes : ∀ t ∈ notes, CommentText t.text) : (n.addNotes notes).Standing :=
  ⟨h.sound.addNotes hnotes, by rw [Node.kind_addNotes, h.raw]⟩

/-- The kind of a node that is read as it is where it stands on its own. -/
structure Kind.Standing (k : Kind Node) : Prop where
  readable : k.Readable
  parts : ∀ m ∈ k.parts, m.Sound
  raw : k.raw = k

namespace Reader

theorem recognise_keyword {keyword : String} {tail : List Node} {k : Kind Node}
    (h : Formed keyword (keywordNode keyword :: tail) k) : recognise (keywordNode keyword :: tail) = k := by
  obtain ⟨shape, hform, hk⟩ := h.form?_eq_some
  have hshape : shapeOf? (keywordNode keyword :: tail) = some shape := hform
  have hpass : passKeywordComment (keywordNode keyword :: tail) = keywordNode keyword :: tail := by
    cases tail <;> rfl
  rw [recognise_of_some hshape, hpass, hk, Option.getD_some]

/-- A form that moves no comment is readable if it is written with the elements it was made of. -/
theorem listReadable_of_form {keyword : String} {tail : List Node} {k : Kind Node}
    (h : Formed keyword (keywordNode keyword :: tail) k) (hmoves : movesComment k = false)
    (hraw : k.raw = k) (hlists : k.plainLists = [])
    (hwritten : k.written.map Node.bare = (keywordNode keyword :: tail).map Node.bare) :
    k.ListReadable := by
  have hrec := recognise_keyword h
  have hcalm : Calm (keywordNode keyword :: tail) := by
    rintro _ next rest ⟨⟩ _
    exact ⟨rfl, by simp [hrec, hmoves]⟩
  refine ⟨by simp [hlists], hcalm.of_bare hwritten, ?_⟩
  rw [recognise_congr hcalm hwritten, hrec, hraw]

theorem parts_applicationOf (items : List Node) : (applicationOf items).parts = items := by
  cases items <;> simp [applicationOf]

theorem sound_rekind {n : Node} {k : Kind Node} (hn : n.Sound)
    (hreadable : n.kind.Readable → k.Readable) (hparts : k.parts = n.kind.parts) :
    (rekind n k).Sound := by
  obtain ⟨hkind, hcomment, hp⟩ := Node.sound_iff.1 hn
  exact .intro (hreadable hkind) hcomment (by rwa [show (rekind n k).kind = k from rfl, hparts])

theorem sound_identifiers {n : Node} {ids : List Node} (hn : n.Sound)
    (hkind : n.kind = applicationOf ids) : (rekind n (.identifiers ids)).Sound := by
  refine sound_rekind hn ?_ ?_ <;> rw [hkind]
  · cases ids with
    | nil =>
        have hnone : shapeOf? [] = none := rfl
        exact fun _ => ⟨by simp [Kind.plainLists, hnone], calm_of_none hnone, rfl⟩
    | cons func args => exact fun h => ⟨h.plain, h.calm, h.back⟩
  · rw [parts_applicationOf]
    simp

theorem shapeOf?_cons_of_symbol?_eq {a b : Node} (h : a.symbol? = b.symbol?) (as bs : List Node) :
    shapeOf? (a :: as) = shapeOf? (b :: bs) := by
  simp [shapeOf?, h]

theorem sound_notes {n : Node} (h : n.Sound) :
    ∀ t ∈ (n.comment.map Comment.note).toList, CommentText t.text := by
  intro t ht
  simp only [Option.mem_toList, Option.map_eq_some_iff] at ht
  obtain ⟨c, hc, rfl⟩ := ht
  exact (Node.sound_iff.1 h).2.1 c hc

theorem map_raw_of_symbols {ids : List Node} (h : ∀ i ∈ ids, i.symbol?.isSome) :
    ids.map Node.raw = ids :=
  (List.map_congr_left fun i hi => Node.raw_of_symbol (h i hi)).trans (List.map_id ids)

theorem symbols?_listNode {ids : List Node} (h : ∀ i ∈ ids, i.symbol?.isSome) :
    symbols? (listNode ids) = some ids := by
  cases ids with
  | nil => rfl
  | cons id ids =>
      have hall : (id :: ids).all (·.symbol?.isSome) = true := List.all_eq_true.2 h
      exact if_pos hall

theorem functionDef_standing {target name body : Node} {params : List Node}
    (htarget : target.Standing) (hbody : body.Standing)
    (hsymbols : symbols? target = some (name :: params)) (span : Span) :
    Kind.Standing (.functionDef (name.addNotes (target.comment.map Comment.note).toList)
      (.make (.identifiers params) span) body) := by
  obtain ⟨hkind, hall⟩ := symbols?_eq_some hsymbols
  obtain ⟨hreadable, -, hparts⟩ := Node.sound_iff.1 htarget.sound
  rw [hkind] at hreadable
  rw [hkind, parts_applicationOf] at hparts
  generalize hnamed : name.addNotes (target.comment.map Comment.note).toList = named
  have hname : named.symbol? = name.symbol? := by rw [← hnamed, Node.symbol?_addNotes]
  have hids : ∀ i ∈ named :: params, i.symbol?.isSome := by
    intro i hi
    rcases List.mem_cons.1 hi with rfl | hi
    · rw [hname]
      exact hall name List.mem_cons_self
    · exact hall i (List.mem_cons_of_mem name hi)
  have hraw : named.raw :: params.map Node.raw = named :: params := map_raw_of_symbols hids
  have hheader : (Node.make (.identifiers params) span).header = params := rfl
  have hplain : shapeOf? (named :: params) = none := by
    have hnone := hreadable.plain _ List.mem_cons_self
    rwa [← List.map_cons, map_raw_of_symbols hall, shapeOf?_cons_of_symbol?_eq hname.symm _ params]
      at hnone
  refine ⟨⟨?_, ?_, ?_⟩, ?_, rfl⟩
  · simpa [Kind.plainLists, hheader, hraw] using hplain
  · rintro _ _ _ ⟨⟩ _
    exact ⟨rfl, fun _ => rfl⟩
  · have hdefine : Formed "define" [keywordNode "define", listNode (named :: params), body]
        (.functionDef named (.make (.identifiers params) (paramsSpan named params)) body) :=
      .functionDef (symbols?_listNode hids)
    rw [Kind.written, hheader, hraw, hbody.raw_eq, recognise_keyword hdefine]
    simp [Kind.map, Kind.raw]
  · intro m hm
    rcases List.mem_cons.1 hm with rfl | hm
    · rw [← hnamed]
      exact (hparts name List.mem_cons_self).addNotes (sound_notes htarget.sound)
    · rcases List.mem_append.1 hm with hm | hm
      · exact hparts m (List.mem_cons_of_mem name hm)
      · rw [List.mem_singleton.1 hm]
        exact hbody.sound

theorem map_raw_of_standing {items : List Node} (h : ∀ n ∈ items, n.Standing) :
    items.map Node.raw = items :=
  (List.map_congr_left fun n hn => (h n hn).raw_eq).trans (List.map_id items)

theorem clause?_sound {n c : Node} (hn : n.Sound) (h : clause? n = some c) : c.Sound := by
  obtain ⟨test, body, hkind, rfl⟩ := clause?_eq_some h
  refine sound_rekind hn ?_ ?_ <;> rw [hkind]
  · exact fun h => ⟨h.plain, h.calm, h.back⟩
  · rfl

theorem clause?_raw_bare {n c : Node} (h : clause? n = some c) : c.raw.bare = n.bare := by
  obtain ⟨test, body, hkind, rfl⟩ := clause?_eq_some h
  exact rekind_raw_bare hkind

/-- A binding as it stands in the list of a `let`. -/
def IsBinding (n : Node) : Prop :=
  ∃ name value, n.kind = .binding name value ∧ name.symbol?.isSome

theorem binding?_sound {n b : Node} (hn : n.Sound) (h : binding? n = some b) : b.Sound ∧ IsBinding b := by
  obtain ⟨name, value, hkind, hsym, rfl⟩ := binding?_eq_some h
  refine ⟨sound_rekind hn ?_ ?_, name, value, rfl, hsym⟩ <;> rw [hkind]
  · exact fun h => ⟨h.plain, h.calm, h.back⟩
  · rfl

theorem shapeOf?_bindings {bs : List Node} (h : ∀ b ∈ bs, IsBinding b) :
    shapeOf? (bs.map Node.raw) = none := by
  cases bs with
  | nil => rfl
  | cons b bs =>
      obtain ⟨name, value, hkind, -⟩ := h b List.mem_cons_self
      have hsym : b.raw.symbol? = none := by
        simp [Node.symbol?, Node.raw, hkind, Kind.raw]
      simp [shapeOf?, hsym]

theorem mapM_binding?_raw {bs : List Node} (h : ∀ b ∈ bs, IsBinding b) :
    ∃ bs', (bs.map Node.raw).mapM binding? = some bs' ∧ bs'.map Node.bare = bs.map Node.bare := by
  induction bs with
  | nil => exact ⟨[], rfl, rfl⟩
  | cons b bs ih =>
      obtain ⟨name, value, hkind, hsym⟩ := h b List.mem_cons_self
      obtain ⟨bs', hbs', hbare⟩ := ih fun b hb => h b (List.mem_cons_of_mem _ hb)
      have hb : binding? b.raw = some (rekind b.raw (.binding name value)) := by
        simp [binding?, Node.raw, hkind, Kind.raw, hsym]
      refine ⟨rekind b.raw (.binding name value) :: bs', ?_, ?_⟩
      · simp [List.mapM_cons, hb, hbs']
      · rw [List.map_cons, List.map_cons, hbare, rekind_bare, Node.bare_eq b, hkind]
        rfl

theorem bindings?_listNode (items : List Node) : bindings? (listNode items) = items.mapM binding? := by
  cases items <;> rfl

theorem letIn_listReadable {form : LetForm} {bs : List Node} {body : Node}
    (hbs : ∀ b ∈ bs, IsBinding b) (hbody : body.raw = body) :
    (Kind.letIn form bs body).ListReadable := by
  refine ⟨by simpa [Kind.plainLists] using shapeOf?_bindings hbs, ?_, ?_⟩
  · rintro _ _ _ ⟨⟩ _
    exact ⟨rfl, fun _ => rfl⟩
  · obtain ⟨bs', hbs', hbare⟩ := mapM_binding?_raw hbs
    rw [← bindings?_listNode] at hbs'
    have hlet : Formed form.keyword [keywordNode form.keyword, listNode (bs.map Node.raw), body]
        (.letIn form bs' body) := by
      cases bs' with
      | nil => exact .letNothing form hbs'
      | cons first rest => exact .letIn form hbs'
    rw [Kind.written, hbody, recognise_keyword hlet]
    simp [Kind.map, Kind.raw, hbare]

theorem letIn_standing {form : LetForm} {list body first : Node} {rest : List Node} (hlist : list.Sound)
    (hbody : body.Standing) (hbs : bindings? list = some (first :: rest)) :
    (Kind.letIn form (first.addNotes (list.comment.map Comment.note).toList :: rest) body).Standing := by
  obtain ⟨inner, hkind, hmap⟩ := bindings?_eq_some hbs
  have hinner := (Node.sound_iff.1 hlist).2.2
  rw [hkind, parts_applicationOf] at hinner
  have hbindings : ∀ b ∈ first :: rest, b.Sound ∧ IsBinding b := by
    intro b hb
    obtain ⟨n, hn, hbinding⟩ := exists_of_mapM hmap hb
    exact binding?_sound (hinner n hn) hbinding
  have hall : ∀ b ∈ first.addNotes (list.comment.map Comment.note).toList :: rest, b.Sound ∧ IsBinding b := by
    obtain ⟨⟨hsound, hbinding⟩, hrest⟩ := List.forall_mem_cons.1 hbindings
    refine List.forall_mem_cons.2 ⟨⟨hsound.addNotes (sound_notes hlist), ?_⟩, hrest⟩
    rwa [IsBinding, Node.kind_addNotes]
  refine ⟨letIn_listReadable (fun b hb => (hall b hb).2) hbody.raw_eq, ?_, rfl⟩
  intro m hm
  rcases List.mem_append.1 hm with hm | hm
  · exact (hall m hm).1
  · rw [List.mem_singleton.1 hm]
    exact hbody.sound

/-- What a form makes of nodes that are read as they are is read as it is. -/
theorem Formed.standing {keyword : String} {items : List Node} {k : Kind Node} (h : Formed keyword items k)
    (hitems : ∀ n ∈ items, n.Standing) : k.Standing := by
  cases h with
  | @variableDef head name body symbol =>
      have hname := hitems name (by simp)
      have hbody := hitems body (by simp)
      refine ⟨listReadable_of_form (.variableDef symbol) rfl rfl rfl ?_, ?_, rfl⟩
      · simp [Kind.written, hname.raw_eq, hbody.raw_eq]
      · simp [hname.sound, hbody.sound]
  | functionDef header => exact functionDef_standing (hitems _ (by simp)) (hitems _ (by simp)) header _
  | @structDef head name fields ids symbol list =>
      have hname := hitems name (by simp)
      have hkind := (symbols?_eq_some list).1
      refine ⟨listReadable_of_form (.structDef symbol list) rfl rfl rfl ?_, ?_, rfl⟩
      · simp [Kind.written, hname.raw_eq, rekind_raw_bare (k := .identifiers ids) hkind]
      · simp [hname.sound, sound_identifiers (hitems fields (by simp)).sound hkind]
  | @lambda head args body ids list =>
      have hbody := hitems body (by simp)
      have hkind := (symbols?_eq_some list).1
      refine ⟨listReadable_of_form (.lambda list) rfl rfl rfl ?_, ?_, rfl⟩
      · simp [Kind.written, hbody.raw_eq, rekind_raw_bare (k := .identifiers ids) hkind]
      · simp [hbody.sound, sound_identifiers (hitems args (by simp)).sound hkind]
  | @oneArm head test yes =>
      have htest := hitems test (by simp)
      have hyes := hitems yes (by simp)
      refine ⟨listReadable_of_form .oneArm rfl rfl rfl ?_, ?_, rfl⟩
      · simp [Kind.written, htest.raw_eq, hyes.raw_eq]
      · simp [htest.sound, hyes.sound]
  | @twoArms head test yes no =>
      have htest := hitems test (by simp)
      have hyes := hitems yes (by simp)
      have hno := hitems no (by simp)
      refine ⟨listReadable_of_form .twoArms rfl rfl rfl ?_, ?_, rfl⟩
      · simp [Kind.written, htest.raw_eq, hyes.raw_eq, hno.raw_eq]
      · simp [htest.sound, hyes.sound, hno.sound]
  | @cond _ clauses all =>
      have hwritten : Formed "cond" (keywordNode "cond" :: items.drop 1) (.cond clauses) := .cond all
      refine ⟨listReadable_of_form hwritten rfl rfl rfl ?_, ?_, rfl⟩
      · have hbare := raw_bare_of_forall₂ ((forall₂_of_mapM all).imp fun _ _ => clause?_raw_bare)
        simp only [Kind.written, List.map_cons, hbare]
      · have hsound : ∀ c ∈ clauses, c.Sound := by
          intro c hc
          obtain ⟨n, hn, hclause⟩ := exists_of_mapM all hc
          exact clause?_sound (hitems n (List.mem_of_mem_drop hn)).sound hclause
        simpa using hsound
  | @letNothing form head list body empty =>
      have hbody := (hitems body (by simp)).addNotes (sound_notes (hitems list (by simp)).sound)
      refine ⟨letIn_listReadable (by simp) hbody.raw_eq, ?_, rfl⟩
      simpa using hbody.sound
  | letIn form bound => exact letIn_standing (hitems _ (by simp)).sound (hitems _ (by simp)) bound
  | @guarded form head predicate exprs =>
      have hpredicate := hitems predicate (by simp)
      have hexprs : ∀ n ∈ exprs, n.Standing := fun n hn => hitems n (by simp [hn])
      refine ⟨listReadable_of_form (.guarded form) rfl rfl rfl ?_, ?_, rfl⟩
      · simp [Kind.written, hpredicate.raw_eq, map_raw_of_standing hexprs]
      · simpa [hpredicate.sound] using fun n hn => (hexprs n hn).sound
  | sequence =>
      have hrest : ∀ n ∈ items.drop 1, n.Standing := fun n hn => hitems n (List.mem_of_mem_drop hn)
      have hwritten : Formed "begin" (keywordNode "begin" :: items.drop 1) (.sequence (items.drop 1)) := .sequence
      refine ⟨listReadable_of_form hwritten rfl rfl rfl ?_, ?_, rfl⟩
      · rw [Kind.written, map_raw_of_standing hrest]
      · simpa using fun n hn => (hrest n hn).sound

theorem passKeywordComment_standing {items : List Node} (h : ∀ n ∈ items, n.Standing) :
    ∀ n ∈ passKeywordComment items, n.Standing := by
  rcases passKeywordComment_cases items with hpass | ⟨keyword, next, rest, c, rfl, hc, hpass⟩
  · rwa [hpass]
  · obtain ⟨hkeyword, hnext, hrest⟩ := List.forall_mem_cons.1 h |>.imp_right List.forall_mem_cons.1
    obtain ⟨hkind, hcomment, hparts⟩ := Node.sound_iff.1 hkeyword.sound
    rw [hpass]
    refine List.forall_mem_cons.2 ⟨⟨.intro hkind (by simp [Node.withComment]) hparts, hkeyword.raw⟩,
      List.forall_mem_cons.2 ⟨hnext.addNotes ?_, hrest⟩⟩
    rintro t ht
    rw [List.mem_singleton.1 ht]
    exact hcomment c hc

theorem passKeywordComment_head (keyword next : Node) (rest : List Node) :
    ∃ keyword' next', passKeywordComment (keyword :: next :: rest) = keyword' :: next' :: rest ∧
      keyword'.symbol? = keyword.symbol? ∧ keyword'.comment = none := by
  cases hc : keyword.comment with
  | none => exact ⟨keyword, next, passKeywordComment_of_none hc, rfl, hc⟩
  | some c =>
      refine ⟨keyword.withComment none, next.addNotes [c.note], ?_, rfl, rfl⟩
      rw [passKeywordComment, hc]

theorem shapeOf?_passKeywordComment (items : List Node) :
    shapeOf? (passKeywordComment items) = shapeOf? items := by
  match items with
  | [] | [_] => rfl
  | keyword :: next :: rest =>
      obtain ⟨keyword', next', he, hsym, -⟩ := passKeywordComment_head keyword next rest
      rw [he]
      exact shapeOf?_cons_of_symbol?_eq hsym _ _

theorem passKeywordComment_twice (items : List Node) :
    passKeywordComment (passKeywordComment items) = passKeywordComment items := by
  match items with
  | [] | [_] => rfl
  | keyword :: next :: rest =>
      obtain ⟨keyword', next', he, -, hc⟩ := passKeywordComment_head keyword next rest
      rw [he, passKeywordComment_of_none hc]

theorem recognise_passKeywordComment {items : List Node} (h : (shapeOf? items).isSome) :
    recognise (passKeywordComment items) = recognise items := by
  obtain ⟨shape, hshape⟩ := Option.isSome_iff_exists.1 h
  rw [recognise_of_some hshape, recognise_of_some ((shapeOf?_passKeywordComment items).trans hshape),
    passKeywordComment_twice]

theorem applicationOf_standing {items : List Node} (h : ∀ n ∈ items, n.Standing)
    (hshape : shapeOf? items = none) : (applicationOf items).Standing := by
  refine ⟨?_, ?_, by cases items <;> rfl⟩
  · cases items with
    | nil => exact ⟨by simp [applicationOf, Kind.plainLists], calm_of_none hshape, rfl⟩
    | cons func args =>
        have hwritten : func.raw :: args.map Node.raw = func :: args := map_raw_of_standing h
        refine ⟨?_, ?_, ?_⟩
        · simpa [applicationOf, Kind.plainLists, hwritten] using hshape
        · rw [applicationOf, Kind.written, hwritten]
          exact calm_of_none hshape
        · rw [applicationOf, Kind.written, hwritten, recognise_of_none hshape]
          rfl
  · rw [parts_applicationOf]
    exact fun m hm => (h m hm).sound

theorem unknown_standing {items : List Node} (h : ∀ n ∈ items, n.Standing)
    (hpass : passKeywordComment items = items) (hrec : recognise items = .unknown items) :
    (Kind.unknown items).Standing := by
  have hwritten : items.map Node.raw = items := map_raw_of_standing h
  refine ⟨⟨by simp [Kind.plainLists], ?_, ?_⟩, ?_, rfl⟩
  · rw [Kind.written, hwritten]
    rintro keyword next rest rfl _
    obtain ⟨keyword', next', he, -, hc⟩ := passKeywordComment_head keyword next rest
    rw [hpass] at he
    obtain ⟨rfl, -⟩ := List.cons.inj he
    exact ⟨hc, by simp [hrec, movesComment]⟩
  · rw [Kind.written, hwritten, hrec]
    rfl
  · intro m hm
    refine (h m ?_).sound
    simpa using hm

/-- Whatever recognition yields can be written and read back. -/
theorem recognise_standing {items : List Node} (h : ∀ n ∈ items, n.Standing) :
    (recognise items).Standing := by
  have hpass := passKeywordComment_standing h
  rcases recognise_cases items with ⟨hnone, hrec⟩ | ⟨keyword, -, hshape, hformed | hrec⟩
  · rw [hrec]
    exact applicationOf_standing h hnone
  · exact hformed.standing hpass
  · rw [hrec]
    refine unknown_standing hpass (passKeywordComment_twice items) ?_
    rw [recognise_passKeywordComment hshape, hrec]

/-! ## The reader -/

/-- A property of elements that holds of leaves and comments, and passes from the elements of a list
to the list, holds of all elements read. -/
theorem elementsFrom_all {Q : Element → Prop} {ts : List Token} {stack : List Frame}
    {elements es : List Element}
    (hleaf : ∀ t ∈ ts, t.kind = .atom ∨ t.kind = .string → Q (.expr (leaf t)))
    (hnote : ∀ t ∈ ts, t.kind = .comment → Q (.note ⟨t.span, t.text⟩))
    (hlist : ∀ es span, (∀ e ∈ es, Q e) → Q (.expr (list es span)))
    (helements : ∀ e ∈ elements, Q e) (hstack : ∀ f ∈ stack, ∀ e ∈ f.before, Q e)
    (h : elementsFrom ts stack elements = .ok es) : ∀ e ∈ es, Q e := by
  have hcons : ∀ {e : Element} {es : List Element}, Q e → (∀ e ∈ es, Q e) → ∀ x ∈ e :: es, Q x :=
    fun he hes => List.forall_mem_cons.2 ⟨he, hes⟩
  fun_induction elementsFrom ts stack elements with
  | case1 elements =>
      cases h
      simpa using helements
  | case2 => cases h
  | case3 elements t ts stack b hkind ih =>
      refine ih (List.forall_mem_cons.1 hleaf).2 (List.forall_mem_cons.1 hnote).2 (by simp) ?_ h
      exact List.forall_mem_cons.2 ⟨helements, hstack⟩
  | case4 => cases h
  | case5 elements t ts hkind f stack ih =>
      obtain ⟨hbefore, hstack⟩ := List.forall_mem_cons.1 hstack
      exact ih (List.forall_mem_cons.1 hleaf).2 (List.forall_mem_cons.1 hnote).2
        (hcons (hlist _ _ helements) hbefore) hstack h
  | case6 => cases h
  | case7 elements t ts stack hkind ih =>
      obtain ⟨ht, hnote⟩ := List.forall_mem_cons.1 hnote
      exact ih (List.forall_mem_cons.1 hleaf).2 hnote (hcons (ht hkind) helements) hstack h
  | case8 elements t ts stack hkind ih =>
      obtain ⟨ht, hleaf⟩ := List.forall_mem_cons.1 hleaf
      exact ih hleaf (List.forall_mem_cons.1 hnote).2 (hcons (ht (.inl hkind)) helements) hstack h
  | case9 elements t ts stack hkind ih =>
      obtain ⟨ht, hleaf⟩ := List.forall_mem_cons.1 hleaf
      exact ih hleaf (List.forall_mem_cons.1 hnote).2 (hcons (ht (.inr hkind)) helements) hstack h

end Reader

namespace Element

section Attach

variable {P : Node → Prop} {N : Note → Prop}

/-- The expressions and the notes of a walk have the two properties. -/
def Walk.All (P : Node → Prop) (N : Note → Prop) (w : Walk) : Prop :=
  (∀ n ∈ w.done, P n) ∧ ∀ t ∈ w.waiting, N t

theorem Walk.All.step (hadd : ∀ n notes, P n → (∀ t ∈ notes, N t) → P (n.addNotes notes)) {w : Walk}
    (hw : w.All P N) {e : Element} (hexpr : ∀ n, e = .expr n → P n) (hnote : ∀ t, e = .note t → N t) :
    (w.step e).All P N := by
  obtain ⟨hdone, hwaiting⟩ := hw
  fun_cases Walk.step w e with
  | case1 n => exact ⟨List.forall_mem_cons.2 ⟨hadd n _ (hexpr n rfl) hwaiting, hdone⟩, by simp⟩
  | case2 t prev before hd hw hline =>
      rw [hd] at hdone
      obtain ⟨hprev, hbefore⟩ := List.forall_mem_cons.1 hdone
      exact ⟨List.forall_mem_cons.2 ⟨hadd prev _ hprev (by simpa using hnote t rfl), hbefore⟩, by simp⟩
  | case3 t prev before hd hw hline => exact ⟨hdone, by simpa using hnote t rfl⟩
  | case4 t hnot =>
      refine ⟨hdone, ?_⟩
      simp only [List.mem_append, List.mem_singleton]
      rintro u (hu | rfl)
      · exact hwaiting u hu
      · exact hnote u rfl

/-- A property of nodes that hanging comments keeps holds of the expressions of a list if it held of
them before. -/
theorem attach_all (hadd : ∀ n notes, P n → (∀ t ∈ notes, N t) → P (n.addNotes notes))
    {es : List Element} (hexpr : ∀ n, .expr n ∈ es → P n) (hnote : ∀ t, .note t ∈ es → N t) :
    ∀ n ∈ attach es, P n := by
  have hwalk : (es.foldl Walk.step ⟨[], []⟩).All P N := by
    refine List.foldlRecOn es Walk.step (motive := Walk.All P N) (by simp [Walk.All]) ?_
    intro w hw e he
    exact hw.step hadd (fun n hn => hexpr n (hn ▸ he)) fun t ht => hnote t (ht ▸ he)
  unfold attach Walk.finish
  split
  · simp
  · rename_i prev before hdone
    obtain ⟨hall, hwaiting⟩ := hwalk
    rw [hdone] at hall
    obtain ⟨hprev, hbefore⟩ := List.forall_mem_cons.1 hall
    intro n hn
    rcases List.mem_cons.1 (List.mem_reverse.1 hn) with rfl | hn
    · exact hadd prev _ hprev hwaiting
    · exact hbefore n hn

end Attach

end Element

/-! ## Documents that were read -/

theorem Lexeme.mem_tokens_of_token? {x y : List Lexeme} {l : Lexeme} {p : Pos} {t : Token}
    (h : l.token? (p.advanceOver (text x)) = some t) : t ∈ tokens p (x ++ l :: y) := by
  rw [tokens_append, tokens, h]
  exact List.mem_append_right _ List.mem_cons_self

theorem Lexeme.mem_tokens_iff {t : Token} {p : Pos} {ls : List Lexeme} :
    t ∈ tokens p ls ↔ ∃ x l y, ls = x ++ l :: y ∧ l.token? (p.advanceOver (text x)) = some t := by
  constructor
  · intro h
    induction ls generalizing p with
    | nil => cases h
    | cons l ls ih =>
        rw [tokens, List.mem_append] at h
        rcases h with h | h
        · exact ⟨[], l, ls, rfl, by simpa using h⟩
        · obtain ⟨x, m, y, rfl, ht⟩ := ih h
          refine ⟨l :: x, m, y, rfl, ?_⟩
          rwa [text_cons, Pos.advanceOver_append]
  · rintro ⟨x, l, y, rfl, ht⟩
    exact mem_tokens_of_token? ht

theorem Lexeme.mem_tokens {t : Token} {p : Pos} {ls : List Lexeme} (h : t ∈ tokens p ls) :
    ∃ l ∈ ls, ∃ q, l.token? q = some t := by
  obtain ⟨x, l, y, rfl, ht⟩ := mem_tokens_iff.1 h
  exact ⟨l, by simp, _, ht⟩

theorem Kind.ofAtom_standing {cs : List Char} (h : (Lexeme.atom cs).Ok) :
    (Kind.ofAtom (String.ofList cs)).Standing := by
  generalize htext : String.ofList cs = text
  have hok : (Lexeme.atom text.toList).Ok := by rwa [← htext, String.toList_ofList]
  have hcases : Kind.ofAtom text = .blank ∨
      ∃ type, type ≠ .string ∧ Kind.ofAtom text = .literal text type := by
    unfold Kind.ofAtom
    split
    · exact .inl rfl
    · split
      · exact .inr ⟨.boolean, by decide, rfl⟩
      · split
        · exact .inr ⟨.number, by decide, rfl⟩
        · exact .inr ⟨.symbol, by decide, rfl⟩
  rcases hcases with hk | ⟨type, htype, hk⟩
  · rw [hk]
    exact ⟨trivial, by simp, rfl⟩
  · rw [hk]
    refine ⟨?_, by simp, rfl⟩
    cases type with
    | string => exact absurd rfl htype
    | _ => exact ⟨hok, hk⟩

theorem Node.standing_make {k : Kind Node} (h : k.Standing) (span : Span) :
    (Node.make k span).Standing :=
  ⟨.intro h.readable (by simp [Node.make]) h.parts, h.raw⟩

theorem leaf_standing {l : Lexeme} (hl : l.Ok) {q : Pos} {t : Token} (ht : l.token? q = some t)
    (hkind : t.kind = .atom ∨ t.kind = .string) : (leaf t).Standing := by
  cases l with
  | atom cs =>
      cases ht
      exact Node.standing_make (Kind.ofAtom_standing hl) _
  | string body =>
      cases ht
      have hstanding : (Kind.literal (String.ofList ('"' :: body)) .string).Standing :=
        ⟨⟨body, hl, String.toList_ofList⟩, by simp, rfl⟩
      exact Node.standing_make hstanding _
  | _ => cases ht <;> simp [Token.ofChars] at hkind

theorem dropBlanksEnd_comment_ne_nil (body : List Char) : dropBlanksEnd (';' :: body) ≠ [] := by
  intro hnil
  exact absurd (List.rdropWhile_eq_nil_iff.1 hnil ';' List.mem_cons_self) (by decide)

theorem commentText_of_lexeme {body : List Char} (h : (Lexeme.comment body).Ok) :
    CommentText (String.ofList (dropBlanksEnd (';' :: body))) := by
  have hprefix : dropBlanksEnd (';' :: body) <+: ';' :: body := List.rdropWhile_prefix isBlank _
  have htwice : dropBlanksEnd (dropBlanksEnd (';' :: body)) = dropBlanksEnd (';' :: body) :=
    List.rdropWhile_idempotent isBlank _
  cases hcs : dropBlanksEnd (';' :: body) with
  | nil => exact absurd hcs (dropBlanksEnd_comment_ne_nil body)
  | cons c rest =>
      rw [hcs] at hprefix htwice
      obtain ⟨rfl, hrest⟩ := List.cons_prefix_cons.1 hprefix
      have hok : (Lexeme.comment rest).Ok := fun hmem => h (hrest.subset hmem)
      have hlines : splitLines (';' :: rest) = [';' :: rest] := by
        have hfree : ∀ l ∈ [';' :: rest], '\n' ∉ l := by simpa using show '\n' ∉ rest from hok
        have hsplit := List.splitOn_intercalate '\n' hfree (by simp)
        rwa [List.intercalate_singleton, ← splitLines_eq] at hsplit
      intro line hline
      rw [linesOf, String.toList_ofList, hlines, List.map_singleton, List.mem_singleton] at hline
      subst hline
      exact ⟨rest, String.toList_ofList, hok, htwice⟩

theorem note_standing {l : Lexeme} (hl : l.Ok) {q : Pos} {t : Token} (ht : l.token? q = some t)
    (hkind : t.kind = .comment) : CommentText t.text := by
  cases l with
  | comment body =>
      cases ht
      exact commentText_of_lexeme hl
  | _ => cases ht <;> simp [Token.ofChars] at hkind

/-- An expression that is read as it is, or a comment. -/
def Element.Standing : Element → Prop
  | .expr n => n.Standing
  | .note t => CommentText t.text

theorem attach_standing {es : List Element} (h : ∀ e ∈ es, e.Standing) :
    ∀ n ∈ Element.attach es, n.Standing :=
  Element.attach_all (fun _ _ hn hnotes => hn.addNotes hnotes) (fun _ hn => h _ hn)
    (N := fun t => CommentText t.text) fun _ ht => h _ ht

open Lexeme in
/-- What the reader accepts: a run of lexemes whose tokens are read as elements. -/
theorem readDocument_eq_ok_iff {source : String} {roots : List Node} :
    readDocument source = .ok roots ↔ ∃ ls es, Run ls ∧ text ls = source.toList ∧
      elementsFrom (tokens .zero ls) [] [] = .ok es ∧ Element.attach es = roots := by
  unfold readDocument tokenize
  constructor
  · intro h
    split at h
    · cases h
    · rename_i ts htokens
      obtain ⟨ls, hrun, htext, rfl⟩ := exists_run htokens
      cases hes : elementsFrom (tokens .zero ls) [] [] with
      | error e => rw [hes] at h; cases h
      | ok es =>
          rw [hes] at h
          exact ⟨ls, es, hrun, htext, hes, Except.ok.inj h⟩
  · rintro ⟨ls, es, hrun, htext, hes, rfl⟩
    rw [← htext, tokensFrom_run hrun]
    exact congrArg (Except.map Element.attach) hes

/-- Every root of a document that was read can be written and read back. -/
theorem readDocument_standing {text : String} {roots : List Node} (h : readDocument text = .ok roots) :
    ∀ n ∈ roots, n.Standing := by
  obtain ⟨ls, es, hrun, -, hes, rfl⟩ := readDocument_eq_ok_iff.1 h
  refine attach_standing (elementsFrom_all ?_ ?_ ?_ (by simp) (by simp) hes)
  · intro t ht hkind
    obtain ⟨l, hl, q, hq⟩ := Lexeme.mem_tokens ht
    exact leaf_standing (hrun.ok l hl) hq hkind
  · intro t ht hkind
    obtain ⟨l, hl, q, hq⟩ := Lexeme.mem_tokens ht
    exact note_standing (hrun.ok l hl) hq hkind
  · intro es span hes
    exact Node.standing_make (recognise_standing (attach_standing (by simpa using hes))) span

end TreeEdit
