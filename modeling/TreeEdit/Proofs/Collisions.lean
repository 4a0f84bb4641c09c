import Mathlib
import TreeEdit.Proofs.Stamps
import TreeEdit.Proofs.Territory

/-!
# What fingerprints tell apart

The byte string of a node can be read back: its name ends at the first zero, a text and a list have their
length in front, and everything else has a fixed length. So byte strings are equal only for equal contents
(`Content.bytes_injective`). Lengths are written modulo `2 ^ 64`, which does no harm: a byte string has at
most one part without a known length, and the length of the whole decides.

What is left are collisions of the hash itself. Where there are none, equal fingerprints mean structurally
equal nodes: `fingerprints_exact_up_to_collisions`.
-/

namespace TreeEdit

namespace Fingerprint

/-! ## Words and texts -/

@[simp] theorem length_wordBytes (x : UInt64) : (wordBytes x).length = 8 := rfl

@[simp] theorem length_textBytes (text : String) : (textBytes text).length = text.utf8ByteSize := rfl

theorem wordBytes_injective : Function.Injective wordBytes := by
  intro x y h
  simp only [wordBytes, List.cons.injEq, and_true, ← UInt8.toNat_inj, UInt64.toNat_toUInt8,
    UInt64.toNat_shiftRight, UInt64.reduceToNat, Nat.reduceMod, Nat.shiftRight_eq_div_pow] at h
  have hx := x.toNat_lt
  have hy := y.toNat_lt
  -- The bytes are the digits of the number to the base 256.
  exact UInt64.toNat_inj.1 (by omega)

theorem textBytes_injective : Function.Injective textBytes := by
  intro s t h
  exact String.toByteArray_inj.1 (ByteArray.ext (Array.toList_inj.1 h))

theorem word_append_inj {x y : UInt64} {a b : List UInt8} (h : wordBytes x ++ a = wordBytes y ++ b) :
    x = y ∧ a = b := by
  obtain ⟨hword, hrest⟩ := List.append_inj h rfl
  exact ⟨wordBytes_injective hword, hrest⟩

/-- A length is known from its remainder if it is known up to less than `2 ^ 64`. -/
theorem count_inj {m n : Nat} (h : m.toUInt64 = n.toUInt64) (hnear : m < n + 2 ^ 64 ∧ n < m + 2 ^ 64) :
    m = n := by
  have hmod : m % 2 ^ 64 = n % 2 ^ 64 := by simpa [← UInt64.toNat_inj] using h
  omega

theorem sizedText_append_inj {s t : String} {a b : List UInt8} (h : sizedText s ++ a = sizedText t ++ b)
    (hnear : s.utf8ByteSize + a.length = t.utf8ByteSize + b.length →
      s.utf8ByteSize < t.utf8ByteSize + 2 ^ 64 ∧ t.utf8ByteSize < s.utf8ByteSize + 2 ^ 64) :
    s = t ∧ a = b := by
  rw [sizedText, sizedText, List.append_assoc, List.append_assoc] at h
  obtain ⟨hcount, hrest⟩ := word_append_inj h
  have hlength := congrArg List.length hrest
  rw [List.length_append, List.length_append] at hlength
  have hsize : s.utf8ByteSize = t.utf8ByteSize := count_inj hcount (hnear hlength)
  obtain ⟨htext, hrest⟩ := List.append_inj hrest hsize
  exact ⟨textBytes_injective htext, hrest⟩

theorem shortText_append_inj {s t : String} {a b : List UInt8} (hs : s.utf8ByteSize < 2 ^ 64)
    (ht : t.utf8ByteSize < 2 ^ 64) (h : sizedText s ++ a = sizedText t ++ b) : s = t ∧ a = b :=
  sizedText_append_inj h fun _ => by omega

theorem length_flatMap_wordBytes (xs : List UInt64) : (xs.flatMap wordBytes).length = 8 * xs.length := by
  simp [List.length_flatMap, Nat.mul_comm]

theorem words_inj {xs ys : List UInt64} (h : xs.flatMap wordBytes = ys.flatMap wordBytes) : xs = ys := by
  induction xs generalizing ys with
  | nil =>
      cases ys with
      | nil => rfl
      | cons y ys => cases h
  | cons x xs ih =>
      cases ys with
      | nil => cases h
      | cons y ys =>
          obtain ⟨rfl, hrest⟩ := word_append_inj h
          rw [ih hrest]

/-! ## Places -/

section Slots

variable {field : String} {a b : List UInt8}

@[simp] theorem required_append_inj {x y : UInt64} :
    slotBytes (.required field x) ++ a = slotBytes (.required field y) ++ b ↔ x = y ∧ a = b := by
  constructor
  · intro h
    rw [slotBytes, slotBytes, List.append_assoc, List.append_assoc, List.append_cancel_left_eq] at h
    exact word_append_inj h
  · rintro ⟨rfl, rfl⟩
    rfl

@[simp] theorem optional_append_inj {x y : Option UInt64} :
    slotBytes (.optional field x) ++ a = slotBytes (.optional field y) ++ b ↔ x = y ∧ a = b := by
  constructor
  · intro h
    cases x <;> cases y <;>
      simp only [slotBytes, List.append_assoc, List.append_cancel_left_eq, List.cons_append, List.nil_append,
        List.cons.injEq, true_and] at h
    · exact ⟨rfl, h⟩
    · cases h.1
    · cases h.1
    · obtain ⟨rfl, hrest⟩ := word_append_inj h
      exact ⟨rfl, hrest⟩
  · rintro ⟨rfl, rfl⟩
    rfl

theorem list_append_inj {xs ys : List UInt64}
    (h : slotBytes (.list field xs) ++ a = slotBytes (.list field ys) ++ b)
    (ha : a.length < 2 ^ 64) (hb : b.length < 2 ^ 64) : xs = ys ∧ a = b := by
  simp only [slotBytes, List.append_assoc, List.append_cancel_left_eq] at h
  obtain ⟨hcount, hrest⟩ := word_append_inj h
  have hlength := congrArg List.length hrest
  simp only [List.length_append, length_flatMap_wordBytes] at hlength
  have hsize : xs.length = ys.length := count_inj hcount (by omega)
  obtain ⟨hwords, hrest⟩ := List.append_inj hrest (by simp only [length_flatMap_wordBytes, hsize])
  exact ⟨words_inj hwords, hrest⟩

end Slots

/-! ## Comments -/

theorem length_commentBytes (c : Option UInt64) : (commentBytes c).length < 16 := by
  cases c with
  | none => decide
  | some hash =>
      rw [commentBytes, List.length_append, length_wordBytes]
      decide

@[simp] theorem commentBytes_inj {c d : Option UInt64} : commentBytes c = commentBytes d ↔ c = d := by
  constructor
  · intro h
    cases c <;> cases d
    · rfl
    · cases congrArg List.length h
    · cases congrArg List.length h
    · exact congrArg some (wordBytes_injective (List.append_cancel_left h))
  · rintro rfl
    rfl

@[simp] theorem list_comment_inj {field : String} {xs ys : List UInt64} {c d : Option UInt64} :
    slotBytes (.list field xs) ++ commentBytes c = slotBytes (.list field ys) ++ commentBytes d ↔
      xs = ys ∧ c = d := by
  constructor
  · intro h
    have hc := length_commentBytes c
    have hd := length_commentBytes d
    obtain ⟨rfl, hrest⟩ := list_append_inj h (by omega) (by omega)
    exact ⟨rfl, commentBytes_inj.1 hrest⟩
  · rintro ⟨rfl, rfl⟩
    rfl

/-! ## Whole byte strings -/

theorem zero_notMem_name {α : Type} (k : Kind α) : 0 ∉ textBytes k.name := by
  cases k <;> simp only [Kind.name] <;> decide

theorem literalTag_injective : Function.Injective literalTag := by
  intro a b h
  cases a <;> cases b <;> first | rfl | cases h

theorem letKeyword_injective : Function.Injective LetForm.keyword := by
  intro a b h
  cases a <;> cases b <;> first | rfl | simp [LetForm.keyword] at h

theorem whenKeyword_injective : Function.Injective WhenForm.keyword := by
  intro a b h
  cases a <;> cases b <;> first | rfl | simp [WhenForm.keyword] at h

theorem sizedText_comment_inj {s t : String} {c d : Option UInt64}
    (h : sizedText s ++ commentBytes c = sizedText t ++ commentBytes d) : s = t ∧ c = d := by
  have hc := length_commentBytes c
  have hd := length_commentBytes d
  obtain ⟨rfl, hrest⟩ := sizedText_append_inj h (by omega)
  exact ⟨rfl, commentBytes_inj.1 hrest⟩

/-- Behind the name, a byte string tells the rest of the kind and the comment. -/
theorem parts_inj {k k' : Kind UInt64} {c d : Option UInt64} (hname : k.name = k'.name)
    (h : payload k ++ (k.slots.flatMap slotBytes ++ commentBytes c) =
      payload k' ++ (k'.slots.flatMap slotBytes ++ commentBytes d)) : k = k' ∧ c = d := by
  -- Kinds of different constructors have different names.
  cases k <;> cases k' <;> try (simp [Kind.name] at hname; done)
  case literal.literal value type value' type' =>
    obtain ⟨htag, htext⟩ := List.cons.inj h
    obtain ⟨rfl, rfl⟩ := sizedText_comment_inj htext
    exact ⟨by rw [literalTag_injective htag], rfl⟩
  case pasted.pasted text text' =>
    obtain ⟨rfl, rfl⟩ := sizedText_comment_inj h
    exact ⟨rfl, rfl⟩
  case letIn.letIn form bindings body form' bindings' body' =>
    obtain ⟨hform, hrest⟩ := shortText_append_inj (by cases form <;> decide) (by cases form' <;> decide) h
    obtain rfl := letKeyword_injective hform
    simp only [Kind.slots, List.flatMap_cons, List.flatMap_nil, List.append_nil, List.append_assoc] at hrest
    -- The body behind the bindings has a fixed length.
    have hshort : ∀ (x : UInt64) (c : Option UInt64),
        (slotBytes (.required "body" x) ++ commentBytes c).length < 2 ^ 64 := by
      intro x c
      have hc := length_commentBytes c
      have hbody : "body".utf8ByteSize = 4 := rfl
      simp only [slotBytes, sizedText, List.length_append, length_wordBytes, length_textBytes, hbody]
      omega
    obtain ⟨rfl, hrest⟩ := list_append_inj hrest (hshort body c) (hshort body' d)
    simpa using hrest
  case guarded.guarded form predicate exprs form' predicate' exprs' =>
    obtain ⟨hform, hrest⟩ := shortText_append_inj (by cases form <;> decide) (by cases form' <;> decide) h
    obtain rfl := whenKeyword_injective hform
    simpa [Kind.slots, and_assoc] using hrest
  -- The other kinds have nothing but places.
  all_goals simpa [payload, Kind.slots, and_assoc] using h

/-- A name that is ended by a zero can be read back. -/
theorem ended_append_inj {s t : String} (hs : 0 ∉ textBytes s) (ht : 0 ∉ textBytes t) {a b : List UInt8}
    (h : textBytes s ++ 0 :: a = textBytes t ++ 0 :: b) : s = t ∧ a = b := by
  have htake : ∀ (u : String) (rest : List UInt8), 0 ∉ textBytes u →
      (textBytes u ++ 0 :: rest).takeWhile (· ≠ 0) = textBytes u := by
    intro u rest hu
    rw [List.takeWhile_append_of_pos]
    · simp
    · intro c hc
      refine decide_eq_true ?_
      rintro rfl
      exact hu hc
  have hname : textBytes s = textBytes t := by rw [← htake s a hs, h, htake t b ht]
  rw [hname] at h
  exact ⟨textBytes_injective hname, (List.cons.inj (List.append_cancel_left h)).2⟩

/-- What a fingerprint is taken of: a node, given by the fingerprints below it, or a comment, given by its
text. Either may have the fingerprint of a comment of its own with it. -/
inductive Content where
  | node (kind : Kind UInt64) (comment : Option UInt64)
  | comment (text : String) (comment : Option UInt64)
deriving DecidableEq

namespace Content

/-- The byte string that is hashed. -/
def bytes : Content → List UInt8
  | .node kind c => Fingerprint.bytes kind c
  | .comment text c => bytesOfComment text ++ commentBytes c

/-- The name in front of the byte string. -/
def name : Content → String
  | .node kind _ => kind.name
  | .comment _ _ => "Comment"

/-- What follows the name and the zero that ends it. -/
def rest : Content → List UInt8
  | .node kind c => payload kind ++ (kind.slots.flatMap slotBytes ++ commentBytes c)
  | .comment text c => sizedText text ++ commentBytes c

theorem bytes_eq (x : Content) : x.bytes = textBytes x.name ++ 0 :: x.rest := by
  cases x with
  | node kind comment => simp [bytes, Fingerprint.bytes, name, rest]
  | comment text comment => simp [bytes, bytesOfComment, name, rest]

theorem zero_notMem_name (x : Content) : 0 ∉ textBytes x.name := by
  cases x with
  | node kind comment => exact Fingerprint.zero_notMem_name kind
  | comment text comment =>
      show 0 ∉ textBytes "Comment"
      decide

/-- Different contents have different byte strings. -/
theorem bytes_injective : Function.Injective bytes := by
  intro x y h
  rw [bytes_eq, bytes_eq] at h
  obtain ⟨hname, hrest⟩ := ended_append_inj x.zero_notMem_name y.zero_notMem_name h
  cases x with
  | node kind comment =>
      cases y with
      | node kind' comment' =>
          obtain ⟨rfl, rfl⟩ := parts_inj hname hrest
          rfl
      | comment text comment' => cases kind <;> simp [name, Kind.name] at hname
  | comment text comment =>
      cases y with
      | node kind comment' => cases kind <;> simp [name, Kind.name] at hname
      | comment text' comment' =>
          obtain ⟨rfl, rfl⟩ := sizedText_comment_inj hrest
          rfl

end Content

end Fingerprint

/-! ## Nodes -/

open Reader Fingerprint

namespace Node

/-- The content of a node itself. -/
def content (n : Node) : Content := .node (n.kind.map hash) (n.comment.map Comment.hash)

/-- The contents of a node and all its descendants, and of the comments on them. -/
def contents (n : Node) : List Content :=
  n.walk.flatMap fun m => m.content :: (m.comment.map fun c => .comment c.text none).toList

theorem content_mem_contents (n : Node) : n.content ∈ n.contents :=
  List.mem_flatMap.2 ⟨n, n.mem_walk_self, List.mem_cons_self⟩

theorem comment_mem_contents {n : Node} {c : Comment} (h : c ∈ n.comment) : .comment c.text none ∈ n.contents := by
  refine List.mem_flatMap.2 ⟨n, n.mem_walk_self, List.mem_cons_of_mem _ ?_⟩
  rw [Option.mem_toList, Option.mem_def.1 h]
  rfl

theorem contents_subset_of_child {n m : Node} (h : m ∈ n.children) : m.contents ⊆ n.contents := by
  intro x hx
  obtain ⟨l, hl, hx⟩ := List.mem_flatMap.1 hx
  exact List.mem_flatMap.2 ⟨l, mem_walk_trans (mem_walk_of_child h) hl, hx⟩

theorem Stamped.of_mem_walk {n m : Node} (h : n.Stamped) (hm : m ∈ n.walk) : m.Stamped := by
  induction n using induct with
  | step n ih =>
      rw [walk_eq, List.mem_cons, List.mem_flatMap] at hm
      rcases hm with rfl | ⟨c, hc, hm⟩
      · exact h
      · exact ih c hc (h.child hc) hm

theorem Stamped.hash_eq_content {n : Node} (h : n.Stamped) : n.hash = Xxh3.hash n.content.bytes := by
  obtain ⟨hash, _, _⟩ := h
  exact hash

end Node

/-- No two byte strings of these contents have the same hash. -/
def CollisionFree (xs : List Content) : Prop :=
  ∀ x ∈ xs, ∀ y ∈ xs, Xxh3.hash x.bytes = Xxh3.hash y.bytes → x.bytes = y.bytes

instance (xs : List Content) : Decidable (CollisionFree xs) :=
  inferInstanceAs (Decidable (∀ x ∈ xs, ∀ y ∈ xs, Xxh3.hash x.bytes = Xxh3.hash y.bytes → x.bytes = y.bytes))

theorem CollisionFree.eq {xs : List Content} (h : CollisionFree xs) {x y : Content} (hx : x ∈ xs) (hy : y ∈ xs)
    (heq : Xxh3.hash x.bytes = Xxh3.hash y.bytes) : x = y :=
  Content.bytes_injective (h x hx y hy heq)

/-- Kinds with the same images under one map have the same images under another, if the first tells their
children apart as well as the second. -/
theorem Kind.map_eq_map_of_imp {α β γ : Type} [Nonempty γ] {f : α → β} {g : α → γ} {k k' : Kind α}
    (h : k.map f = k'.map f)
    (himp : ∀ x ∈ k.children, ∀ y, y ∈ k.children ∨ y ∈ k'.children → f x = f y → g x = g y) :
    k.map g = k'.map g := by
  -- The second map factors through the first on the children of both kinds.
  let factor : β → γ := fun u => Classical.epsilon fun v => ∃ x ∈ k.children, f x = u ∧ g x = v
  have hfactor : ∀ y, y ∈ k.children ∨ y ∈ k'.children → factor (f y) = g y := by
    intro y hy
    have hsource : ∃ x ∈ k.children, f x = f y := by
      rcases hy with hy | hy
      · exact ⟨y, hy, rfl⟩
      · have hmem : f y ∈ (k'.map f).children := by
          rw [children_map]
          exact List.mem_map_of_mem hy
        rwa [← h, children_map, List.mem_map] at hmem
    obtain ⟨x, hx, hxy⟩ := hsource
    obtain ⟨x', hx', hfx', hgx'⟩ : ∃ x' ∈ k.children, f x' = f y ∧ g x' = factor (f y) :=
      Classical.epsilon_spec (p := fun v => ∃ x ∈ k.children, f x = f y ∧ g x = v) ⟨g x, x, hx, hxy, rfl⟩
    rw [← hgx', himp x' hx' y hy hfx']
  calc k.map g = (k.map f).map factor := by
        rw [map_map]
        exact (map_congr_left fun y hy => hfactor y (.inl hy)).symm
    _ = (k'.map f).map factor := by rw [h]
    _ = k'.map g := by
        rw [map_map]
        exact map_congr_left fun y hy => hfactor y (.inr hy)

/-- Without collisions, nodes with the same fingerprint are structurally equal. -/
theorem CollisionFree.bare_eq {xs : List Content} (hfree : CollisionFree xs) {a b : Node} (ha : a.Stamped)
    (hb : b.Stamped) (hax : a.contents ⊆ xs) (hbx : b.contents ⊆ xs) (h : a.hash = b.hash) :
    a.bare = b.bare := by
  induction a using Node.induct generalizing b with
  | step a ih =>
      have hcontent : a.content = b.content := by
        refine hfree.eq (hax a.content_mem_contents) (hbx b.content_mem_contents) ?_
        rw [← ha.hash_eq_content, ← hb.hash_eq_content, h]
      obtain ⟨hkind, hcomment⟩ := Content.node.inj hcontent
      have : Nonempty Node := ⟨a⟩
      refine Node.bare_eq_bare_iff.2 ⟨Kind.map_eq_map_of_imp hkind ?_, ?_⟩
      · intro x hx y hy hxy
        have hstamped : y.Stamped := hy.elim ha.child hb.child
        have hcontents : y.contents ⊆ xs := by
          rcases hy with hy | hy
          · exact List.Subset.trans (Node.contents_subset_of_child hy) hax
          · exact List.Subset.trans (Node.contents_subset_of_child hy) hbx
        exact ih x hx (ha.child hx) hstamped (List.Subset.trans (Node.contents_subset_of_child hx) hax) hcontents hxy
      · have htext : ∀ c ∈ a.comment, ∀ d ∈ b.comment, c.hash = d.hash → c.text = d.text := by
          intro c hc d hd hcd
          rw [ha.comment_hash c hc, hb.comment_hash d hd] at hcd
          have hsame := hfree.eq (hax (Node.comment_mem_contents hc)) (hbx (Node.comment_mem_contents hd)) (by
            simpa [Content.bytes, commentBytes] using hcd)
          exact (Content.comment.inj hsame).1
        cases hca : a.comment <;> cases hcb : b.comment <;> simp_all

theorem Node.Stamped.hash_eq_of_bare {a b : Node} (ha : a.Stamped) (hb : b.Stamped) (h : a.bare = b.bare) :
    a.hash = b.hash := by
  rw [ha.hash_eq, hb.hash_eq, ← stamp_bare a, h, stamp_bare]

/-- Fingerprints tell as much as the hash of a byte string can. Every node that was read carries the
fingerprint of its own kind and comment, contents that differ have different byte strings, and so two nodes
that were read have the same fingerprint exactly if they are structurally equal, unless the hash has a
collision among the byte strings of the two. -/
theorem fingerprints_exact_up_to_collisions {text text' : String} {roots roots' : List Node}
    (hread : readDocument text = .ok roots) (hread' : readDocument text' = .ok roots') :
    (∀ n ∈ Forest.nodes roots, n.hash = n.kind.fingerprint n.comment ∧
      ∀ c ∈ n.comment, c.hash = Xxh3.hash (bytesOfComment c.text)) ∧
    Function.Injective Content.bytes ∧
    ∀ a ∈ Forest.nodes roots, ∀ b ∈ Forest.nodes roots', CollisionFree (a.contents ++ b.contents) →
      (a.hash = b.hash ↔ a.bare = b.bare) := by
  have hstamped : ∀ {text : String} {roots : List Node}, readDocument text = .ok roots →
      ∀ n ∈ Forest.nodes roots, n.Stamped := by
    intro text roots hread n hn
    obtain ⟨root, hroot, hn⟩ := List.mem_flatMap.1 hn
    exact (readDocument_stamped hread root hroot).of_mem_walk hn
  refine ⟨?_, Content.bytes_injective, ?_⟩
  · intro n hn
    have hstamp := hstamped hread n hn
    exact ⟨hstamp.hash_eq_content, hstamp.comment_hash⟩
  · intro a ha b hb hfree
    have hsa := hstamped hread a ha
    have hsb := hstamped hread' b hb
    constructor
    · exact hfree.bare_eq hsa hsb (List.subset_append_left _ _) (List.subset_append_right _ _)
    · exact hsa.hash_eq_of_bare hsb

/-- The same call twice, at another place and in other brackets. -/
theorem fingerprints_exact_up_to_collisions_same_call :
    ∃ a b, readDocument "(f) ; c" = .ok [a] ∧ readDocument "\n[f] ; c" = .ok [b] ∧
      CollisionFree (a.contents ++ b.contents) ∧ a.hash = b.hash ∧ a.bare = b.bare := by
  suffices hdone : ∃ ts ts' a b, tokenize "(f) ; c" = .ok ts ∧ tokenize "\n[f] ; c" = .ok ts' ∧
      (elementsFrom ts [] []).map Element.attach = .ok [a] ∧
      (elementsFrom ts' [] []).map Element.attach = .ok [b] ∧
      CollisionFree (a.contents ++ b.contents) ∧ a.hash = b.hash by
    obtain ⟨ts, ts', a, b, htokens, htokens', helements, helements', hfree, hhash⟩ := hdone
    have hread : readDocument "(f) ; c" = .ok [a] := by rw [readDocument, htokens, ← helements]
    have hread' : readDocument "\n[f] ; c" = .ok [b] := by rw [readDocument, htokens', ← helements']
    obtain ⟨-, -, hexact⟩ := fingerprints_exact_up_to_collisions hread hread'
    have hnode : ∀ n : Node, n ∈ Forest.nodes [n] := fun n => List.mem_flatMap.2 ⟨n, by simp, n.mem_walk_self⟩
    exact ⟨a, b, hread, hread', hfree, hhash, (hexact a (hnode a) b (hnode b) hfree).1 hhash⟩
  refine ⟨?ts, ?ts', ?a, ?b, ?tokens, ?tokens', ?elements, ?elements', ?free, ?hash⟩
  case tokens =>
    cbv
    rfl
  case tokens' =>
    cbv
    rfl
  case elements => rfl
  case elements' => rfl
  case free => decide +kernel
  case hash => decide +kernel

end TreeEdit
