import TreeEdit.Hash.Xxh3
import TreeEdit.Node.Basic

/-!
# Fingerprints

The fingerprint of a node hashes a byte string made of its kind, its text, the fingerprints of its
children place by place, and the fingerprint of its comment. Identities and spans do not enter, so
a node keeps its fingerprint wherever it moves. The byte string depends on the children only
through their fingerprints, so it is defined over `Kind UInt64`.
-/

namespace TreeEdit

namespace Fingerprint

/-- The eight bytes of a word, least significant first. -/
def wordBytes (x : UInt64) : List UInt8 :=
  [x.toUInt8, (x >>> 8).toUInt8, (x >>> 16).toUInt8, (x >>> 24).toUInt8,
   (x >>> 32).toUInt8, (x >>> 40).toUInt8, (x >>> 48).toUInt8, (x >>> 56).toUInt8]

/-- The bytes of a text in UTF-8. -/
def textBytes (text : String) : List UInt8 := text.toUTF8.data.toList

/-- A text with its length in front. -/
def sizedText (text : String) : List UInt8 :=
  wordBytes text.utf8ByteSize.toUInt64 ++ textBytes text

/-- The byte that stands for a literal type. -/
def literalTag : LiteralType → UInt8
  | .number => 0
  | .string => 1
  | .boolean => 2
  | .symbol => 3

/-- The part of a kind that is not in its places. -/
def payload : Kind UInt64 → List UInt8
  | .literal value type => literalTag type :: sizedText value
  | .pasted text => sizedText text
  | .letIn form .. => sizedText form.keyword
  | .guarded form .. => sizedText form.keyword
  | _ => []

/-- A place: its name, then one fingerprint, or a mark and at most one, or a count and as many. -/
def slotBytes : Slot UInt64 → List UInt8
  | .required field child => sizedText field ++ wordBytes child
  | .optional field none => sizedText field ++ [0]
  | .optional field (some child) => sizedText field ++ 1 :: wordBytes child
  | .list field children =>
    sizedText field ++ wordBytes children.length.toUInt64 ++ children.flatMap wordBytes

/-- The fingerprint of a comment, with a word in front that announces it. -/
def commentBytes : Option UInt64 → List UInt8
  | none => []
  | some hash => textBytes "comment" ++ wordBytes hash

/-- The byte string of a node, from the fingerprints of its children and of its comment. -/
def bytes (kind : Kind UInt64) (comment : Option UInt64) : List UInt8 :=
  textBytes kind.name ++ 0 :: payload kind ++ kind.slots.flatMap slotBytes ++ commentBytes comment

/-- The byte string of a comment. -/
def bytesOfComment (text : String) : List UInt8 :=
  textBytes "Comment" ++ 0 :: sizedText text

end Fingerprint

/-- The fingerprint of a node with this kind and comment. -/
def Kind.fingerprint (kind : Kind Node) (comment : Option Comment) : UInt64 :=
  Xxh3.hash (Fingerprint.bytes (kind.map Node.hash) (comment.map Comment.hash))

/-- A comment that has not been identified yet. -/
def Comment.make (text : String) (span : Span) : Comment :=
  ⟨.unassigned, text, span, Xxh3.hash (Fingerprint.bytesOfComment text)⟩

namespace Node

/-- A node without comment that has not been identified yet. -/
def make (kind : Kind Node) (span : Span) : Node :=
  ⟨.unassigned, span, kind.fingerprint none, kind, none⟩

/-- The node with another comment, or none, and a fresh fingerprint. -/
def withComment (n : Node) (comment : Option Comment) : Node :=
  { n with comment := comment, hash := n.kind.fingerprint comment }

/-- Text put in by an edit. -/
def pasted (text : String) (place : Pos) : Node := make (.pasted text) (.point place)

/-- The place of a required child that an edit took away. -/
def vacated (span : Span) : Node := make .vacated span

end Node

end TreeEdit
