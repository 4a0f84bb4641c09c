import TreeEdit.Main
import TreeEdit.Proofs.Agreement
import TreeEdit.Proofs.Failure
import TreeEdit.Proofs.RoundTrip
import TreeEdit.Proofs.Hanging
import TreeEdit.Proofs.Substitution
import TreeEdit.Proofs.Partition
import TreeEdit.Proofs.Splicing
import TreeEdit.Proofs.Identities
import TreeEdit.Proofs.OwnCode
import TreeEdit.Proofs.Performed
import TreeEdit.Proofs.Conservation
import TreeEdit.Proofs.Lineage
import TreeEdit.Proofs.Zipper
import TreeEdit.Proofs.Refocus
import TreeEdit.Proofs.PlaceInvariance
import TreeEdit.Proofs.Rows
import TreeEdit.Proofs.RootEdits
import TreeEdit.Proofs.RootInsertion
import TreeEdit.Proofs.Moves
import TreeEdit.Proofs.Visibility
import TreeEdit.Proofs.SlotOrder
import TreeEdit.Proofs.Brackets
import TreeEdit.Proofs.Collisions
import TreeEdit.Proofs.Surroundings
import TreeEdit.Proofs.CommentLines
import TreeEdit.Proofs.TreeComments
import TreeEdit.Proofs.Headings
import TreeEdit.Proofs.Exchange
import TreeEdit.Proofs.RootInterior
import TreeEdit.Proofs.Neighbours
import TreeEdit.Proofs.Decoding
import TreeEdit.Proofs.Roles
import TreeEdit.Proofs.Indices
import TreeEdit.Proofs.Descent
import TreeEdit.Proofs.UncommentedEdits
import TreeEdit.Proofs.Arrival
import TreeEdit.Proofs.Tiling
import TreeEdit.Proofs.Nesting
import TreeEdit.Proofs.Excerpts
import TreeEdit.Proofs.ScriptOrder
import TreeEdit.Proofs.Shifts
import TreeEdit.Proofs.OnePlace
import TreeEdit.Proofs.Indentation
import TreeEdit.Proofs.TreeIndex
import TreeEdit.Proofs.StepwiseReader
import TreeEdit.Proofs.SiblingStacks
