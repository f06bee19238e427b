import TreeQuery.Operator.Catalogue
import TreeQuery.Session
import TreeQuery.Main
import TreeQuery.Proofs.Grammar.Conditions
import TreeQuery.Proofs.Matching.Negation
import TreeQuery.Proofs.Matching.Descendants
import TreeQuery.Proofs.Matching.Expansion
import TreeQuery.Proofs.Matching.Quantified
import TreeQuery.Proofs.Value.Rearrangement
import TreeQuery.Proofs.Matching.Preparation
import TreeQuery.Proofs.Correspondence
import TreeQuery.Proofs.Matching.TwoRuns
import TreeQuery.Proofs.Operator.Builtin
import TreeQuery.Proofs.Matching.Agreement
import TreeQuery.Proofs.Matching.Multiplicity
import TreeQuery.Proofs.Matching.OrderInsensitive
import TreeQuery.Proofs.Matching.Stripped
import TreeQuery.Proofs.Matching.Absolute
import TreeQuery.Proofs.Matching.RelativeClosed
import TreeQuery.Proofs.Facts.Blocks
import TreeQuery.Proofs.Facts.Independence
import TreeQuery.Proofs.Facts.Rounds
import TreeQuery.Proofs.Facts.Monotone
import TreeQuery.Proofs.Facts.Filtering
import TreeQuery.Proofs.Matching.Unquantified
import TreeQuery.Proofs.Matching.Warnings
import TreeQuery.Proofs.Matching.OperatorNames
import TreeQuery.Proofs.Matching.EqualConditions
import TreeQuery.Proofs.Matching.Distinct
import TreeQuery.Proofs.Form.RoundTrip
import TreeQuery.Proofs.Value.Settled
import TreeQuery.Proofs.Matching.Slices
import TreeQuery.Proofs.Matching.Parents
import TreeQuery.Proofs.Grammar.Groups
import TreeQuery.Proofs.Matching.Sequences
import TreeQuery.Proofs.Matching.Named
import TreeQuery.Proofs.Matching.Duality
import TreeQuery.Proofs.Matching.Membership
import TreeQuery.Proofs.Facts.Guarding
import TreeQuery.Proofs.Matching.Malformed
import TreeQuery.Proofs.Facts.Faults
import TreeQuery.Proofs.Matching.Emptiness
import TreeQuery.Proofs.Grammar.Blanks
import TreeQuery.Proofs.Grammar.Progress
import TreeQuery.Proofs.Grammar.Nesting
