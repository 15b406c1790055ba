import Grammarian.Main
import Grammarian.Proofs.Grammar.Accepted
import Grammarian.Proofs.Parse.Calls
import Grammarian.Proofs.Parse.Commitment
import Grammarian.Proofs.Parse.Contract
import Grammarian.Proofs.Parse.Deepen
import Grammarian.Proofs.Parse.Depth
import Grammarian.Proofs.Parse.Frame
import Grammarian.Proofs.Parse.Guard
import Grammarian.Proofs.Parse.Journal
import Grammarian.Proofs.Parse.Law
import Grammarian.Proofs.Parse.Lookahead
import Grammarian.Proofs.Parse.Outcome
import Grammarian.Proofs.Parse.Phases
import Grammarian.Proofs.Parse.Places
import Grammarian.Proofs.Parse.Recovery
import Grammarian.Proofs.Parse.Rounds
import Grammarian.Proofs.Pattern.Remainder
import Grammarian.Proofs.Text.Bytes
import Grammarian.Proofs.Text.Fields
import Grammarian.Proofs.Text.Slice
import Grammarian.Proofs.Tree.Collapse
import Grammarian.Proofs.Tree.Errors
import Grammarian.Proofs.Tree.Geometry
import Grammarian.Proofs.Tree.Nodes
import Grammarian.Proofs.Tree.Resumption
import Grammarian.Proofs.Grammar.Circles
import Grammarian.Proofs.Grammar.Validity
import Grammarian.Proofs.Parse.Advance
import Grammarian.Proofs.Parse.Splice
import Grammarian.Proofs.Tree.Fragments
import Grammarian.Proofs.Tree.Naming
import Grammarian.Proofs.Tree.Pruning
import Grammarian.Proofs.Notation.Attributed
import Grammarian.Proofs.Notation.Attributes
import Grammarian.Proofs.Notation.Derivations
import Grammarian.Proofs.Notation.Lossless
import Grammarian.Proofs.Parse.Reach
import Grammarian.Proofs.Parse.Likeness
import Grammarian.Proofs.Notation.W3c
import Grammarian.Proofs.Notation.W3cSources
import Grammarian.Proofs.Notation.Rewording
import Grammarian.Proofs.Parse.Grading
import Grammarian.Proofs.Parse.Settled
import Grammarian.Proofs.Notation.Following
import Grammarian.Proofs.Notation.Embedding
import Grammarian.Proofs.Notation.Splitting
import Grammarian.Proofs.Notation.Terms
import Grammarian.Proofs.Notation.Bnf
import Grammarian.Proofs.Notation.BnfSources
import Grammarian.Proofs.Notation.Apart
import Grammarian.Proofs.Notation.Bare
import Grammarian.Proofs.Notation.Translating
import Grammarian.Proofs.Notation.Stripping
import Grammarian.Proofs.Notation.Renumbering
import Grammarian.Proofs.Notation.RoundTrip
import Grammarian.Proofs.Notation.Origins
import Grammarian.Proofs.Notation.Phasing
import Grammarian.Proofs.Notation.Defaults
import Grammarian.Proofs.Parse.Gaps
import Grammarian.Proofs.Notation.Contiguity
import Grammarian.Proofs.Pattern.Classes
import Grammarian.Proofs.Notation.ClassItems
import Grammarian.Proofs.Notation.Classes
import Grammarian.Proofs.Grammar.Found
import Grammarian.Proofs.Grammar.Faults
import Grammarian.Proofs.Notation.Weaving
import Grammarian.Proofs.Notation.Inlining
import Grammarian.Proofs.Serial.Rules
import Grammarian.Proofs.Parse.Bracketing
import Grammarian.Proofs.Parse.Spacing
import Grammarian.Proofs.Tree.Queries
import Grammarian.Proofs.Pattern.Anchoring
import Grammarian.Proofs.Tree.Drawing
import Grammarian.Proofs.Parse.Afresh
import Grammarian.Proofs.Notation.Codes
