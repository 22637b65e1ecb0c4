import SwiftObservation.Main
import SwiftObservation.Proofs.Grammar.Lossless
import SwiftObservation.Proofs.Grammar.Shape.Declarations
import SwiftObservation.Proofs.Migration.Following
import SwiftObservation.Proofs.Migration.Untouched
import SwiftObservation.Proofs.Grammar.Nesting.Basic
import SwiftObservation.Proofs.Grammar.Nesting.Types
import SwiftObservation.Proofs.Grammar.Nesting.Declarations
import SwiftObservation.Proofs.Grammar.Nesting
import SwiftObservation.Proofs.Migration.Safety.Usable
import SwiftObservation.Proofs.Migration.Safety.Checked
import SwiftObservation.Proofs.Migration.Safety.Attributes
import SwiftObservation.Proofs.Migration.Safety.Classes
import SwiftObservation.Proofs.Migration.Safety
import SwiftObservation.Proofs.Migration.Settled
import SwiftObservation.Proofs.Store.Replace
import SwiftObservation.Proofs.Batch.File
import SwiftObservation.Proofs.Batch.Independence
import SwiftObservation.Proofs.Grammar.Spelling
import SwiftObservation.Proofs.Migration.Layout
import SwiftObservation.Proofs.Migration.Origin
import SwiftObservation.Proofs.Migration.Cleared
import SwiftObservation.Proofs.Patch.Longest
import SwiftObservation.Proofs.Patch.Script
import SwiftObservation.Proofs.Patch.Hunks
import SwiftObservation.Proofs.Patch.Reading
import SwiftObservation.Proofs.Token.Alone
import SwiftObservation.Proofs.Token.Course
import SwiftObservation.Proofs.Grammar.Joined
import SwiftObservation.Proofs.Token.Faults
import SwiftObservation.Proofs.Grammar.Faults.Basic
import SwiftObservation.Proofs.Grammar.Faults.Declarations
import SwiftObservation.Proofs.Grammar.Positions
import SwiftObservation.Proofs.Migration.LineBreaks
import SwiftObservation.Proofs.Token.Concatenation
import SwiftObservation.Proofs.Migration.Evidence
import SwiftObservation.Proofs.Migration.Classes
import SwiftObservation.Proofs.Token.Comments
import SwiftObservation.Proofs.Token.Clear
import SwiftObservation.Proofs.Token.Attachment
import SwiftObservation.Proofs.Grammar.Condition
import SwiftObservation.Proofs.Tree.Edge
import SwiftObservation.Proofs.Grammar.Filled
import SwiftObservation.Proofs.Migration.Comments.Basic
import SwiftObservation.Proofs.Migration.Comments.Variables
import SwiftObservation.Proofs.Migration.Comments.Classes
import SwiftObservation.Proofs.Migration.Comments
import SwiftObservation.Proofs.Migration.Removal
import SwiftObservation.Proofs.Migration.Handover
import SwiftObservation.Proofs.Grammar.Nesting.Pairing
import SwiftObservation.Proofs.Grammar.Unclosed
import SwiftObservation.Proofs.Token.SingleLine
import SwiftObservation.Proofs.Grammar.Complaints
import SwiftObservation.Proofs.Grammar.Termination
import SwiftObservation.Proofs.Grammar.Attempts
