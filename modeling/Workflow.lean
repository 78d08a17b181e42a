import Workflow.Main
import Workflow.Poll
import Workflow.Proofs.Run.WellFormed
import Workflow.Store.Worker
import Workflow.Proofs.Conversion.Depiction
import Workflow.Proofs.Conversion.Imported
import Workflow.Proofs.Validation
import Workflow.Proofs.Conversion.RoundTrip
import Workflow.Proofs.Conversion.Listing
import Workflow.Proofs.Conversion.Twin
import Workflow.Proofs.Run.Reopening
import Workflow.Proofs.Reference.Block
import Workflow.Proofs.Reference.Edit
import Workflow.Proofs.Reference.Draft
import Workflow.Proofs.Run.Dangling
import Workflow.Proofs.Label
import Workflow.Proofs.Run.Labels
import Workflow.Proofs.Shown.Graph
import Workflow.Proofs.Shown.Branching
import Workflow.Proofs.Shown.Insertion
import Workflow.Proofs.Run.Shown
import Workflow.Proofs.Conversion.Placement
import Workflow.Proofs.Conversion.Written
import Workflow.Proofs.Json.Numeral
import Workflow.Proofs.Json.Tokens
import Workflow.Proofs.Json.Printed
import Workflow.Proofs.Json.Members
import Workflow.Proofs.Definition.Records
import Workflow.Proofs.Definition.Document
import Workflow.Proofs.Store.Saved
import Workflow.Proofs.Likeness.Basic
import Workflow.Proofs.Likeness.Problems
import Workflow.Proofs.Conversion.Switched
import Workflow.Proofs.Conversion.Normal
import Workflow.Proofs.Store.Texts
import Workflow.Proofs.Store.Worker
import Workflow.Proofs.Table
import Workflow.Proofs.Store.Ledger
import Workflow.Proofs.Layout.Bare
import Workflow.Proofs.Definition.Reading
import Workflow.Proofs.Session
import Workflow.Proofs.Upgrade.Current
import Workflow.Proofs.Upgrade.Lifted
import Workflow.Proofs.Run.Slots
import Workflow.Proofs.Run.Removal
import Workflow.Proofs.Run.Restored
import Workflow.Proofs.Reference.Relabel
import Workflow.Proofs.Reference.Pruning
import Workflow.Proofs.Run.Retyped
import Workflow.Proofs.Run.Branches
import Workflow.Proofs.Run.Rows
import Workflow.Proofs.Run.Recorded
import Workflow.Proofs.Cycle
import Workflow.Proofs.Walk
import Workflow.Proofs.Run.Order
import Workflow.Proofs.Conversion.Importable
import Workflow.Proofs.Upgrade.Faults
import Workflow.Proofs.Run.Hidden
import Workflow.Proofs.Edit.Structure
import Workflow.Proofs.Layout.Entering
import Workflow.Proofs.Layout.Drawn
import Workflow.Proofs.Layout.Unread
import Workflow.Proofs.Run.Unseen
import Workflow.Proofs.Layout.Column
import Workflow.Proofs.Layout.Displayed
import Workflow.Proofs.Run.Arranged
import Workflow.Proofs.Run.Kinds
import Workflow.Proofs.Ordinal
import Workflow.Proofs.Poll
import Workflow.Proofs.Dump.Reading
import Workflow.Proofs.Descendants
import Workflow.Proofs.Reference.Fields
