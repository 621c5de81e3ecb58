import SpecExplorer.CommandLine
import SpecExplorer.Coverage
import SpecExplorer.Explorer.Activity
import SpecExplorer.Explorer.Basic
import SpecExplorer.Explorer.Clicks
import SpecExplorer.Explorer.Refresh
import SpecExplorer.Explorer.RunNode
import SpecExplorer.Explorer.Tickets
import SpecExplorer.Explorer.Turn
import SpecExplorer.FilePath
import SpecExplorer.Json.Basic
import SpecExplorer.Json.Double
import SpecExplorer.Json.Member
import SpecExplorer.Json.Number
import SpecExplorer.Json.Raw
import SpecExplorer.Json.Reader
import SpecExplorer.Key.Basic
import SpecExplorer.Key.Text
import SpecExplorer.Main
import SpecExplorer.Outline.Basic
import SpecExplorer.Outline.Cache
import SpecExplorer.Outline.Decode
import SpecExplorer.Outline.Signature
import SpecExplorer.Outline.Sketch
import SpecExplorer.Position
import SpecExplorer.Rehearsal.Basic
import SpecExplorer.Rehearsal.Stage
import SpecExplorer.Run.Command
import SpecExplorer.Run.Focus
import SpecExplorer.Run.Record
import SpecExplorer.Run.Report
import SpecExplorer.Run.Result
import SpecExplorer.Run.Session
import SpecExplorer.Run.Stream
import SpecExplorer.Server.Basic
import SpecExplorer.Server.Command
import SpecExplorer.Server.Reply
import SpecExplorer.Server.Request
import SpecExplorer.Server.Wire
import SpecExplorer.Settings
import SpecExplorer.Table
import SpecExplorer.Text.Blank
import SpecExplorer.Text.Line
import SpecExplorer.Text.Place
import SpecExplorer.Text.Tenths
import SpecExplorer.Text.Utf8
import SpecExplorer.Text.Word
import SpecExplorer.Tool.Disk
import SpecExplorer.Tool.Ending
import SpecExplorer.Tool.Fault
import SpecExplorer.Tool.Machine
import SpecExplorer.Tree.Basic
import SpecExplorer.Tree.Kind
import SpecExplorer.Tree.Merge
import SpecExplorer.Tree.Run
import SpecExplorer.Uri.Basic
import SpecExplorer.Uri.Host
import SpecExplorer.Uri.Label
import SpecExplorer.Uri.Parse
import SpecExplorer.Uri.Percent
import SpecExplorer.View.Change
import SpecExplorer.View.Item
import SpecExplorer.View.Lens
import SpecExplorer.View.Symbol
import SpecExplorer.Width
import SpecExplorer.Proofs.Tree.Keyed
import SpecExplorer.Proofs.Tree.Merged
import SpecExplorer.Proofs.Tree.Frame
import SpecExplorer.Proofs.Run.Scope
import SpecExplorer.Proofs.Run.Agreement
import SpecExplorer.Proofs.Run.Specs
import SpecExplorer.Proofs.Run.Attribution
import SpecExplorer.Proofs.Outline.Traffic
import SpecExplorer.Proofs.Outline.Origin
import SpecExplorer.Proofs.Run.Listed
import SpecExplorer.Proofs.View.Mirror
import SpecExplorer.Proofs.View.Delta
import SpecExplorer.Proofs.Explorer.Following
import SpecExplorer.Proofs.Tree.Rebuilt
import SpecExplorer.Proofs.Run.Calm
import SpecExplorer.Proofs.Run.Act
import SpecExplorer.Proofs.Run.Focused
import SpecExplorer.Proofs.Run.Reparsed
import SpecExplorer.Proofs.Run.Overlap
import SpecExplorer.Proofs.Run.Tended
import SpecExplorer.Proofs.Run.Deserted
import SpecExplorer.Proofs.Run.Precedence
import SpecExplorer.Proofs.Outline.Flight
import SpecExplorer.Proofs.Run.Consistent
import SpecExplorer.Proofs.Run.Lasting
import SpecExplorer.Proofs.Run.Local
import SpecExplorer.Proofs.Run.Prospect
import SpecExplorer.Proofs.Run.Apart
import SpecExplorer.Proofs.Outline.Stored
import SpecExplorer.Proofs.Run.Reconciled
import SpecExplorer.Proofs.Explorer.Refreshes
import SpecExplorer.Proofs.Key.Written
import SpecExplorer.Proofs.Explorer.Standing
import SpecExplorer.Proofs.Explorer.Succession
import SpecExplorer.Proofs.Explorer.Tickets
import SpecExplorer.Proofs.Explorer.Typing
import SpecExplorer.Proofs.Explorer.Pauses
import SpecExplorer.Proofs.Explorer.Activities
import SpecExplorer.Proofs.Explorer.Requests
import SpecExplorer.Proofs.Explorer.Presses
import SpecExplorer.Proofs.Explorer.Clock
import SpecExplorer.Proofs.Explorer.TimedClicks
import SpecExplorer.Proofs.Explorer.Pairs
import SpecExplorer.Proofs.Json.Reads
import SpecExplorer.Proofs.View.Payload
import SpecExplorer.Proofs.View.Topmost
import SpecExplorer.Proofs.Run.Repeated
import SpecExplorer.Proofs.Run.Recurring
import SpecExplorer.Proofs.Run.Closing
import SpecExplorer.Proofs.Run.Confined
import SpecExplorer.Proofs.Run.Withdrawn
import SpecExplorer.Proofs.Outline.AskedAgain
import SpecExplorer.Proofs.Outline.Lifted
import SpecExplorer.Proofs.Text.Places
import SpecExplorer.Proofs.Outline.Nested
import SpecExplorer.Proofs.Text.EditorLines
import SpecExplorer.Proofs.Run.Reported
import SpecExplorer.Proofs.Run.Reading
import SpecExplorer.Proofs.Run.Telling
import SpecExplorer.Proofs.Run.Selection
import SpecExplorer.Proofs.Text.ByteOrder
import SpecExplorer.Proofs.Text.ReadBack
import SpecExplorer.Proofs.Coverage.Blocks
import SpecExplorer.Proofs.Coverage.Report
import SpecExplorer.Proofs.Text.Digits
import SpecExplorer.Proofs.Text.Trimmed
import SpecExplorer.Proofs.Coverage.Profile
import SpecExplorer.Proofs.Coverage.Totals
import SpecExplorer.Proofs.Outline.Accounting
import SpecExplorer.Proofs.Tree.Arena
import SpecExplorer.Proofs.Tree.Numbered
import SpecExplorer.Proofs.Tree.Mirrored
import SpecExplorer.Proofs.Tree.Traversed
import SpecExplorer.Proofs.View.Flattened
import SpecExplorer.Proofs.Tree.Painted
import SpecExplorer.Proofs.Run.Passes
import SpecExplorer.Proofs.Run.ClosedAtOnce
