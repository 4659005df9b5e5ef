import Lz4Frame.Main
import Lz4Frame.Proofs.Header
import Lz4Frame.Proofs.Layout
import Lz4Frame.Proofs.Layout.Reading
import Lz4Frame.Proofs.Layout.Remainder
import Lz4Frame.Proofs.Scan
import Lz4Frame.Proofs.Scan.Calls
import Lz4Frame.Proofs.Scan.Inverse
import Lz4Frame.Proofs.Scan.Bodies
import Lz4Frame.Proofs.Content
import Lz4Frame.Proofs.Content.Blocks
import Lz4Frame.Proofs.Analysis
import Lz4Frame.Proofs.Expansion
import Lz4Frame.Proofs.OnePass
import Lz4Frame.Proofs.Conformance
import Lz4Frame.Proofs.Layout.Truncation
import Lz4Frame.Proofs.Truncation
import Lz4Frame.Proofs.XxHash32
import Lz4Frame.Proofs.Content.Totals
import Lz4Frame.Proofs.Content.Parallel
import Lz4Frame.Proofs.Content.FrontToBack
import Lz4Frame.Proofs.Content.Polls
import Lz4Frame.Proofs.Issues
import Lz4Frame.Proofs.Uncancelled
import Lz4Frame.Proofs.Corruption
import Lz4Frame.Proofs.StructureOnly
import Lz4Frame.Proofs.Identification
import Lz4Frame.Proofs.Cancellation
import Lz4Frame.Proofs.Isolation
import Lz4Frame.Proofs.Trailing
import Lz4Frame.Proofs.Header.Completion
import Lz4Frame.Proofs.Layout.Completion
import Lz4Frame.Proofs.Completion
import Lz4Frame.Proofs.Report
import Lz4Frame.Proofs.Header.Parts
import Lz4Frame.Proofs.XxHash32.Streaming
import Lz4Frame.Proofs.Content.History
import Lz4Frame.Proofs.Options
import Lz4Frame.Proofs.Scan.Outcomes
import Lz4Frame.Proofs.Content.Sizes
import Lz4Frame.Proofs.Source.Script
import Lz4Frame.Proofs.Header.Fields
import Lz4Frame.Proofs.Scan.Fields
import Lz4Frame.Proofs.Delivery
import Lz4Frame.Proofs.Faults
import Lz4Frame.Proofs.Accounting
import Lz4Frame.Proofs.ByteSize
import Lz4Frame.Proofs.Cli.Command
import Lz4Frame.Proofs.Cli.Run
