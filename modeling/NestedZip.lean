import NestedZip.Main
import NestedZip.Files.Tree
import NestedZip.Proofs.Directory.Fields
import NestedZip.Proofs.Directory.EndSearch
import NestedZip.Proofs.Directory.Record
import NestedZip.Proofs.Directory.Bounds
import NestedZip.Proofs.Directory.Soundness
import NestedZip.Proofs.Directory.ExtraField
import NestedZip.Proofs.Directory.Layout
import NestedZip.Proofs.Checked.Index
import NestedZip.Proofs.InPlace.Archive
import NestedZip.Proofs.Archive
import NestedZip.Proofs.Connection
import NestedZip.Proofs.Locator
import NestedZip.Proofs.Packing.Member
import NestedZip.Proofs.Packing.RoundTrip
import NestedZip.Proofs.Resolving.Composition
import NestedZip.Proofs.Resolving.Soundness
import NestedZip.Proofs.Resolving.Transparency
import NestedZip.Proofs.Locator.Grammar
import NestedZip.Proofs.Locator.Descent
import NestedZip.Proofs.Locator.Navigation
import NestedZip.Proofs.Resolving.Again
import NestedZip.Proofs.Resolving.EntryUrl
import NestedZip.Proofs.Directory.Payload
import NestedZip.Proofs.InPlace.Prefixed
import NestedZip.Proofs.Pieces
import NestedZip.Proofs.Resolving.Settled
import NestedZip.Proofs.Text
import NestedZip.Proofs.Resolving.Spelling
import NestedZip.Proofs.Directory.EndMark
import NestedZip.Proofs.EntryData
import NestedZip.Proofs.Directory.OwnBytes
import NestedZip.Proofs.Manifest.RoundTrip
import NestedZip.Proofs.Manifest.Runs
import NestedZip.Proofs.Text.Cut
import NestedZip.Proofs.Manifest.Folding
import NestedZip.Proofs.Streaming
import NestedZip.Proofs.Checked.Window
import NestedZip.Proofs.Percent.Canonical
import NestedZip.Proofs.Checked.Percent
import NestedZip.Proofs.StoredSize
import NestedZip.Proofs.Libraries
import NestedZip.Proofs.CommandLine.Glob
import NestedZip.Proofs.Checked.Lookup
import NestedZip.Proofs.Resolving.Twice
import NestedZip.Proofs.CommandLine.PlainPath
import NestedZip.Proofs.Manifest.Splitting
import NestedZip.Proofs.Cache
import NestedZip.Proofs.Directory.Sizes
import NestedZip.Proofs.CommandLine.Selection
import NestedZip.Proofs.CommandLine.Extremes
import NestedZip.Proofs.Checked.Trailer
