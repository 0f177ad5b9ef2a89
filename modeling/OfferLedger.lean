import OfferLedger.Chunks
import OfferLedger.CommandLine.Arguments
import OfferLedger.CommandLine.Directory
import OfferLedger.CommandLine.Location
import OfferLedger.CommandLine.Opening
import OfferLedger.CommandLine.Output
import OfferLedger.CommandLine.Path
import OfferLedger.CommandLine.Run
import OfferLedger.Decimal.Basic
import OfferLedger.Decimal.Binary64
import OfferLedger.Digest
import OfferLedger.Filter.Basic
import OfferLedger.Filter.Match
import OfferLedger.Filter.Reading
import OfferLedger.Filter.Sort
import OfferLedger.Filter.Token
import OfferLedger.Ingest
import OfferLedger.Json.Error
import OfferLedger.Json.Reader
import OfferLedger.Json.Value
import OfferLedger.Keyed
import OfferLedger.Ledger.Archive
import OfferLedger.Ledger.Basic
import OfferLedger.Ledger.Batches
import OfferLedger.Ledger.Damage
import OfferLedger.Ledger.Read
import OfferLedger.Ledger.Write
import OfferLedger.Listing.Basic
import OfferLedger.Listing.Field
import OfferLedger.Listing.Reading
import OfferLedger.Main
import OfferLedger.Query.Condition
import OfferLedger.Query.Glob
import OfferLedger.Reconcile.Basic
import OfferLedger.Reconcile.Deduped
import OfferLedger.Reconcile.Program
import OfferLedger.Repository.Basic
import OfferLedger.Repository.Memory
import OfferLedger.Repository.Scripted
import OfferLedger.Service.Page
import OfferLedger.Service.Response
import OfferLedger.Service.Route
import OfferLedger.Service.Target
import OfferLedger.Settings.Basic
import OfferLedger.Settings.SocketAddress
import OfferLedger.Snapshot.Basic
import OfferLedger.Snapshot.Partition
import OfferLedger.Text.Blank
import OfferLedger.Text.Hex
import OfferLedger.Text.Percent
import OfferLedger.Text.Pieces
import OfferLedger.Text.Quoted
import OfferLedger.Text.Table
import OfferLedger.Text.Unsigned
import OfferLedger.Text.Upper
import OfferLedger.Text.Utf8
import OfferLedger.Timestamp
import OfferLedger.Proofs.Keyed
import OfferLedger.Proofs.Reconcile.LastWins
import OfferLedger.Proofs.Reconcile.Deduped
import OfferLedger.Proofs.Store.Basic
import OfferLedger.Proofs.Store.Histories
import OfferLedger.Proofs.Store.Memory
import OfferLedger.Proofs.Ledger.Linked
import OfferLedger.Proofs.Ledger.Sound
import OfferLedger.Proofs.Ledger.Recording
import OfferLedger.Proofs.Ledger.Touching
import OfferLedger.Proofs.Ledger.Writing
import OfferLedger.Proofs.Ledger.Finding
import OfferLedger.Proofs.Ledger.Calls
import OfferLedger.Proofs.Store.Ledger
import OfferLedger.Proofs.Ledger.Possible
import OfferLedger.Proofs.Reconcile.Runs
import OfferLedger.Proofs.Reconcile.Effect
import OfferLedger.Proofs.Store.Agreement
import OfferLedger.Proofs.Ledger.Heads
import OfferLedger.Proofs.Ledger.Faults
import OfferLedger.Proofs.Reconcile.Writes
import OfferLedger.Proofs.Store.Effects
import OfferLedger.Proofs.Reconcile.Lawful
import OfferLedger.Proofs.Filter.Completeness
import OfferLedger.Proofs.Filter.Soundness
import OfferLedger.Proofs.Filter.FirstFault
import OfferLedger.Proofs.Query.Glob
import OfferLedger.Proofs.Query.Selection
import OfferLedger.Proofs.Snapshot.Partition
import OfferLedger.Proofs.Ledger.Frame
import OfferLedger.Proofs.Ingest.Groups
import OfferLedger.Proofs.Ingest.Effect
import OfferLedger.Proofs.Concurrent.Basic
import OfferLedger.Proofs.Concurrent.Guard
import OfferLedger.Proofs.Reconcile.Due
import OfferLedger.Proofs.Reconcile.Resume
import OfferLedger.Proofs.Ingest.Moves
import OfferLedger.Proofs.Concurrent.Overlap
import OfferLedger.Proofs.Concurrent.Merge
import OfferLedger.Proofs.Reconcile.Success
import OfferLedger.Proofs.Ingest.Attempts
import OfferLedger.Proofs.Ingest.Audit
import OfferLedger.Proofs.Ingest.Stopped
import OfferLedger.Proofs.Reconcile.Repeat
import OfferLedger.Proofs.Reconcile.Regions
import OfferLedger.Proofs.Ingest.Repeat
import OfferLedger.Proofs.Store.Marks
import OfferLedger.Proofs.Reconcile.LastSeen
import OfferLedger.Proofs.Text.Blank
import OfferLedger.Proofs.Text.Utf8
import OfferLedger.Proofs.Text.Upper
import OfferLedger.Proofs.Decimal.Magnitude
import OfferLedger.Proofs.Decimal.Reading
import OfferLedger.Proofs.Decimal.RoundTrip
import OfferLedger.Proofs.Decimal.Canonical
import OfferLedger.Proofs.Decimal.Nearest
import OfferLedger.Proofs.Decimal.Shortest
import OfferLedger.Proofs.Decimal.Positional
import OfferLedger.Proofs.Filter.Lexemes
import OfferLedger.Proofs.Filter.Layout
import OfferLedger.Proofs.Filter.RoundTrip
import OfferLedger.Proofs.Filter.Wrapping
import OfferLedger.Proofs.Query.Places
import OfferLedger.Proofs.Query.Bounds
import OfferLedger.Proofs.Timestamp
import OfferLedger.Proofs.Query.Order
import OfferLedger.Proofs.Query.Paging
import OfferLedger.Proofs.Json.Strings
import OfferLedger.Proofs.Json.Layout
import OfferLedger.Proofs.Json.Numbers
import OfferLedger.Proofs.Listing.RoundTrip
import OfferLedger.Proofs.Snapshot.RoundTrip
import OfferLedger.Proofs.Store.InOrder
import OfferLedger.Proofs.Ledger.Acceptance
import OfferLedger.Proofs.Reconcile.Trace
import OfferLedger.Proofs.Service.Form
import OfferLedger.Proofs.Store.Refused
import OfferLedger.Proofs.Text.Unsigned
import OfferLedger.Proofs.Settings.Basic
import OfferLedger.Proofs.Text.Words
import OfferLedger.Proofs.Filter.Sort
import OfferLedger.Proofs.Service.Page
import OfferLedger.Proofs.Service.History
import OfferLedger.Proofs.Filter.Literals
import OfferLedger.Proofs.Snapshot.Regions
