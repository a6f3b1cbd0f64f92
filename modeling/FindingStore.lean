import FindingStore.Main
import FindingStore.Proofs.Caret
import FindingStore.Proofs.Checked
import FindingStore.Proofs.Command.Ending
import FindingStore.Proofs.Command.Headings
import FindingStore.Proofs.Command.Import
import FindingStore.Proofs.Command.Lines
import FindingStore.Proofs.Command.Listing
import FindingStore.Proofs.Command.Reporting
import FindingStore.Proofs.Database.Caches
import FindingStore.Proofs.Database.Isolation
import FindingStore.Proofs.Database.Logged
import FindingStore.Proofs.Database.Rows
import FindingStore.Proofs.FileSystem.Aliases
import FindingStore.Proofs.FileSystem.Aside
import FindingStore.Proofs.FileSystem.Canonical
import FindingStore.Proofs.FileSystem.Companion
import FindingStore.Proofs.FileSystem.Granted
import FindingStore.Proofs.FileSystem.Identity
import FindingStore.Proofs.FileSystem.Leading
import FindingStore.Proofs.FileSystem.Naming
import FindingStore.Proofs.FileSystem.Replacement
import FindingStore.Proofs.FileSystem.Stability
import FindingStore.Proofs.FileSystem.Walk
import FindingStore.Proofs.Json.Objects
import FindingStore.Proofs.Ledger.Afresh
import FindingStore.Proofs.Ledger.Attachment
import FindingStore.Proofs.Ledger.Commit
import FindingStore.Proofs.Ledger.Counting
import FindingStore.Proofs.Ledger.History
import FindingStore.Proofs.Ledger.Invariant
import FindingStore.Proofs.Ledger.Landing
import FindingStore.Proofs.Ledger.Masking
import FindingStore.Proofs.Ledger.Memory
import FindingStore.Proofs.Ledger.Outdating
import FindingStore.Proofs.Ledger.Positions
import FindingStore.Proofs.Ledger.Renewal
import FindingStore.Proofs.Ledger.Retention
import FindingStore.Proofs.Ledger.Sharing
import FindingStore.Proofs.Ledger.Sightings
import FindingStore.Proofs.Ledger.Spelling
import FindingStore.Proofs.Ledger.Trace
import FindingStore.Proofs.Lifetime.Outdated
import FindingStore.Proofs.Lifetime.Provenance
import FindingStore.Proofs.Lifetime.Reading
import FindingStore.Proofs.Lifetime.Rows
import FindingStore.Proofs.Lifetime.Serial
import FindingStore.Proofs.Lifetime.Steps
import FindingStore.Proofs.Lifetime.Turns
import FindingStore.Proofs.LineBuffer.Edits
import FindingStore.Proofs.LineBuffer.Lines
import FindingStore.Proofs.LineBuffer.Patches
import FindingStore.Proofs.LineBuffer.Reordering
import FindingStore.Proofs.LineBuffer.Roundtrip
import FindingStore.Proofs.LineBuffer.Saving
import FindingStore.Proofs.Order
import FindingStore.Proofs.Outcome
import FindingStore.Proofs.Replay.Findings
import FindingStore.Proofs.Replay.Items
import FindingStore.Proofs.Replay.Pruned
import FindingStore.Proofs.Replay.Recall
import FindingStore.Proofs.Replay.Reconciliation
import FindingStore.Proofs.Replay.Scan
import FindingStore.Proofs.Replay.Stopping
import FindingStore.Proofs.Retry.Backoff
import FindingStore.Proofs.Retry.Band
import FindingStore.Proofs.Retry.Drawing
import FindingStore.Proofs.Rewrite.Accounting
import FindingStore.Proofs.Rewrite.Batch
import FindingStore.Proofs.Rewrite.Guard
import FindingStore.Proofs.Rewrite.Once
import FindingStore.Proofs.Rewrite.Patching
import FindingStore.Proofs.Rewrite.Planning
import FindingStore.Proofs.Rewrite.Rehearsal
import FindingStore.Proofs.Rewrite.Sourcing
import FindingStore.Proofs.Rewrite.Spans
import FindingStore.Proofs.Rewrite.Writing
import FindingStore.Proofs.Sarif
import FindingStore.Proofs.Store.Attempts
import FindingStore.Proofs.Store.Calls
import FindingStore.Proofs.Store.Creation
import FindingStore.Proofs.Store.Discipline
import FindingStore.Proofs.Store.Handles
import FindingStore.Proofs.Store.Leaving
import FindingStore.Proofs.Store.Locating
import FindingStore.Proofs.Store.Looking
import FindingStore.Proofs.Store.Numbering
import FindingStore.Proofs.Store.Protocol
import FindingStore.Proofs.Store.Pruning
import FindingStore.Proofs.Store.Solo
import FindingStore.Proofs.Store.Turns
import FindingStore.Proofs.Store.Uninterrupted
import FindingStore.Proofs.Text.Split
import FindingStore.Proofs.Text.Units
import FindingStore.Proofs.Text.Utf8
import FindingStore.Proofs.World.Hosting
import FindingStore.Proofs.World.Looking
import FindingStore.Proofs.World.Obstacles
import FindingStore.Proofs.World.Receiving
import FindingStore.Proofs.World.Serving
