import TemporalStore.Directory.Commit
import TemporalStore.Directory.Create
import TemporalStore.Record.Event
import TemporalStore.Store
import TemporalStore.Visibility.Edit
import TemporalStore.Proofs.Ordered
import TemporalStore.Proofs.Path
import TemporalStore.Proofs.Path.Hierarchy
import TemporalStore.Proofs.Timeline.Index
import TemporalStore.Proofs.Host.Name
import TemporalStore.Proofs.Host.Replace
import TemporalStore.Proofs.MessagePack.RoundTrip
import TemporalStore.Proofs.MessagePack.Text
import TemporalStore.Proofs.Timeline.Batch
import TemporalStore.Proofs.Timeline.Change
import TemporalStore.Proofs.Timeline.Ledger
import TemporalStore.Proofs.Timeline.Filed
import TemporalStore.Proofs.Timeline.Lookup
import TemporalStore.Proofs.Directory.Basic
import TemporalStore.Proofs.Directory.Commit
import TemporalStore.Proofs.Directory.Consistent
import TemporalStore.Proofs.Directory.Failure
import TemporalStore.Proofs.Directory.Orderly
import TemporalStore.Proofs.Directory.Ledger
import TemporalStore.Proofs.Directory.Load
import TemporalStore.Proofs.Directory.Mirror
import TemporalStore.Proofs.Directory.Open
import TemporalStore.Proofs.Directory.Spelling
import TemporalStore.Proofs.Document.Collection
import TemporalStore.Proofs.Visibility.Lineage
import TemporalStore.Proofs.Session.Alike
import TemporalStore.Proofs.Session.Basic
import TemporalStore.Proofs.Session.Commits
import TemporalStore.Proofs.Session.Cycles
import TemporalStore.Proofs.Session.Drafts
import TemporalStore.Proofs.Session.Editing
import TemporalStore.Proofs.Session.Effect
import TemporalStore.Proofs.Session.Exclusion
import TemporalStore.Proofs.Session.Failure
import TemporalStore.Proofs.Session.Ledger
import TemporalStore.Proofs.Session.Lineage
import TemporalStore.Proofs.Session.Lookback
import TemporalStore.Proofs.Session.Newborn
import TemporalStore.Proofs.Session.Orderly
import TemporalStore.Proofs.Session.Paths
import TemporalStore.Proofs.Session.Presence
import TemporalStore.Proofs.Session.Preview
import TemporalStore.Proofs.Session.Promotion
import TemporalStore.Proofs.Session.Protection
import TemporalStore.Proofs.Session.Reopen
import TemporalStore.Proofs.Session.Timeline
import TemporalStore.Proofs.Session.Timepoints
import TemporalStore.Proofs.Session.History
import TemporalStore.Proofs.Directory.Announcement
import TemporalStore.Proofs.Directory.Replica
import TemporalStore.Proofs.Event.Delivery
import TemporalStore.Proofs.Session.Announcement
import TemporalStore.Proofs.Session.Bases
import TemporalStore.Proofs.Session.Hearing
import TemporalStore.Proofs.Session.Replica
import TemporalStore.Proofs.Session.Standing
import TemporalStore.Proofs.Record.Document
import TemporalStore.Proofs.Record.Event
import TemporalStore.Proofs.Host.Record
import TemporalStore.Proofs.Event.Reception
import TemporalStore.Proofs.Session.Review
import TemporalStore.Proofs.Session.Listing
import TemporalStore.Proofs.Session.Repeated
import TemporalStore.Proofs.Store.Limit
import TemporalStore.Proofs.Store.Snapshot
