import RecordStore.Interchange.Client
import RecordStore.Interchange.Schema
import RecordStore.Interchange.Update
import RecordStore.Proofs.Codec.RoundTrip
import RecordStore.Proofs.Expression.Requirement
import RecordStore.Proofs.Locking.Run
import RecordStore.Proofs.Codec.Parts
import RecordStore.Proofs.Record.Alike
import RecordStore.Proofs.Update.Effect
import RecordStore.Proofs.Migration.Gate
import RecordStore.Proofs.Client.Call
import RecordStore.Proofs.Migration.Version
import RecordStore.Proofs.Migration.WriteBack
import RecordStore.Proofs.Migration.Decode
import RecordStore.Proofs.Migration.Race
import RecordStore.Proofs.Client.Failure
import RecordStore.Proofs.Batch.Chunk
import RecordStore.Proofs.Batch.Round
import RecordStore.Proofs.Batch.Encode
import RecordStore.Proofs.Batch.Send
import RecordStore.Proofs.Batch.Whole
import RecordStore.Proofs.Store.Contents
import RecordStore.Proofs.Store.KeyedWrite
import RecordStore.Proofs.Store.Reachable
import RecordStore.Proofs.Store.FiniteMap
import RecordStore.Proofs.Client.Transaction
import RecordStore.Proofs.Expression.Search
import RecordStore.Proofs.Store.Order
import RecordStore.Proofs.Store.Page
import RecordStore.Proofs.Client.Paging
import RecordStore.Proofs.Client.Search
import RecordStore.Proofs.Record.Same
import RecordStore.Proofs.Update.Delta
import RecordStore.Proofs.Update.Execution
import RecordStore.Proofs.Update.Made
import RecordStore.Proofs.Update.Pending
import RecordStore.Proofs.Update.Log
import RecordStore.Proofs.Update.View
import RecordStore.Proofs.Update.Survival
import RecordStore.Proofs.Batch.Fetch
import RecordStore.Proofs.Batch.Keys
import RecordStore.Proofs.Batch.Read
import RecordStore.Proofs.Store.Rewriting
import RecordStore.Proofs.Migration.Reading
import RecordStore.Proofs.Migration.Searching
import RecordStore.Proofs.Migration.Frame
import RecordStore.Proofs.Codec.KeyMatch
import RecordStore.Proofs.Batch.InTurn
import RecordStore.Proofs.Client.History
import RecordStore.Proofs.Client.Agreement
import RecordStore.Proofs.Locking.Monotone
import RecordStore.Proofs.Migration.Deleted
import RecordStore.Proofs.Client.Stamp
import RecordStore.Proofs.Codec.Legible
import RecordStore.Proofs.Update.Composed
import RecordStore.Proofs.Update.Stored
import RecordStore.Proofs.Codec.Writable
import RecordStore.Proofs.Expression.Tree
import RecordStore.Proofs.Update.Failed
import RecordStore.Proofs.Update.Idle
import RecordStore.Proofs.Batch.Exhausted
import RecordStore.Proofs.Codec.Collapse
import RecordStore.Proofs.Codec.Visible
import RecordStore.Proofs.Update.Width
import RecordStore.Proofs.Update.Merged
import RecordStore.Proofs.Update.Regular
import RecordStore.Proofs.Update.SetForm
import RecordStore.Proofs.Update.Relative
import RecordStore.Proofs.Update.Lasting
import RecordStore.Proofs.Update.Reading
import RecordStore.Proofs.Update.Identity
import RecordStore.Proofs.Codec.Bridge
import RecordStore.Proofs.Codec.Located
import RecordStore.Proofs.Restriction
import RecordStore.Proofs.Client.Projection
import RecordStore.Proofs.Schema.Valid
