import Parley.Audit.Entry
import Parley.Audit.Trail
import Parley.Broker.Config
import Parley.Broker.Consumption
import Parley.Broker.Relay
import Parley.Broker.Stream
import Parley.Broker.Subject
import Parley.Bus.Basic
import Parley.Bus.Desk
import Parley.Decimal.Binary
import Parley.Decimal.Layout
import Parley.Decimal.Shortest
import Parley.Digest.Chain
import Parley.Digest.Sha256
import Parley.Error
import Parley.Error.Kind
import Parley.Escalation
import Parley.Governance.Ledger
import Parley.Governance.Stats
import Parley.Json.Basic
import Parley.Json.Doc
import Parley.Json.Number
import Parley.Json.Printer
import Parley.Json.Record
import Parley.Json.Token
import Parley.Message.Basic
import Parley.Message.Codec
import Parley.Message.Draft
import Parley.Policy.Basic
import Parley.Policy.Decision
import Parley.Policy.Gate
import Parley.Proofs.Bus.Approval
import Parley.Quality
import Parley.Retry
import Parley.Settings
import Parley.Store.Backend
import Parley.Store.Dedup
import Parley.Store.Memory
import Parley.Store.Outage
import Parley.StreamStore.Address
import Parley.StreamStore.Cache
import Parley.StreamStore.Client
import Parley.StreamStore.Config
import Parley.StreamStore.Faults
import Parley.StreamStore.Line
import Parley.StreamStore.Server
import Parley.StreamStore.Session
import Parley.Table
import Parley.Text.Blank
import Parley.Text.Hex
import Parley.Time.Calendar
import Parley.Time.Instant
import Parley.Time.Reading
import Parley.Time.Stamp
import Parley.Vocabulary
import Parley.Proofs.Bus.Pipeline
import Parley.Proofs.Decimal.Binary
import Parley.Proofs.Decimal.Shortest
import Parley.Proofs.Json.Number
import Parley.Proofs.Json.Scan
import Parley.Proofs.Json.Canonical
import Parley.Proofs.Json.Sorted
import Parley.Proofs.Digest.Chain
import Parley.Proofs.Time.Calendar
import Parley.Proofs.Time.Stamp
import Parley.Proofs.Decimal.Finite
import Parley.Proofs.Json.Reading
import Parley.Proofs.Audit.Entry
import Parley.Proofs.Json.Written
import Parley.Proofs.Audit.Reread
import Parley.Proofs.Audit.Tamper
import Parley.Proofs.Audit.Session
import Parley.Proofs.Decimal.Order
import Parley.Proofs.Policy.Gate
import Parley.Proofs.Policy.Decision
import Parley.Proofs.Store.Keeping
import Parley.Proofs.Bus.Effects
import Parley.Proofs.Json.Parts
import Parley.Proofs.Message.Reread
import Parley.Proofs.StreamStore.Keys
import Parley.Proofs.StreamStore.Server
import Parley.Proofs.StreamStore.Filled
import Parley.Proofs.StreamStore.Clear
import Parley.Proofs.StreamStore.Agreement
import Parley.Proofs.StreamStore.Isolation
import Parley.Proofs.Audit.History
import Parley.Proofs.Bus.Views
import Parley.Proofs.Bus.Resend
import Parley.Proofs.Bus.Attendance
import Parley.Proofs.Bus.Traffic
import Parley.Proofs.Bus.Wakeup
import Parley.Proofs.Policy.Changes
import Parley.Proofs.StreamStore.Retried
import Parley.Proofs.Json.Doubles
import Parley.Proofs.Message.Unsorted
import Parley.Proofs.Message.Decoded
import Parley.Proofs.Bus.Leftover
import Parley.Proofs.Governance.Run
import Parley.Proofs.Governance.Tally
import Parley.Proofs.Governance.Review
import Parley.Proofs.Json.Reordered
import Parley.Proofs.Policy.Snapshot
import Parley.Proofs.StreamStore.Numbered
import Parley.Proofs.StreamStore.Groups
import Parley.Proofs.StreamStore.Handing
import Parley.Proofs.StreamStore.Delivery
import Parley.Proofs.Store.PlainList
import Parley.Proofs.Bus.Registration
import Parley.Proofs.Bus.Reaction
import Parley.Proofs.StreamStore.Race
import Parley.Proofs.StreamStore.Cache
import Parley.Proofs.StreamStore.Fallback
import Parley.Proofs.Store.Dedup
import Parley.Proofs.Broker.Consumption
import Parley.Proofs.Broker.Relay
import Parley.Proofs.Bus.Commutation
import Parley.Proofs.Governance.Mirror
import Parley.Proofs.Digest.Link
import Parley.Proofs.Governance.Breaker
import Parley.Proofs.Governance.Flagging
import Parley.Proofs.Decimal.Nearest
import Parley.Proofs.Decimal.Rounding
import Parley.Proofs.Decimal.Value
import Parley.Proofs.Governance.Average
import Parley.Proofs.Json.Outline
import Parley.Proofs.Store.Window
import Parley.Proofs.StreamStore.Admission
import Parley.Proofs.Broker.Subject
import Parley.Proofs.Decimal.Unsigned
import Parley.Proofs.Decimal.Hundredths
import Parley.Proofs.Time.Overdue
import Parley.Proofs.Quality.Axes
import Parley.Proofs.Quality.Score
import Parley.Proofs.Retry.Course
import Parley.Proofs.Retry.Delay
import Parley.Proofs.Audit.Replay
import Parley.Proofs.Quality.Deadline
import Parley.Proofs.Broker.Shutdown
import Parley.Proofs.Bus.Exchange
import Parley.Proofs.Bus.Interleaving
import Parley.Proofs.Bus.Conversation
