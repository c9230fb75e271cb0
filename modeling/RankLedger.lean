import RankLedger.Deployment.Contest
import RankLedger.Deployment.Step
import RankLedger.Emitter
import RankLedger.Json.Configuration
import RankLedger.Json.Document
import RankLedger.Lock.Desk
import RankLedger.Proofs.InStep
import RankLedger.Proofs.Index.Visibility
import RankLedger.Proofs.Ledger
import RankLedger.Proofs.Log
import RankLedger.Proofs.OneVote
import RankLedger.Proofs.Isolation
import RankLedger.Proofs.Merge
import RankLedger.Proofs.Settled
import RankLedger.Proofs.Contest
import RankLedger.Proofs.Manager.Working
import RankLedger.Proofs.World.Alike
import RankLedger.Proofs.Threads.Requests
import RankLedger.Proofs.Removal
import RankLedger.Proofs.Threads.Basic
import RankLedger.Proofs.Threads.Locks
import RankLedger.Proofs.Threads.Lookup
import RankLedger.Proofs.Threads.Deeds
import RankLedger.Proofs.Threads.Scene
import RankLedger.Proofs.Threads.Schedule
import RankLedger.Proofs.Threads.Serializable
import RankLedger.Proofs.Manager.Committing
import RankLedger.Proofs.Failures
import RankLedger.Proofs.Drift
import RankLedger.Proofs.Index.Sorting
import RankLedger.Proofs.Record.Meaning
import RankLedger.Proofs.Listing
import RankLedger.Proofs.Threads.Announcing
import RankLedger.Index.Session
import RankLedger.Lock.Traffic
import RankLedger.Proofs.Entries
import RankLedger.Proofs.Index.Maps
import RankLedger.Proofs.Index.Session
import RankLedger.Proofs.Lock.Exclusion
import RankLedger.Proofs.Lock.Keys
import RankLedger.Proofs.Manager.Leading
import RankLedger.Proofs.Repair
import RankLedger.Factory.Session
import RankLedger.Proofs.Instances
import RankLedger.Proofs.Rebuilding
import RankLedger.Proofs.Reentry.Orderly
import RankLedger.Proofs.Reentry.Nest
import RankLedger.Proofs.Json.Spelling
import RankLedger.Proofs.Json.Text
import RankLedger.Proofs.Json.Double
import RankLedger.Proofs.Json.Fields
import RankLedger.Proofs.Json.Records
import RankLedger.Proofs.Json.Notification
import RankLedger.Proofs.Json.Grammar
import RankLedger.Proofs.Json.Configuration
import RankLedger.Proofs.Number.Nearest
import RankLedger.Proofs.Number.Value
import RankLedger.Proofs.Index.Order
import RankLedger.Proofs.Index.Arrangement
import RankLedger.Proofs.Index.Pages
import RankLedger.Proofs.Summary
import RankLedger.Proofs.Record.Correspondence
import RankLedger.Proofs.Millis
