import Workflow.Base64
import Workflow.Command
import Workflow.Command.Apply
import Workflow.Delayer
import Workflow.Document
import Workflow.Fault
import Workflow.Ident
import Workflow.Instant
import Workflow.Instant.Civil
import Workflow.Instant.Text
import Workflow.Json
import Workflow.Json.Reader
import Workflow.Json.Writer
import Workflow.Lease
import Workflow.Marks
import Workflow.Query
import Workflow.Recoverer
import Workflow.Reference
import Workflow.Repository
import Workflow.Repository.Gate
import Workflow.Repository.Ring
import Workflow.Scenario.Background
import Workflow.Scenario.Execution
import Workflow.Scenario.Recipe
import Workflow.Scenario.Script
import Workflow.Scenario.Step
import Workflow.Scenario.World
import Workflow.Settings
import Workflow.Settings.Environment
import Workflow.Site
import Workflow.SortedMap
import Workflow.Span
import Workflow.Span.Text
import Workflow.State
import Workflow.Store
import Workflow.Store.Blobs
import Workflow.Store.Commit
import Workflow.Store.Delays
import Workflow.Store.Log
import Workflow.Text.Blank
import Workflow.Text.Lossy
import Workflow.Text.Numeral
import Workflow.Text.Quoted
import Workflow.Text.Unprinted
import Workflow.Watcher
import Workflow.Proofs.Log
import Workflow.Proofs.Transaction
import Workflow.Proofs.Effect
import Workflow.Proofs.Run
import Workflow.Proofs.Staging
import Workflow.Proofs.Commit
import Workflow.Proofs.LostUpdate
import Workflow.Proofs.Single
import Workflow.Proofs.Access
import Workflow.Proofs.Group
import Workflow.Proofs.Lease
import Workflow.Proofs.Exclusivity
import Workflow.Proofs.Numeral
import Workflow.Proofs.Recovery
import Workflow.Proofs.Trying
import Workflow.Proofs.Valid
import Workflow.Proofs.Watermark
import Workflow.Proofs.Retrying
import Workflow.Proofs.Attempts
import Workflow.Proofs.Delays
import Workflow.Proofs.Clock
import Workflow.Proofs.Calendar
import Workflow.Proofs.Blank
import Workflow.Proofs.Written
import Workflow.Proofs.Horizon
import Workflow.Proofs.Firing
import Workflow.Proofs.Delaying
import Workflow.Proofs.Waiting
import Workflow.Proofs.Firings
import Workflow.Proofs.FiringOnce
import Workflow.Proofs.Skipping
import Workflow.Proofs.Uncommitted
import Workflow.Proofs.Cached
import Workflow.Proofs.CachedReads
import Workflow.Proofs.CachedCommits
import Workflow.Proofs.Json
import Workflow.Proofs.Document
import Workflow.Proofs.Rereading
import Workflow.Proofs.Stacking
import Workflow.Proofs.Watching
import Workflow.Proofs.Paging
import Workflow.Proofs.Apart
import Workflow.Proofs.Splitting
import Workflow.Proofs.Event
import Workflow.Proofs.Continuing
import Workflow.Proofs.Sparing
import Workflow.Proofs.Starting
import Workflow.Proofs.Moves
import Workflow.Proofs.Looping
import Workflow.Proofs.Closing
import Workflow.Proofs.ClosingScript
import Workflow.Proofs.Shutdown
import Workflow.Proofs.Holding
import Workflow.Proofs.Keepalive
import Workflow.Proofs.Lookup
import Workflow.Proofs.Searching
import Workflow.Proofs.Outcome
import Workflow.Proofs.Ready
import Workflow.Proofs.Postponing
import Workflow.Proofs.Storing
import Workflow.Proofs.HeadScan
import Workflow.Proofs.Foreseeing
import Workflow.Proofs.AnyOrder
import Workflow.Proofs.Settling
import Workflow.Proofs.Reference
import Workflow.Proofs.CatchingUp
import Workflow.Proofs.Dispatching
import Workflow.Proofs.Referring
import Workflow.Proofs.Failing
import Workflow.Proofs.Breaking
import Workflow.Proofs.Spans
import Workflow.Proofs.Pulling
import Workflow.Proofs.Saturating
import Workflow.Proofs.WorkingSet
import Workflow.Proofs.Arriving
