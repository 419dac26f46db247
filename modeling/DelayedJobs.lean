import DelayedJobs.Backoff
import DelayedJobs.Cancellation.Basic
import DelayedJobs.Cancellation.Program
import DelayedJobs.Command.Basic
import DelayedJobs.Command.Execute
import DelayedJobs.Command.Host
import DelayedJobs.Command.Options
import DelayedJobs.CommandLine.Basic
import DelayedJobs.CommandLine.Read
import DelayedJobs.CommandLine.Value
import DelayedJobs.Conformance.Check
import DelayedJobs.Conformance.Fault
import DelayedJobs.Conformance.Suite
import DelayedJobs.Decimal.Binary
import DelayedJobs.Decimal.Shortest
import DelayedJobs.Job.Basic
import DelayedJobs.Job.Text
import DelayedJobs.Json.Basic
import DelayedJobs.Json.Numeral
import DelayedJobs.Json.Print
import DelayedJobs.Json.Read
import DelayedJobs.Json.Record
import DelayedJobs.Json.Source
import DelayedJobs.Main
import DelayedJobs.Proofs.Backoff.Bounds
import DelayedJobs.Proofs.Backoff.Exact
import DelayedJobs.Proofs.Cancellation.History
import DelayedJobs.Proofs.Cancellation.Observers
import DelayedJobs.Proofs.Cancellation.Sleep
import DelayedJobs.Proofs.Command.Closing
import DelayedJobs.Proofs.Command.Kinds
import DelayedJobs.Proofs.Conformance.Backlog
import DelayedJobs.Proofs.Conformance.Fault
import DelayedJobs.Proofs.Conformance.Race
import DelayedJobs.Proofs.Conformance.Single
import DelayedJobs.Proofs.Conformance.Trial
import DelayedJobs.Proofs.Conformance.Verdict
import DelayedJobs.Proofs.Crew.Basic
import DelayedJobs.Proofs.Crew.Closing
import DelayedJobs.Proofs.Crew.Descent
import DelayedJobs.Proofs.Crew.Record
import DelayedJobs.Proofs.Decimal.Doubles
import DelayedJobs.Proofs.Decimal.Finite
import DelayedJobs.Proofs.Decimal.Monotone
import DelayedJobs.Proofs.Decimal.Order
import DelayedJobs.Proofs.Decimal.Rounding
import DelayedJobs.Proofs.Deployment.Basic
import DelayedJobs.Proofs.Deployment.Retention
import DelayedJobs.Proofs.Fleet.Attempts
import DelayedJobs.Proofs.Fleet.Basic
import DelayedJobs.Proofs.Fleet.Chronicle
import DelayedJobs.Proofs.Fleet.Health
import DelayedJobs.Proofs.Fleet.Leases
import DelayedJobs.Proofs.Fleet.Retention
import DelayedJobs.Proofs.Job.Identifier
import DelayedJobs.Proofs.Job.RoundTrip
import DelayedJobs.Proofs.Json.Printed
import DelayedJobs.Proofs.Json.Reading
import DelayedJobs.Proofs.Json.Scan
import DelayedJobs.Proofs.Json.Texts
import DelayedJobs.Proofs.Json.Values
import DelayedJobs.Proofs.Registry.Dispatch
import DelayedJobs.Proofs.Registry.Lookup
import DelayedJobs.Proofs.Scheduler.Poller
import DelayedJobs.Proofs.Scheduler.Processing
import DelayedJobs.Proofs.Scheduler.Supervisor
import DelayedJobs.Proofs.Settings.KeepAlive
import DelayedJobs.Proofs.Settings.RoundTrip
import DelayedJobs.Proofs.Settings.Safety
import DelayedJobs.Proofs.Simulation.Rehearsal
import DelayedJobs.Proofs.Simulation.Trials
import DelayedJobs.Proofs.Store.Coherence
import DelayedJobs.Proofs.Store.Drain
import DelayedJobs.Proofs.Store.Effect
import DelayedJobs.Proofs.Store.History
import DelayedJobs.Proofs.Store.Independence
import DelayedJobs.Proofs.Store.Index
import DelayedJobs.Proofs.Store.Leases
import DelayedJobs.Proofs.Store.Refinement
import DelayedJobs.Proofs.Table.Agreement
import DelayedJobs.Proofs.Table.Database
import DelayedJobs.Proofs.Table.Failures
import DelayedJobs.Proofs.Table.Identifier
import DelayedJobs.Proofs.Table.Install
import DelayedJobs.Proofs.Table.Pruning
import DelayedJobs.Proofs.Table.Qualified
import DelayedJobs.Proofs.Table.Rows
import DelayedJobs.Proofs.Table.Simulation
import DelayedJobs.Proofs.Text.Digits
import DelayedJobs.Proofs.Text.Trim
import DelayedJobs.Proofs.Text.Words
import DelayedJobs.Proofs.Time.Arithmetic
import DelayedJobs.Proofs.Time.Calendar
import DelayedJobs.Proofs.Time.Conversion
import DelayedJobs.Proofs.Time.DurationText
import DelayedJobs.Proofs.Time.Saturation
import DelayedJobs.Proofs.Time.Seconds
import DelayedJobs.Proofs.Time.TimestampText
import DelayedJobs.Proofs.Timed.Basic
import DelayedJobs.Proofs.Timed.Pacing
import DelayedJobs.Proofs.Timed.Polling
import DelayedJobs.Proofs.Timed.Restarts
import DelayedJobs.Proofs.Timed.Shutdown
import DelayedJobs.Proofs.Timed.Supervision
import DelayedJobs.Proofs.Timed.Upkeep
import DelayedJobs.Registry
import DelayedJobs.Scheduler.Cleaner
import DelayedJobs.Scheduler.Crew
import DelayedJobs.Scheduler.Lease
import DelayedJobs.Scheduler.Poller
import DelayedJobs.Scheduler.Supervisor
import DelayedJobs.Scheduler.World
import DelayedJobs.Settings.Basic
import DelayedJobs.Settings.Text
import DelayedJobs.Simulation.CommandTrial
import DelayedJobs.Simulation.LeaseTrial
import DelayedJobs.Simulation.Rehearsal
import DelayedJobs.Simulation.Scenario
import DelayedJobs.Simulation.Supervision
import DelayedJobs.Store.Basic
import DelayedJobs.Store.Error
import DelayedJobs.Store.Memory
import DelayedJobs.Store.Retaining
import DelayedJobs.Store.Scan
import DelayedJobs.Table.Meaning
import DelayedJobs.Table.Query
import DelayedJobs.Table.Reply
import DelayedJobs.Table.Row
import DelayedJobs.Table.Session
import DelayedJobs.Table.Settings
import DelayedJobs.Table.SettingsText
import DelayedJobs.Table.Statement
import DelayedJobs.Table.Traffic
import DelayedJobs.Table.Wire
import DelayedJobs.Text.Blank
import DelayedJobs.Time.Calendar
import DelayedJobs.Time.Duration
import DelayedJobs.Time.DurationText
import DelayedJobs.Time.Instant
import DelayedJobs.Time.Timestamp
import DelayedJobs.Uuid
