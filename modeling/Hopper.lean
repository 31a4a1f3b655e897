import Hopper.Guarantees.Fencing
import Hopper.Guarantees.Ownership
import Hopper.Guarantees.Ordering
import Hopper.Guarantees.Uniqueness
import Hopper.Guarantees.Budget
import Hopper.Guarantees.InsertWakes
import Hopper.Guarantees.Completion
import Hopper.Guarantees.LeaseLoss
import Hopper.Guarantees.Topics
import Hopper.Guarantees.Deliveries
import Hopper.Guarantees.CronReturns
import Hopper.Guarantees.InsertEach
import Hopper.Guarantees.LeaderTerms
import Hopper.Guarantees.Streams
import Hopper.Guarantees.Wakes
import Hopper.Guarantees.SnapshotStreams
import Hopper.Guarantees.FinalizerStop
import Hopper.Guarantees.LeaderLoops
import Hopper.Guarantees.PeriodicSlots
import Hopper.Guarantees.Dependencies
import Hopper.Guarantees.Workflows
import Hopper.Guarantees.Containment
import Hopper.Guarantees.JsonInput
import Hopper.Guarantees.Periods
import Hopper.Guarantees.Backfill
import Hopper.Guarantees.Awaits
import Hopper.Guarantees.AttemptLogs
import Hopper.Guarantees.Notifications
import Hopper.Guarantees.Listings
import Hopper.Guarantees.LogViews
import Hopper.Postgres.ArrayLiteral
import Hopper.Sqlite.Clock
import Hopper.Sqlite.Listener
