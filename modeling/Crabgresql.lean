import Crabgresql.Lockmgr.Waiting
import Crabgresql.Cluster.Staging
import Crabgresql.Single.Discarded
import Crabgresql.Cancellation
import Crabgresql.Cluster.Rowids
import Crabgresql.Cluster.Visible
import Crabgresql.Cluster.Relock
import Crabgresql.Replica.Decisions
import Crabgresql.Replica.Snapshots
import Crabgresql.Replica.LogStore
import Crabgresql.Replica.InDoubt
import Crabgresql.Router.Isolation
import Crabgresql.Router.Dispatch
import Crabgresql.Wire.Cancel
import Crabgresql.Wire.Auth
import Crabgresql.Forward.Once
import Crabgresql.Settings
import Crabgresql.Catalog.Atomic
import Crabgresql.Sql.Lexer
import Crabgresql.Executor.Like
import Crabgresql.Executor.Select
import Crabgresql.Executor.Setops
import Crabgresql.Executor.Subquery
import Crabgresql.Executor.DatetimeFn
import Crabgresql.Executor.Numeric
import Crabgresql.Executor.Unify
