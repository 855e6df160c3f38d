import Calcsig.Foundation.Text
import Calcsig.Foundation.Lines
import Calcsig.Foundation.Programs
import Calcsig.Foundation.Interleavings
import Calcsig.Foundation.Runs
import Calcsig.Foundation.Census
import Calcsig.Foundation.TypedStore
import Calcsig.Foundation.RedisServer
import Calcsig.Foundation.Documents
import Calcsig.Foundation.FileTree
import Calcsig.Foundation.FileCalls
import Calcsig.Foundation.Inodes
import Calcsig.Foundation.Incremental
import Calcsig.Utils.SigPath
import Calcsig.Utils.MoveFile
import Calcsig.Utils.MakeDirs
import Calcsig.Utils.MoveSuccess
import Calcsig.Utils.RedundantSlashes
import Calcsig.Utils.ContentSignature
import Calcsig.Utils.ReadSequence
import Calcsig.Utils.RandString
import Calcsig.Utils.Config
import Calcsig.Utils.ConfigRoundTrip
import Calcsig.Utils.ConfigEntries
import Calcsig.Store.Publishing
import Calcsig.Store.MovePaths
import Calcsig.Store.ConcurrentMoves
import Calcsig.Server.Transfer
import Calcsig.Server.HeaderFields
import Calcsig.Server.Worker
import Calcsig.Server.StoredContent
import Calcsig.Server.WorkerCalls
import Calcsig.Server.Confinement
import Calcsig.Server.WorkerResources
import Calcsig.Server.Request
import Calcsig.Server.RequestOutcome
import Calcsig.ObjectPool.Model
import Calcsig.ObjectPool.Accounting
import Calcsig.ObjectPool.Guarantees
import Calcsig.ThreadPool.Model
import Calcsig.ThreadPool.Discipline
import Calcsig.ThreadPool.Shutdown
import Calcsig.ThreadPool.Wakeups
import Calcsig.Server.TaskFlow
import Calcsig.Server.Authentication
import Calcsig.Server.RequestKey
import Calcsig.Server.Startup
import Calcsig.Server.Stopping
import Calcsig.Server.SmallSteps
import Calcsig.Server.WorkerEffects
import Calcsig.Server.StoreIntegrity
import Calcsig.Server.CallbackFlow
import Calcsig.Indexer.Model
import Calcsig.Indexer.Interrupted
import Calcsig.Indexer.Queries
import Calcsig.Indexer.KeySpace
import Calcsig.Indexer.Keys
import Calcsig.Indexer.Fields
import Calcsig.Indexer.Coverage
import Calcsig.Indexer.Idempotence
import Calcsig.Indexer.Passes
import Calcsig.Indexer.Image
import Calcsig.MysqlPool.Fetching
import Calcsig.MysqlPool.Conversion
import Calcsig.Indexer.FetchedRows
import Calcsig.Hiredis.Read
import Calcsig.Hiredis.Chunks
import Calcsig.Hiredis.Replies
import Calcsig.Hiredis.Assertions
import Calcsig.Hiredis.Commands
import Calcsig.Hiredis.Formats
import Calcsig.Hiredis.Exchange
import Calcsig.Hiredis.Conversation
import Calcsig.RedisPool.Connection
import Calcsig.RedisPool.Clients
import Calcsig.RedisPool.Sets
import Calcsig.RedisPool.RoundTrip
import Calcsig.RedisPool.Reports
import Calcsig.ThreadPool.Adjusting
import Calcsig.ThreadPool.Elastic
import Calcsig.ThreadPool.TaskPool
import Calcsig.ThreadPool.FunctionPool
import Calcsig.ThreadPool.Draining
import Calcsig.ThreadPool.Resizing
