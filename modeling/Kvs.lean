import Kvs.Core.CString
import Kvs.Core.LinkedHeap
import Kvs.Core.Ownership
import Kvs.Core.SameOutcome
import Kvs.Core.KeyedList
import Kvs.Core.Threads
import Kvs.Core.ReaderWriter
import Kvs.Core.Snapshots
import Kvs.Core.Channels
import Kvs.Core.NameLocks
import Kvs.Core.Interleaving
import Kvs.Core.WorkPool
import Kvs.Common.Constants
import Kvs.Common.Protocol
import Kvs.Common.Io
import Kvs.Common.Reads
import Kvs.Common.Transfers
import Kvs.Client.Api
import Kvs.Server.LinkedLists
import Kvs.Server.Table
import Kvs.Server.Representation
import Kvs.Server.FiniteMap
import Kvs.Server.Operations
import Kvs.Server.TableMemory
import Kvs.Server.TableRefinement
import Kvs.Server.Batches
import Kvs.Server.Serializable
import Kvs.Server.Parser
import Kvs.Server.Tokens
import Kvs.Server.RunJob
import Kvs.Server.JobLines
import Kvs.Server.JobExecution
import Kvs.Server.Consumption
import Kvs.Server.OutputWrites
import Kvs.Server.Recovery
import Kvs.Server.Backup
import Kvs.Server.Register
import Kvs.Server.RegisterRepeats
import Kvs.Server.Queue
import Kvs.Server.SessionQueue
import Kvs.Server.Requests
import Kvs.Server.Subscriptions
import Kvs.Server.Session
import Kvs.Server.SessionFifos
import Kvs.Server.Handshake
import Kvs.Server.SessionLoop
import Kvs.Server.Disconnect
import Kvs.Server.JobThreads
import Kvs.Server.BackupRecords
import Kvs.Server.WholeRecords
import Kvs.Server.ListGrammar
import Kvs.Server.KeyRange
import Kvs.Server.OutputFiles
import Kvs.Client.Notifications
import Kvs.Server.FreshKeys
import Kvs.Server.Numbers
import Kvs.Server.JobLanguage
import Kvs.Client.Parser
import Kvs.Client.Lists
import Kvs.Client.Delay
import Kvs.Client.Commands
import Kvs.Client.Fifos
import Kvs.Client.Replies
import Kvs.Client.Encoding
import Kvs.Server.Stores
import Kvs.Server.Enumeration
import Kvs.Server.DeleteBatch
import Kvs.Server.FanOut
import Kvs.Server.Unsubscribe
import Kvs.Server.QueueRuns
import Kvs.Server.Subscribe
import Kvs.Server.Sigusr1
import Kvs.Server.DirectoryWalk
import Kvs.Server.JobSafety
import Kvs.Server.JobPhase
import Kvs.Server.BackupSnapshots
import Kvs.Server.BackupDrain
import Kvs.Server.Phases
import Kvs.Server.TableSimulation
