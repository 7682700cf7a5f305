import Amind.Async.Executor
import Amind.Auth.Revocation
import Amind.Capture.Reconciler
import Amind.Capture.Refinement
import Amind.Capture.Replace
import Amind.Config.Persistence
import Amind.Conflict.Resolver
import Amind.Consolidation.NormPruning
import Amind.Core.SnowflakeOrder
import Amind.Core.SnowflakeWait
import Amind.Core.StrictReading
import Amind.Graph.Concurrency
import Amind.Graph.Queries
import Amind.Lib.Levels
import Amind.Lineage.Descendants
import Amind.Lineage.Propagator
import Amind.Lsm.BloomSizes
import Amind.Lsm.Compaction
import Amind.Lsm.FileNames
import Amind.Lsm.Lookup
import Amind.Lsm.ManifestFile
import Amind.Lsm.MergeLoop
import Amind.Lsm.OnFiles
import Amind.Lsm.Recovery
import Amind.Lsm.Reopen
import Amind.Lsm.SSTableRoundTrip
import Amind.Lsm.SSTableWalks
import Amind.Lsm.SkipListRuns
import Amind.Lsm.TornTail
import Amind.Lsm.WalDamage
import Amind.Lsm.WalOrder
import Amind.Lsm.WalRetention
import Amind.Memory.Backing
import Amind.Memory.Backup
import Amind.Memory.Durable
import Amind.Memory.Enumerate
import Amind.Memory.GetHistory
import Amind.Memory.GetRace
import Amind.Memory.GraphBackup
import Amind.Memory.Rebuild
import Amind.Memory.Versions
import Amind.Observability.EventLog
import Amind.Observability.Files
import Amind.Provider.Chunks
import Amind.Provider.ConnectionPool
import Amind.Provider.Fallback
import Amind.Retrieval.Isolated
import Amind.Retrieval.Noninterference
import Amind.Retrieval.Slots
import Amind.Retrieval.Staleness
import Amind.Retrieval.Winners
import Amind.Sdk.Answers
import Amind.Server.AgentDirs
import Amind.Server.Emissions
import Amind.Server.ForgetCycle
import Amind.Server.Framing
import Amind.Server.Isolation
import Amind.Server.Lists
import Amind.Server.Ports
import Amind.Server.Proxy
import Amind.Server.RemoveAgent
import Amind.Server.Tenants
import Amind.Server.Throws
import Amind.Sessions.Restart
import Amind.SideLogs.CheckpointCrash
import Amind.SideLogs.TornTails
import Amind.Storage.Bookkeeping
import Amind.Storage.Recovery
import Amind.Storage.Transparency
import Amind.Storage.WalCodec
import Amind.Vector.ColdSearch
import Amind.Vector.Compaction
import Amind.Vector.Distance
import Amind.Vector.Filtered
import Amind.Vector.IndexFile
