import ByoriDB.Codec.EdgeEncoding
import ByoriDB.Executor.AllShortestPaths
import ByoriDB.Executor.Budget
import ByoriDB.Executor.ClassRuns
import ByoriDB.Executor.Consistency
import ByoriDB.Executor.Deletions
import ByoriDB.Executor.Entailed
import ByoriDB.Executor.IndexCodec
import ByoriDB.Executor.IndexIds
import ByoriDB.Executor.MatchOptional
import ByoriDB.Executor.SchemaReferences
import ByoriDB.Executor.SpaceIds
import ByoriDB.Executor.TagEntries
import ByoriDB.Executor.WeightedPath
import ByoriDB.Meta.Hotspot
import ByoriDB.Meta.Recovery
import ByoriDB.Raft.Applying
import ByoriDB.Raft.Election
import ByoriDB.Raft.Transfer
import ByoriDB.Service.Shutdown
import ByoriDB.Storage.ScanEdges
import ByoriDB.Store.History
import ByoriDB.Store.OverlayRefinement
