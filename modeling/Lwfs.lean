import Lwfs.Authr.AccessDecision
import Lwfs.Authr.AclAlgebra
import Lwfs.Authr.AclRuns
import Lwfs.Authr.Atomicity
import Lwfs.Authr.Cap
import Lwfs.Authr.Db
import Lwfs.Authr.Keys
import Lwfs.Authr.Lifecycle
import Lwfs.Authr.Revocation
import Lwfs.Authr.Serialization
import Lwfs.Authr.Server
import Lwfs.Authr.Soundness
import Lwfs.Authr.Steps
import Lwfs.Authr.Uids
import Lwfs.Authr.UniqueIds
import Lwfs.Authr.Whole
import Lwfs.Client.CapCache
import Lwfs.Client.CreateFile
import Lwfs.Client.FillDir
import Lwfs.Client.FsLwfs
import Lwfs.Client.ManagementObject
import Lwfs.Client.ObjectLifetime
import Lwfs.Client.PartialFailure
import Lwfs.Client.Paths
import Lwfs.Client.Reachability
import Lwfs.Client.Renaming
import Lwfs.Client.SparseFile
import Lwfs.Client.StoredFile
import Lwfs.Client.StripedFile
import Lwfs.Client.Striping
import Lwfs.Client.VectoredRead
import Lwfs.Client.VerifyCaps
import Lwfs.CoreServices
import Lwfs.Lib.Allocator
import Lwfs.Lib.Bytes
import Lwfs.Lib.CString
import Lwfs.Lib.Carry
import Lwfs.Lib.Chains
import Lwfs.Lib.Codec
import Lwfs.Lib.Comparator
import Lwfs.Lib.Conflict
import Lwfs.Lib.Discipline
import Lwfs.Lib.DoublyLinked
import Lwfs.Lib.Faulty
import Lwfs.Lib.Forest
import Lwfs.Lib.Format
import Lwfs.Lib.Image
import Lwfs.Lib.Index
import Lwfs.Lib.Interleave
import Lwfs.Lib.LinkedList
import Lwfs.Lib.Prog
import Lwfs.Lib.Refinement
import Lwfs.Lib.Retry
import Lwfs.Lib.Routine
import Lwfs.Lib.Run
import Lwfs.Lib.Stripe
import Lwfs.Lib.Xdr
import Lwfs.Naming.Abort
import Lwfs.Naming.Access
import Lwfs.Naming.Change
import Lwfs.Naming.CleanFailures
import Lwfs.Naming.Db
import Lwfs.Naming.Directories
import Lwfs.Naming.Effect
import Lwfs.Naming.FailedRequests
import Lwfs.Naming.FreshIds
import Lwfs.Naming.Initial
import Lwfs.Naming.LinkCounts
import Lwfs.Naming.LinkRace
import Lwfs.Naming.LinkedDirs
import Lwfs.Naming.Listing
import Lwfs.Naming.ListingRace
import Lwfs.Naming.Namespaces
import Lwfs.Naming.Overflow
import Lwfs.Naming.Parents
import Lwfs.Naming.RefCount
import Lwfs.Naming.Server
import Lwfs.Naming.Steps
import Lwfs.Naming.Traces
import Lwfs.Naming.Trails
import Lwfs.Naming.Tree
import Lwfs.Naming.UniqueOids
import Lwfs.Rpc.Blocks
import Lwfs.Rpc.Call
import Lwfs.Rpc.EntryFormat
import Lwfs.Rpc.EqPoll
import Lwfs.Rpc.Operations
import Lwfs.Rpc.Replies
import Lwfs.Rpc.Service
import Lwfs.Rpc.ServiceStart
import Lwfs.Rpc.Transfer
import Lwfs.Rpc.Transparency
import Lwfs.Rpc.Types
import Lwfs.Rpc.Wait
import Lwfs.Rpc.WaitAny
import Lwfs.Rpc.Wire
import Lwfs.Rpc.XdrRegistry
import Lwfs.Storage.Access
import Lwfs.Storage.Atomicity
import Lwfs.Storage.AttrLaws
import Lwfs.Storage.Attributes
import Lwfs.Storage.Descriptors
import Lwfs.Storage.Files
import Lwfs.Storage.Frames
import Lwfs.Storage.ObjectData
import Lwfs.Storage.ObjectOps
import Lwfs.Storage.OpenFiles
import Lwfs.Storage.OpenList
import Lwfs.Storage.Outcomes
import Lwfs.Storage.Paths
import Lwfs.Storage.ReadOnly
import Lwfs.Storage.Removal
import Lwfs.Storage.Requests
import Lwfs.Storage.Restart
import Lwfs.Storage.Server
import Lwfs.Storage.Sessions
import Lwfs.Storage.Store
import Lwfs.Storage.SysioObj
import Lwfs.Support.Conservation
import Lwfs.Support.Draining
import Lwfs.Support.Hashtable
import Lwfs.Support.HashtableItr
import Lwfs.Support.HashtableMemory
import Lwfs.Support.HashtableRuns
import Lwfs.Support.Tclist
import Lwfs.Support.TclistCalls
import Lwfs.Support.TclistRefinement
import Lwfs.Support.TclistRules
import Lwfs.Support.TclistRuns
import Lwfs.Support.ThreadPool
import Lwfs.Support.Ui64
import Lwfs.Support.Uuid
import Lwfs.Support.UuidRuns
import Lwfs.Types
