import MyMalloc.Lib.Word
import MyMalloc.Lib.Links
import MyMalloc.Lib.ProbeTable
import MyMalloc.Lib.Program
import MyMalloc.Adaptive.Types
import MyMalloc.Adaptive.Modes
import MyMalloc.Adaptive.Runtime
import MyMalloc.Adaptive.Telemetry
import MyMalloc.Adaptive.Layout
import MyMalloc.Adaptive.State
import MyMalloc.Adaptive.Storage
import MyMalloc.Adaptive.Services
import MyMalloc.Adaptive.System
import MyMalloc.Adaptive.Mapping
import MyMalloc.Adaptive.Pools
import MyMalloc.Adaptive.CostModel
import MyMalloc.Adaptive.Selector
import MyMalloc.Adaptive.Hardened
import MyMalloc.Adaptive.Extents
import MyMalloc.Hooks.Routing
import MyMalloc.Hooks.Bootstrap
import MyMalloc.Adaptive.Ownership
import MyMalloc.Lib.Bisect
import MyMalloc.Lib.LockDiscipline
import MyMalloc.Lib.Region
import MyMalloc.Lib.Ring
import MyMalloc.Lib.Rounding
import MyMalloc.Lib.Loops
import MyMalloc.Lib.Joining
import MyMalloc.Lib.TwoSmallest
import MyMalloc.Lib.Fault
import MyMalloc.Lib.Tiling
import MyMalloc.Classic.Tcmalloc.SizeClasses
import MyMalloc.Classic.Tcmalloc.PageHeap
import MyMalloc.Classic.Tcmalloc.Central
import MyMalloc.Classic.Tcmalloc.RemoveRange
import MyMalloc.Classic.Tcmalloc.Memalign
import MyMalloc.Classic.Tcmalloc.Malloc
import MyMalloc.Classic.Tcmalloc.HeapOk
import MyMalloc.Classic.Tcmalloc.PageMap
import MyMalloc.Classic.Tcmalloc.SpanBounds
import MyMalloc.Classic.Tcmalloc.CacheCounts
import MyMalloc.Classic.Tcmalloc.Usable
import MyMalloc.Classic.Tcmalloc.Runs
import MyMalloc.Classic.Jemalloc.Malloc
import MyMalloc.Classic.Jemalloc.Bookkeeping
import MyMalloc.Classic.Jemalloc.Tcache
import MyMalloc.Classic.Jemalloc.Usable
import MyMalloc.Classic.Mimalloc.Malloc
import MyMalloc.Classic.Mimalloc.Blocks
import MyMalloc.Classic.Mimalloc.Usable
import MyMalloc.Classic.Mimalloc.Runs
import MyMalloc.Classic.Ptmalloc.Sizes
import MyMalloc.Classic.Ptmalloc.Locks
import MyMalloc.Classic.Ptmalloc.Bins
import MyMalloc.Classic.Ptmalloc.Coalesce
import MyMalloc.Classic.Ptmalloc.Malloc
import MyMalloc.Classic.Ptmalloc.Headers
import MyMalloc.Classic.Ptmalloc.FreeLists
import MyMalloc.Classic.Ptmalloc.Scan
import MyMalloc.Classic.Ptmalloc.LargeBins
import MyMalloc.Classic.Ptmalloc.Tags
import MyMalloc.Classic.Ptmalloc.FreeChunk
import MyMalloc.Classic.Ptmalloc.Consolidate
import MyMalloc.Classic.Ptmalloc.Blocks
import MyMalloc.Classic.Ptmalloc.Invariant
import MyMalloc.Classic.Ptmalloc.Moves
import MyMalloc.Classic.Ptmalloc.Carving
import MyMalloc.Classic.Ptmalloc.Serving
import MyMalloc.Classic.Ptmalloc.Arenas
import MyMalloc.Classic.Ptmalloc.Fresh
import MyMalloc.Classic.Ptmalloc.Extend
import MyMalloc.Classic.Ptmalloc.HeapGrowth
import MyMalloc.Classic.Ptmalloc.Requests
import MyMalloc.Classic.Ptmalloc.Release
import MyMalloc.Adaptive.ModeSwitch
import MyMalloc.Adaptive.Windows
import MyMalloc.Classic.ThreadCaches
import MyMalloc.Classic.Ptmalloc.Registry
import MyMalloc.Classic.Mimalloc.Links
import MyMalloc.Classic.Mimalloc.LinkedHeap
import MyMalloc.Classic.Mimalloc.SmallRuns
import MyMalloc.Classic.Mimalloc.RemoteFree
import MyMalloc.Classic.Ptmalloc.Realloc
import MyMalloc.Classic.Ptmalloc.Runs
import MyMalloc.Classic.Ptmalloc.Roles
import MyMalloc.Classic.Ptmalloc.Available
import MyMalloc.Classic.Ptmalloc.UserRanges
import MyMalloc.Classic.Ptmalloc.Sufficient
import MyMalloc.Classic.Ptmalloc.Memalign
import MyMalloc.Adaptive.PoolGrowth
import MyMalloc.Lib.Grouping
import MyMalloc.Lib.Weights
import MyMalloc.Lib.LeastSquares
import MyMalloc.Training.Objective
import MyMalloc.Training.Labels
import MyMalloc.Training.Boosting
import MyMalloc.Training.Scoring
import MyMalloc.Lib.Along
import MyMalloc.Lib.HeapContract
import MyMalloc.Bench.PayloadValidation
import MyMalloc.Classic.Jemalloc.Extents
import MyMalloc.Classic.Jemalloc.Rtree
import MyMalloc.Classic.Jemalloc.Memalign
import MyMalloc.Classic.Jemalloc.Huge
import MyMalloc.Classic.Mimalloc.Memalign
import MyMalloc.Classic.Mimalloc.Reuse
import MyMalloc.Adaptive.Retention
import MyMalloc.Adaptive.SoftSwitch
import MyMalloc.Alignment
import MyMalloc.Classic.Mimalloc.Addresses
import MyMalloc.Classic.Ptmalloc.TcacheLists
import MyMalloc.Classic.Ptmalloc.Binmap
import MyMalloc.Classic.Ptmalloc.BinLists
import MyMalloc.Classic.Ptmalloc.Calls
