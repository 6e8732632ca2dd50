import CudaOxide.Artifacts.RoundTrip
import CudaOxide.Async.DeviceFuture
import CudaOxide.Async.KernelArgs
import CudaOxide.Async.Predicate
import CudaOxide.Async.Protocol
import CudaOxide.Async.Reactor
import CudaOxide.Cute.Alignment
import CudaOxide.Cute.Builds
import CudaOxide.Cute.ByteOffsets
import CudaOxide.Cute.Copies
import CudaOxide.Cute.Idx2crd
import CudaOxide.Cute.IndexMaps
import CudaOxide.Cute.LeftInverse
import CudaOxide.Cute.Parse
import CudaOxide.Cute.Predication
import CudaOxide.Cute.Sm100
import CudaOxide.Cute.StaticLayout
import CudaOxide.Cute.ThreadValueFits
import CudaOxide.Cute.TileToShape
import CudaOxide.Cute.Validation.Cooperative
import CudaOxide.Cute.Validation.Tma
import CudaOxide.Device.BlockCollectives
import CudaOxide.Device.Disjointness
import CudaOxide.Device.GridSync
import CudaOxide.Launch.KernelCache
import CudaOxide.Launch.LaunchSite
import CudaOxide.Lower.ByteFaithful
import CudaOxide.Lower.EnumLayout
import CudaOxide.Lower.SlotFaithful
import CudaOxide.Lower.Transmute
import CudaOxide.Memory.Leases
import CudaOxide.Mir.Canonicalize.ArmRun
import CudaOxide.Mir.Canonicalize.ArmScan
import CudaOxide.Mir.Canonicalize.CheckedStep
import CudaOxide.Mir.Canonicalize.EraseChain
import CudaOxide.Mir.Canonicalize.FoldStep
import CudaOxide.Mir.Canonicalize.Liveouts
import CudaOxide.Mir.EnumDiscriminant
import CudaOxide.Mir.FoldIndex
import CudaOxide.Mir.LoopInfo
import CudaOxide.Mir.PartialUnroll
import CudaOxide.Mir.Recurrences
import CudaOxide.Pipeline.ClusterTiles
import CudaOxide.Pipeline.Progress
import CudaOxide.Pipeline.Scheduler
import CudaOxide.Ptx.Accounting
import CudaOxide.Ptx.EditMap
import CudaOxide.Ptx.Lossless
import CudaOxide.Ptx.Operands
import CudaOxide.Ptx.Simultaneous
import CudaOxide.Tile.CacheEntry
import CudaOxide.Tile.KernelEntry
import CudaOxide.Tile.LaunchGrid
import CudaOxide.Tile.MappedSchedule
import CudaOxide.Tile.HoistedChecks
import CudaOxide.Tile.TensorViews
import CudaOxide.Tile.ValueFacts
import CudaOxide.TileIr.Flags
import CudaOxide.TileIr.Float8
import CudaOxide.TileIr.Segments
import CudaOxide.TileIr.TypeRoundTrip
import CudaOxide.TileIr.TypeSection
import CudaOxide.TileIr.ValueNumbering
