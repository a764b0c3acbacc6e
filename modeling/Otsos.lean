import Otsos.Heap.Guarantees
import Otsos.ChainFS.FlatDirectory
import Otsos.ChainFS.CreatedPaths
import Otsos.ChainFS.DirectoryTargets
import Otsos.ChainFS.FailedWrites
import Otsos.ChainFS.DirectoryTree
import Otsos.ChainFS.Listings
import Otsos.ChainFS.PathResolution
import Otsos.ChainFS.ReleaseTermination
import Otsos.ChainFS.UniqueNames
import Otsos.Heap.Frees
import Otsos.Drivers.SectorTransfers
import Otsos.Drivers.BlockStore
import Otsos.Drivers.InputBytes
import Otsos.Heap.AlignedSpots
import Otsos.Heap.WrappedRequests
import Otsos.ChainFS.FormatLayout
import Otsos.ChainFS.AnyDiskReads
import Otsos.ChainFS.WriteRoom
import Otsos.ChainFS.StoredSizes
import Otsos.ChainFS.ParentWalks
import Otsos.ChainFS.SlotIndices
import Otsos.ChainFS.PrintedPaths
import Otsos.ChainFS.PathBuffers
import Otsos.Heap.FirstFit
import Otsos.Drivers.LineEditor
import Otsos.Mlibc.DecimalRenderers
import Otsos.Mlibc.FormatScans
import Otsos.Mlibc.PrintfCursor
import Otsos.Bin.Calc
import Otsos.Bin.DiskClear
import Otsos.Bin.ScreenOutput
import Otsos.Drivers.MouseHighlight
import Otsos.ChainFS.AnyMapBlocks
import Otsos.Drivers.MousePackets
import Otsos.Bin.CatScreen
import Otsos.Interrupts.System
import Otsos.Interrupts.Panic
import Otsos.ChainFS.PowerLoss
import Otsos.Bin.Sessions
import Otsos.Boot.Handover
import Otsos.Drivers.MouseAlignment
