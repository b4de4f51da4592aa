import SynapseFs.Align.AuctionBound
import SynapseFs.Align.Components
import SynapseFs.Align.Propagate
import SynapseFs.Align.SparseRepair
import SynapseFs.Align.TopologyRefines
import SynapseFs.Cmd.CheckoutTopology
import SynapseFs.Codec.Advisory
import SynapseFs.Codec.FrameCover
import SynapseFs.Codec.Kernels
import SynapseFs.Core.Framing
import SynapseFs.Format.Canonical
import SynapseFs.Format.StHeaderGuards
import SynapseFs.Mount.Attach
import SynapseFs.Mount.CacheRuns
import SynapseFs.Mount.Layout
import SynapseFs.Mount.Session
import SynapseFs.Net.Resume
import SynapseFs.Stio.Sha256Standard
import SynapseFs.Store.BlockStore
import SynapseFs.Store.ByteIdentity
import SynapseFs.Store.Chains
import SynapseFs.Store.ColumnConvention
import SynapseFs.Store.CrashedCommit
import SynapseFs.Store.JournalFrame
import SynapseFs.Store.MergeBase
import SynapseFs.Store.MergeLaw
import SynapseFs.Store.PlanTotal
import SynapseFs.Store.RangedReads
import SynapseFs.Store.Recovery
import SynapseFs.Store.ReadCaches
import SynapseFs.Store.RefReads
import SynapseFs.Store.WalkOrder
import SynapseFs.Util.AtomicIo
