import Htram.Common.FairRun
import Htram.Common.KeyedHold
import Htram.Common.KeyScan
import Htram.Common.Network
import Htram.Common.Packing
import Htram.Common.ProbeTable
import Htram.Common.RankSort
import Htram.Common.Rows
import Htram.Common.SlotBlocks
import Htram.Common.WordBits
import Htram.Hold.HoldQueue
import Htram.Hold.Fifo
import Htram.Hold.CombiningHold
import Htram.Hold.Table
import Htram.Hold.TableInv
import Htram.Hold.ListInv
import Htram.Hold.Refine
import Htram.Hold.Release
import Htram.Hold.Stamps
import Htram.Hold.Calls
import Htram.Hold.Probes
import Htram.Hold.Contents
import Htram.Hold.Wrap
import Htram.Hold.Mistaken
import Htram.Pe.Dest
import Htram.Pe.Htram
import Htram.Pe.Capacity
import Htram.Pe.Lane
import Htram.Pe.LaneInv
import Htram.Pe.LaneItems
import Htram.Pe.LaneGate
import Htram.Pe.View
import Htram.Pe.Queued
import Htram.Pe.QueuedFlush
import Htram.Pe.QueuedTune
import Htram.Pe.Folding
import Htram.Pe.Steps
import Htram.Pe.Acts
import Htram.Pe.Bodies
import Htram.Pe.HoldBits
import Htram.Pe.Runs
import Htram.Pe.Wrap
import Htram.Pe.Admitted
import Htram.Pe.Items
import Htram.Pe.Transparent
import Htram.Pe.SourceSorted
import Htram.Pe.Coarser
import Htram.Pe.Enable
import Htram.Pe.Fills
import Htram.Pe.Lowest
import Htram.Pe.FlushAgree
import Htram.Pe.FlushEverything
import Htram.Pe.Backlog
import Htram.Pe.Books
import Htram.Pe.Quiet
import Htram.Pe.Exact
import Htram.Pe.FullSends
import Htram.Pe.Stale
import Htram.Pe.Switch
import Htram.Pp.Node
import Htram.Pp.Progress
import Htram.Pp.Shared
import Htram.Pp.Exclusion
import Htram.Pp.Accesses
import Htram.Pp.Shipments
import Htram.Pp.Solo
import Htram.Pp.Turns
import Htram.Pp.Returns
import Htram.Pp.Flushed
import Htram.Recv.Sort
import Htram.Recv.Scan
import Htram.Recv.Process
import Htram.System.Events
import Htram.System.Sound
import Htram.System.Totals
import Htram.System.Delivery
import Htram.System.Quiesce
import Htram.System.Quiescence
import Htram.System.Sorted
import Htram.System.Scanned
import Htram.Pp.Cluster
import Htram.Pp.Hosts
import Htram.Pp.Stock
import Htram.Pp.Placed
import Htram.Pp.Drained
import Htram.Pp.Calls
import Htram.Pp.Settles
import Htram.Client.Index
import Htram.Client.Histo
import Htram.Client.Gather
import Htram.Client.Gathered
import Htram.Client.GatherEnds
import Htram.System.Load
import Htram.Client.HistoEnds
import Htram.System.Fires
