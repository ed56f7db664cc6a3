import AsterKernel.Vm.Frame
import AsterKernel.Sync.RwMutex
import AsterKernel.Paging.PageTable
import AsterKernel.Vm.Placement
import AsterKernel.Sync.Waiter
import AsterKernel.Sched.Context
import AsterKernel.Component.Init
import AsterKernel.Vm.Gaps
import AsterKernel.Frame.Handle
import AsterKernel.Time.Timer
import AsterKernel.Time.ClockSource
import AsterKernel.WorkQueue.Items
import AsterKernel.Ext2.Resize
import AsterKernel.Ext2.SuperBlock
import AsterKernel.Ext2.RawInode
import AsterKernel.Ext2.Tiling
import AsterKernel.Process.Clone
import AsterKernel.Process.Terminals
import AsterKernel.Process.Wake
import AsterKernel.Ramfs.Links
import AsterKernel.Vfs.Tree
import AsterKernel.Block.Driver
import AsterKernel.Futex.Isolation
import AsterKernel.Futex.Join
import AsterKernel.Signal.Mask
import AsterKernel.Signal.Frame
import AsterKernel.Channel.Stream
import AsterKernel.Channel.Wakeup
import AsterKernel.Epoll.Wait
import AsterKernel.Net.Ports
import AsterKernel.Dma.Mapping
import AsterKernel.Sched.Processor
import AsterKernel.Boot.MemoryRegion
import AsterKernel.Util.RecycleAllocator
