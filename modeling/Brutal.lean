import Brutal.Lib.Run
import Brutal.Lib.RefCount
import Brutal.Base.Range
import Brutal.Base.Abi
import Brutal.Boot.Handover
import Brutal.Boot.HandoverNormalForm
import Brutal.Boot.HandoverRuns
import Brutal.Boot.RangeAlign
import Brutal.Ds.Bits
import Brutal.Ds.Slot
import Brutal.Ds.RangeAlloc
import Brutal.Ds.Ring
import Brutal.Sync.Locks
import Brutal.Kernel.Pmm
import Brutal.Kernel.PmmExclusive
import Brutal.Kernel.Domain
import Brutal.Kernel.Vmm
import Brutal.Kernel.Space
import Brutal.Kernel.PageTables
import Brutal.Kernel.SpaceIsolation
import Brutal.Kernel.Channel
import Brutal.Kernel.ChannelRuns
import Brutal.Kernel.Event
import Brutal.Kernel.Sched
import Brutal.Kernel.SchedNext
import Brutal.Kernel.SchedExclusive
import Brutal.Kernel.Object
import Brutal.Kernel.References
import Brutal.Kernel.Syscall
import Brutal.Kernel.Init
import Brutal.Kernel.SyscallBalance
import Brutal.Kernel.SyscallRuns
import Brutal.Kernel.Transfer
import Brutal.Kernel.Rights
import Brutal.Ipc.Component
import Brutal.Io.Stream
import Brutal.Lib.Loop
import Brutal.Io.Cells
import Brutal.Io.BitStream
import Brutal.Io.Window
import Brutal.Hash.Crc32
import Brutal.Codec.Huff
import Brutal.Codec.Inflate
import Brutal.Codec.Deflate
import Brutal.Codec.Gzip
import Brutal.Codec.GzipRoundTrip
import Brutal.Io.Safe
import Brutal.Codec.HuffTables
import Brutal.Lib.Linked
import Brutal.Lib.Layout
import Brutal.Alloc.Heap
import Brutal.Alloc.HeapShape
import Brutal.Alloc.HeapPlace
import Brutal.Alloc.HeapSearch
import Brutal.Alloc.HeapRelease
import Brutal.Alloc.HeapRuns
import Brutal.Alloc.HeapSizes
import Brutal.System.Bus
import Brutal.Fibers.Fibers
import Brutal.Fibers.Lifetime
import Brutal.Fibers.Choice
import Brutal.Fibers.Links
import Brutal.Bvm.Machine
import Brutal.Bvm.Eval
import Brutal.Bvm.CallReturn
import Brutal.Lib.Bytes
import Brutal.Ipc.Pack
import Brutal.Ipc.Refusal
import Brutal.Ipc.Unpack
import Brutal.Idl.Cgen
import Brutal.Idl.RoundTrip
import Brutal.Idl.VecLayout
import Brutal.Kernel.SchedHandover
import Brutal.Hw.Fdt
import Brutal.Hw.FdtLayout
import Brutal.Hw.FdtWalk
import Brutal.Text.Scan
import Brutal.Text.Emit
import Brutal.Ds.Map
import Brutal.Json.Json
import Brutal.Lib.Removal
import Brutal.Kernel.SchedReap
import Brutal.Kernel.SchedDispatch
import Brutal.Kernel.Teardown
import Brutal.Kernel.DomainMap
import Brutal.Kernel.Translate
import Brutal.Kernel.MapPage
import Brutal.Kernel.MapRange
import Brutal.Kernel.SpaceTables
import Brutal.Kernel.Virt2Phys
import Brutal.Ds.FreeRanges
import Brutal.Kernel.SpaceRuns
import Brutal.Kernel.SpaceUnmap
import Brutal.Text.Decimal
import Brutal.Json.Text
import Brutal.Json.ReadBack
import Brutal.Json.RoundTrip
import Brutal.Json.Grammar
import Brutal.Ds.FreeSearch
import Brutal.Io.WindowHistory
import Brutal.Codec.OutputBuffer
import Brutal.Io.Bits
import Brutal.Io.Copy
import Brutal.Io.BitFields
import Brutal.Codec.Canonical
import Brutal.Codec.Blocks
import Brutal.Codec.BlockTrees
import Brutal.Codec.BlockStream
import Brutal.Text.Search
import Brutal.Text.Utf8
import Brutal.Hash.Crc32Bits
import Brutal.Text.Case
import Brutal.Text.ZeroFill
import Brutal.Text.Specifier
import Brutal.Text.Printf
import Brutal.Text.NumberBuffer
import Brutal.Text.Glob
import Brutal.Json.Accepts
import Brutal.Json.Missing
import Brutal.Json.Sentences
import Brutal.Text.CaseWords
import Brutal.Lib.Memory
import Brutal.Ds.MapTable
import Brutal.Lib.RadixTree
import Brutal.Fs.Ext2
import Brutal.Fs.BlockList
import Brutal.Fs.BlockMap
import Brutal.Fs.Disk
import Brutal.Fs.Addressing
import Brutal.Fs.Directory
import Brutal.Fs.Listing
import Brutal.Fs.BlockAlloc
import Brutal.Task.Exec
import Brutal.Task.LoadImage
import Brutal.Cc.Lexer
import Brutal.Cc.Lossless
import Brutal.Cc.Munch
import Brutal.Cc.Preprocessor
import Brutal.Cc.Calls
import Brutal.Cc.Pasting
import Brutal.Cc.Nesting
import Brutal.Cc.Turns
import Brutal.Lib.Settled
import Brutal.Bvm.SlotStore
import Brutal.Bvm.Locals
import Brutal.Bvm.NewObjects
import Brutal.Io.Buf
import Brutal.Gfx.Dirty
import Brutal.Math.Rect
import Brutal.Window.Server
import Brutal.Hw.Ps2Mouse
import Brutal.Hw.Acpi
import Brutal.Hw.Ahci
import Brutal.Hw.Pci
import Brutal.Hw.PciVisits
import Brutal.Lib.Tree
import Brutal.Lib.Gregorian
import Brutal.Calendar.Convert
import Brutal.Hw.FdtLookup
import Brutal.Hw.FdtSearch
import Brutal.Lib.Exchange
import Brutal.Libc.Qsort
import Brutal.Libc.Strings
import Brutal.Ds.VecInsert
import Brutal.Alloc.HeapSizes
import Brutal.Cc.Ast
import Brutal.Idl.Syntax
import Brutal.Idl.Dispatch
import Brutal.Text.CaseSpelling
import Brutal.Idl.MessageNames
import Brutal.Idl.Resolved
import Brutal.Kernel.SchedPeek
import Brutal.Ds.VecPush
