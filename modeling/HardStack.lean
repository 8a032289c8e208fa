import HardStack.Lib.Run
import HardStack.Lib.Dyadic
import HardStack.Lib.RbTree
import HardStack.Lib.TreeOrder
import HardStack.Lib.Word
import HardStack.Lib.Trie
import HardStack.Lib.Patricia
import HardStack.Lib.Marks
import HardStack.Lib.SubtreeMax
import HardStack.Lib.Interval
import HardStack.Lib.Bitmap
import HardStack.Lib.FreeRuns
import HardStack.Lib.Pager
import HardStack.Lib.HeapProgram
import HardStack.Buddy.Model
import HardStack.Buddy.Invariant
import HardStack.Buddy.Partition
import HardStack.Buddy.Coalesce
import HardStack.Buddy.MemMap
import HardStack.Buddy.PcpModel
import HardStack.Buddy.Pcp
import HardStack.Buddy.HighMemModel
import HardStack.Buddy.HighMem
import HardStack.Buddy.BestFit
import HardStack.Rbtree.Model
import HardStack.Rbtree.Layout
import HardStack.Rbtree.Callbacks
import HardStack.Rbtree.Insert
import HardStack.Rbtree.EraseColor
import HardStack.Rbtree.Erase
import HardStack.Rbtree.Run
import HardStack.Rbtree.Neighbour
import HardStack.Rbtree.Traversal
import HardStack.IntervalTree.Model
import HardStack.IntervalTree.Augment
import HardStack.IntervalTree.Run
import HardStack.IntervalTree.Iterate
import HardStack.IntervalTree.InsertAfter
import HardStack.Vmalloc.Model
import HardStack.Vmalloc.Areas
import HardStack.Vmalloc.Run
import HardStack.Vmalloc.Paging
import HardStack.Vmalloc.Entries
import HardStack.Vmalloc.Account
import HardStack.Vmalloc.Release
import HardStack.Vmalloc.Request
import HardStack.Vmalloc.Supply
import HardStack.Vmalloc.Mapping
import HardStack.Vmalloc.Complete
import HardStack.Radix.Model
import HardStack.Radix.Layout
import HardStack.Radix.Insert
import HardStack.Radix.Delete
import HardStack.Radix.Run
import HardStack.Ida.Model
import HardStack.Ida.Layout
import HardStack.Ida.Tags
import HardStack.Ida.Grow
import HardStack.XArray.Model
import HardStack.XArray.Layout
import HardStack.XArray.Create
import HardStack.XArray.Store
import HardStack.XArray.Run
import HardStack.Lib.LinkedList
import HardStack.Slub.Model
import HardStack.Slub.Layout
import HardStack.Slub.Partition
import HardStack.Memblock.Model
import HardStack.Memblock.Regions
import HardStack.Memblock.Table
import HardStack.Memblock.Find
import HardStack.Memblock.Range
import HardStack.Memblock.Run
import HardStack.Memblock.Alloc
import HardStack.Memblock.DoubleArray
import HardStack.Memblock.Iterate
import HardStack.Memblock.Dummy
import HardStack.Memblock.Search
import HardStack.Memblock.EarlyInit
import HardStack.Kmap.Model
import HardStack.Kmap.Mapping
import HardStack.Kmap.Search
import HardStack.Swap.Model
import HardStack.Swap.Run
import HardStack.Swap.Leak
import HardStack.Compact.Model
import HardStack.Compact.Run
import HardStack.Compact.Leak
import HardStack.Tree23.Model
import HardStack.Tree23.Pools
import HardStack.Percpu.Model
import HardStack.Percpu.Blocks
import HardStack.Percpu.Chunk
import HardStack.Percpu.UnitLayout
import HardStack.Slub.SizeClass
import HardStack.Slub.Order
import HardStack.Lib.Cursor
import HardStack.XArray.Search
import HardStack.XArray.Marked
import HardStack.Ida.Iterate
import HardStack.BitmapBasic.Search
import HardStack.BitmapBasic.Shift
import HardStack.Buddy.Lookups
import HardStack.ShareFifo.Queue
import HardStack.LcTrie.Run
import HardStack.PagePool.Run
import HardStack.Eeprom.Transfer
import HardStack.Swap.Bounds
import HardStack.Compact.Bounds
import HardStack.Dcache.HashName
import HardStack.Minix.Mount
import HardStack.Minix.Inodes
import HardStack.BinaryTree.Measures
import HardStack.I2c.Clock
import HardStack.Memblock.Isolate
import HardStack.Slub.Copies
import HardStack.Cma.Run
import HardStack.Dma.Window
import HardStack.Bsfs.CreateRoot
import HardStack.Bsfs.OpenRun
import HardStack.BitmapBasic.Arr32
import HardStack.BitmapBasic.Logic
import HardStack.BitmapBasic.Range
import HardStack.Ida.NextBit
import HardStack.Ida.FindBit
import HardStack.I2c.TransferRun
import HardStack.Tmap.Run
import HardStack.Bsfs.Removed
import HardStack.Kasprintf.Vsnprintf
import HardStack.Ida.ForEach
