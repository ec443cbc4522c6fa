import MyaXOS.Lib.Memory
import MyaXOS.Lib.Record
import MyaXOS.Lib.Run
import MyaXOS.System
import MyaXOS.Strings
import MyaXOS.Mem.Frames
import MyaXOS.Mem.Placement
import MyaXOS.Mem.Paging
import MyaXOS.Mem.HeapRuns
import MyaXOS.Mem.Paged
import MyaXOS.Mem.Bitmap
import MyaXOS.Boot
import MyaXOS.Kbd
import MyaXOS.Kgets
import MyaXOS.Echo
import MyaXOS.Vga
import MyaXOS.Vfs
import MyaXOS.Shell
import MyaXOS.Kprintf
import MyaXOS.Ext2.Read
import MyaXOS.Ext2.Pieces
import MyaXOS.Ext2.Copies
import MyaXOS.Ext2.Types
import MyaXOS.Ext2.Node
import MyaXOS.Ext2.Tree
import MyaXOS.Ext2.Kopen
import MyaXOS.Ext2.Returns
import MyaXOS.Ext2.Mounted
import MyaXOS.Ext2.Descent
import MyaXOS.Ext2.Ledger
import MyaXOS.Ext2.Records
import MyaXOS.Ext2.Dir
import MyaXOS.Ext2.Mount
import MyaXOS.Lib.Access
import MyaXOS.Lib.Interruptible
import MyaXOS.Lib.Cpu
import MyaXOS.Interrupt.Stubs
import MyaXOS.Interrupt.Tables
import MyaXOS.Interrupt.Irq
import MyaXOS.Interrupt.Timer
import MyaXOS.Lib.Pic
import MyaXOS.Lib.Descriptor
import MyaXOS.Lib.Segments
import MyaXOS.Lib.SkipList
import MyaXOS.Lib.Strings
import MyaXOS.Lib.Terminal
import MyaXOS.Lib.Walk
import MyaXOS.Alloc.Klmalloc
import MyaXOS.Alloc.Run
import MyaXOS.Alloc.Kernel
import MyaXOS.Alloc.Sound
import MyaXOS.Alloc.BigBins
import MyaXOS.Alloc.Blocks
import MyaXOS.Alloc.Realloc
import MyaXOS.Alloc.Calls
import MyaXOS.Alloc.Calloc
import MyaXOS.Alloc.Outside
import MyaXOS.Alloc.Adds
import MyaXOS.Atoi
import MyaXOS.Strtok
import MyaXOS.Tokenize
import MyaXOS.Session
