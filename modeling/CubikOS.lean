import CubikOS.Lib.Intrusive
import CubikOS.Lib.Buddy
import CubikOS.Lib.Pool
import CubikOS.Utils.List
import CubikOS.Utils.Spinlock
import CubikOS.Mm.Page
import CubikOS.Mm.Split
import CubikOS.Mm.Allocate
import CubikOS.Mm.Zone
import CubikOS.Mm.Lifetime
import CubikOS.Mm.Free
import CubikOS.Mm.Capacity
import CubikOS.Mm.Combine
import CubikOS.Lib.Smear
import CubikOS.Mm.Align
import CubikOS.Mm.Request
import CubikOS.Mm.Reserve
import CubikOS.Arch.Paging
import CubikOS.Lib.Loop
import CubikOS.Arch.Bitmap
import CubikOS.Lib.Run
import CubikOS.Arch.Scan
import CubikOS.Arch.Mark
import CubikOS.Mm.Malloc
import CubikOS.Lib.Bytes
import CubikOS.Mm.Slub
import CubikOS.Mm.SlubPage
import CubikOS.Mm.SlubInit
import CubikOS.Mm.SlubNode
import CubikOS.Mm.SlubCarve
import CubikOS.Proc.Name
import CubikOS.Mm.LoadZone
import CubikOS.Mm.Mark
import CubikOS.Lib.Memory
import CubikOS.Arch.ChunkTable
import CubikOS.Arch.ChunkMark
import CubikOS.Arch.ChunkCall
import CubikOS.Arch.Trace
import CubikOS.Mm.Nested
import CubikOS.Mm.Isolation
import CubikOS.Mm.LoadVm
import CubikOS.Mm.Reentry
import CubikOS.Lib.Slots
import CubikOS.Lib.Records
import CubikOS.Arch.Acpi
import CubikOS.Arch.Madt
import CubikOS.Arch.Smp
import CubikOS.Arch.IoApic
import CubikOS.Arch.Stivale2
import CubikOS.Mm.Initialize
import CubikOS.Mm.Boot
import CubikOS.Lib.CString
import CubikOS.Lib.Spans
import CubikOS.Str.Compare
import CubikOS.Str.Search
import CubikOS.Str.Copy
import CubikOS.Str.Token
import CubikOS.Str.Span
import CubikOS.Mm.Memcpy
import CubikOS.Arch.Smbios
import CubikOS.Arch.Idt
import CubikOS.Lib.Stack
import CubikOS.Arch.Interrupt
import CubikOS.Arch.Pic
import CubikOS.Graphic.Terminal
import CubikOS.Proc.Pid
