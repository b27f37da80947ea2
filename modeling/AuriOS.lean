import AuriOS.Cpu.Gdt
import AuriOS.Lib.MemoryRuns
import AuriOS.Lib.HeapWrap
import AuriOS.Foundation.BlockList
import AuriOS.Kernel.BootMemory
import AuriOS.Kernel.PageView
import AuriOS.Kernel.LineDisplay
import AuriOS.Kernel.Colours
import AuriOS.Kernel.CursorAddress
import AuriOS.Mm.Tlb
import AuriOS.Commands.Numbers
import AuriOS.Commands.Uptime
import AuriOS.Lib.Hex
import AuriOS.Drivers.Serial
import AuriOS.Kernel.Dispatch
import AuriOS.Kernel.Tab
import AuriOS.Kernel.Below
import AuriOS.Lib.Bytes
import AuriOS.Drivers.Timer
import AuriOS.Drivers.Framebuffer
import AuriOS.Cpu.Context
import AuriOS.Cpu.Pic
import AuriOS.Cpu.PicRuns
import AuriOS.Drivers.KeyboardRuns
import AuriOS.Drivers.TimerRuns
import AuriOS.Mm.Mappings
import AuriOS.Mm.Debug
import AuriOS.Drivers.SerialLine
import AuriOS.Drivers.SerialRuns
