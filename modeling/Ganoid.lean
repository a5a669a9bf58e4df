import Ganoid.Library.Along
import Ganoid.Library.Bisect
import Ganoid.Library.Bubble
import Ganoid.Library.ByteMemory
import Ganoid.Library.ByteStrings
import Ganoid.Library.FirstFit
import Ganoid.Library.Fuelled
import Ganoid.Library.I386Tables
import Ganoid.Library.Lexicographic
import Ganoid.Library.LinkedList
import Ganoid.Library.Mealy
import Ganoid.Library.PackedBits
import Ganoid.Library.PortIO
import Ganoid.Library.Positional
import Ganoid.Library.Preemption
import Ganoid.Library.RingBuffer
import Ganoid.Library.RunLength
import Ganoid.Library.Signed
import Ganoid.Library.TextRows
import Ganoid.Library.TracedMemory
import Ganoid.Library.Updates
import Ganoid.Types
import Ganoid.Arch.Sysinfo
import Ganoid.Arch.Presence
import Ganoid.Arch.TableBounds
import Ganoid.Mm.Page
import Ganoid.Mm.PageSearch
import Ganoid.Mm.PageFit
import Ganoid.Mm.PageInit
import Ganoid.Mm.PageRun
import Ganoid.Mm.PagePreempt
import Ganoid.Mm.PageNull
import Ganoid.Mm.BootPages
import Ganoid.Mm.Bootmem
import Ganoid.Mm.BootmemSearch
import Ganoid.Mm.BootmemRun
import Ganoid.Mm.SearchReturns
import Ganoid.Mm.DumpInfo
import Ganoid.Kernel.Sched
import Ganoid.Arch.Cpu
import Ganoid.Arch.Vectors
import Ganoid.Kernel.Process
import Ganoid.Kernel.Preempt
import Ganoid.Arch.Switch
import Ganoid.Arch.Dispatch
import Ganoid.Arch.Descriptors
import Ganoid.Arch.Keymap
import Ganoid.Arch.ScanCode
import Ganoid.Arch.Keyboard
import Ganoid.Arch.KeySearch
import Ganoid.Arch.KeyBuffer
import Ganoid.Arch.KeyPreempt
import Ganoid.Arch.Getc
import Ganoid.Arch.Nesting
import Ganoid.Arch.Running
import Ganoid.Arch.KbdController
import Ganoid.Arch.Vga
import Ganoid.Arch.Console
import Ganoid.Arch.Screen
import Ganoid.Libc.Itoa
import Ganoid.Libc.Stdlib
import Ganoid.Libc.Digits
import Ganoid.Libc.RoundTrip
import Ganoid.Libc.ItoaBases
import Ganoid.Libc.Strtoull
import Ganoid.Libc.Contract
import Ganoid.Libc.Vsprintf
import Ganoid.Libc.Directive
import Ganoid.Libc.Format
import Ganoid.Libc.Conversions
import Ganoid.Libc.Decimal
import Ganoid.Libc.Scratch
import Ganoid.Libc.Length
import Ganoid.Libc.Printk
import Ganoid.Libc.Termination
import Ganoid.Libc.Str
import Ganoid.Libc.Copying
import Ganoid.Libc.Strcat
import Ganoid.Arch.Paging
import Ganoid.Libc.Comparing
import Ganoid.Libc.Memcpy
import Ganoid.Arch.BubbleSort
import Ganoid.Arch.Columns
import Ganoid.Arch.BootProgress
