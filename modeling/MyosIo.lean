import MyosIo.Lib.Run
import MyosIo.Lib.Links
import MyosIo.AlList.Model
import MyosIo.AlList.Invariant
import MyosIo.AlList.Linearizable
import MyosIo.Keyboard.Lossless
import MyosIo.Lib.Except
import MyosIo.Lib.Lists
import MyosIo.Mm.Api
import MyosIo.Mm.Blocks
import MyosIo.Mm.Boot
import MyosIo.Mm.Runs
import MyosIo.E820.Correct
import MyosIo.Keyboard.Handshake
import MyosIo.Lib.FifoLock
import MyosIo.Spinlock.Correct
import MyosIo.Tty.Line
import MyosIo.Lib.Count
import MyosIo.Sched.Model
import MyosIo.Sched.Places
import MyosIo.Sched.Process
import MyosIo.Sched.Wakeup
import MyosIo.E820.Detect
import MyosIo.E820.Load
import MyosIo.Mm.Apart
import MyosIo.Mm.Image
import MyosIo.Mm.Outcome
import MyosIo.Mm.Pages
import MyosIo.Mutex.Broadcast
import MyosIo.Mutex.Preempt
import MyosIo.Startup.Agreement
import MyosIo.Tty.Batching
import MyosIo.Tty.Readers
import MyosIo.Acpi.Madt
import MyosIo.Calc.Compare
import MyosIo.Calc.Digit
import MyosIo.Calc.Operands
import MyosIo.Calc.Print
import MyosIo.Calc.Quotient
import MyosIo.Calc.Truncation
import MyosIo.E820.InPlace
import MyosIo.Keyboard.ScanCode
import MyosIo.Mutex.Calls
import MyosIo.Mutex.Depth
import MyosIo.Mutex.Returns
import MyosIo.Tty.Bounds
import MyosIo.Tty.Cells
import MyosIo.Tty.Echo
import MyosIo.Tty.Erase
import MyosIo.Tty.Takeover
import MyosIo.Tty.Vector
import MyosIo.Acpi.Keyboard
import MyosIo.Acpi.Route
import MyosIo.Boot.Disk
import MyosIo.Boot.Image
import MyosIo.Boot.Main
import MyosIo.Boot.Memory
import MyosIo.Calc.Session
import MyosIo.Tty.Console
import MyosIo.Tty.Delivery
import MyosIo.Lib.Cpu
import MyosIo.Sched.Context
import MyosIo.Sched.Switching
import MyosIo.AlList.Chains
import MyosIo.Sched.Accounts
import MyosIo.Sched.Turns
