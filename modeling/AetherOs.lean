import AetherOs.Memory.Frames.Completeness
import AetherOs.Memory.Frames.BootFrames
import AetherOs.Memory.Heap
import AetherOs.Support.Text
import AetherOs.Fs.Vfs
import AetherOs.Support.SlotTable
import AetherOs.Fs.Paths
import AetherOs.Fs.Refinement
import AetherOs.Fs.Listing
import AetherOs.Fs.Views
import AetherOs.Support.Interrupts
import AetherOs.Drivers.Keyboard
import AetherOs.Task.Scheduler
import AetherOs.Drivers.Vga
import AetherOs.Kernel.State
import AetherOs.Kernel.Init
import AetherOs.Kernel.Footprints
import AetherOs.Kernel.EndOfInterrupt
import AetherOs.Kernel.Deadlock
import AetherOs.Kernel.KeyboardController
import AetherOs.Memory.Frames.Exactness
import AetherOs.Kernel.Tasks
import AetherOs.Kernel.LineEditor
import AetherOs.Kernel.Scancodes
import AetherOs.Xtask.SendKeys
import AetherOs.Kernel.Session
import AetherOs.Support.Attempt
import AetherOs.Xtask.Limine
import AetherOs.Xtask.Qemu
import AetherOs.Memory.HeapFit
import AetherOs.Kernel.ShiftKeys
import AetherOs.Task.RoundRobin
import AetherOs.Kernel.FileArguments
import AetherOs.Drivers.Framebuffer
import AetherOs.Fs.Spelling
import AetherOs.Support.Terminal
import AetherOs.Kernel.Screen
import AetherOs.Kernel.Totality
import AetherOs.Support.LockInvariants
import AetherOs.Kernel.LockInvariants
import AetherOs.Support.Ports
import AetherOs.Drivers.Serial
import AetherOs.Support.Assurance
import AetherOs.Support.Lines
import AetherOs.Kernel.BootStages
import AetherOs.Kernel.Entry
import AetherOs.Xtask.BootCheck
import AetherOs.Kernel.Uptime
import AetherOs.Drivers.Pic
import AetherOs.Kernel.InterruptController
import AetherOs.Support.SerialOrder
import AetherOs.Kernel.SerialOrder
import AetherOs.Kernel.Console
import AetherOs.Kernel.ConsoleRuns
import AetherOs.Support.Progress
import AetherOs.Memory.Frames.Progress
import AetherOs.Memory.HeapProgress
import AetherOs.Support.Completion
import AetherOs.Kernel.Responsiveness
