import AetherOs.Drivers.Keyboard
import AetherOs.Drivers.Vga
import AetherOs.Fs.Vfs
import AetherOs.Memory.Heap
import AetherOs.Support.Interrupts
import AetherOs.Task.Scheduler
/-!
# The kernel's shared state

One record holds what the kernel keeps in statics: the atomic cells, the values
behind the spin mutexes, and the part of the hardware that the drivers talk to.
Kernel code is a `Program` over this state; `print` and `println` go through
the mutex of the serial port, as every `println!` does.
-/

namespace AetherOs.Kernel

open AetherOs.Support AetherOs.Support.Text AetherOs.Support.Word AetherOs.Boot AetherOs.Fs
open AetherOs.Task AetherOs.Memory.Heap AetherOs.Drivers

inductive Mutex where
  | scheduler
  | serial1
  | shell
  | shiftPressed
  | framebuffer
  | writableFiles
  | pics
  deriving DecidableEq, Repr

/-- The interrupt lines in use; a smaller line number has the higher priority. -/
inductive Irq where
  | timer
  | keyboard
  deriving DecidableEq, Repr

def maxLineLen : Nat := 128

structure Shell where
  initialized : Bool
  lineBuffer : Buffer UInt8 maxLineLen
  len : Nat
  len_le : len ≤ maxLineLen

def Shell.new : Shell := ⟨false, Buffer.filled maxLineLen 0, 0, Nat.zero_le _⟩

structure KernelState where
  /-- the interrupt flag of the processor, outside handlers -/
  interruptFlag : Bool
  /-- `interrupts::INITIALIZED` -/
  picInitialized : Bool
  /-- the in-service bits of the interrupt controller -/
  inService : Finset Irq
  /-- the output buffer of the keyboard controller and the scancodes behind it -/
  scancodes : List UInt8
  ticks : Nat
  scheduler : Scheduler
  taskCount : Nat
  currentTaskId : Nat
  /-- `keyboard::INITIALIZED` -/
  keyboardInitialized : Bool
  shiftPressed : Bool
  framebuffer : Option FramebufferInfo
  shell : Shell
  overlay : Overlay
  /-- `vfs::INITIALIZED` -/
  vfsInitialized : Bool
  usableFrameCount : Nat
  usableRangeCount : Nat
  heap : BumpAllocator
  /-- the text written to the serial port -/
  serial : Str

def KernelState.initial : KernelState where
  interruptFlag := false
  picInitialized := false
  inService := ∅
  scancodes := []
  ticks := 0
  scheduler := .new
  taskCount := 0
  currentTaskId := Scheduler.noTask
  keyboardInitialized := false
  shiftPressed := false
  framebuffer := none
  shell := .new
  overlay := .empty
  vfsInitialized := false
  usableFrameCount := 0
  usableRangeCount := 0
  heap := .new
  serial := []

abbrev Program := Prog KernelState Mutex

/-! ## Output -/

def print (text : Str) : Program :=
  .withLock .serial1 (.update fun s => { s with serial := s.serial ++ text })

def println (text : Str) : Program := print (text ++ ['\n'])

/-- A `println!` whose arguments are read from the state before the lock is taken. -/
def printlnWith (text : KernelState → Str) : Program := .inspect fun s => println (text s)

def unsafePrecondition (requirement : Str) : Str :=
  "unsafe precondition(s) violated: ".toList ++ requirement ++
    "\n\nThis indicates a bug in the program. ".toList ++
    "This Undefined Behavior check is optional, and cannot be relied on for safety.".toList

/-- What a panic message says after its location. -/
def describe : Panic → Str
  | .overflow => "attempt to add with overflow".toList
  | .outOfBounds => "index out of bounds".toList
  | .expectFailed => "expect failed".toList
  | .pointerOverflow => unsafePrecondition
      "ptr::add requires that the address calculation does not overflow".toList
  | .misaligned => unsafePrecondition
      "ptr::write_volatile requires that the pointer argument is aligned".toList

/-- `core::panic::handle`, which never returns. -/
def panic (reason : Panic) : Program :=
  .seq [
    print ("AetherOS panic stage: kernel-init\nAetherOS panic: ".toList ++ describe reason ++
      ['\n']),
    println "AetherOS panic stage: kernel-init".toList,
    println ("AetherOS panic: ".toList ++ describe reason),
    .halt ]

/-! ## The task table -/

/-- The `scheduler::current_task_*` functions: lock, read a field, unlock. -/
def currentTask {α : Type} (field : Process → α) (k : Option α → Program) : Program :=
  .lock .scheduler (.inspect fun s => .unlock .scheduler (k (s.scheduler.currentTask.map field)))

def schedulerTick : Program :=
  .withLock .scheduler (.seq [
    .update fun s => { s with scheduler := s.scheduler.runNext },
    .update fun s => { s with currentTaskId := s.scheduler.currentTaskId } ])

/-! ## The file system -/

def vfsRead (path : Str) (k : Option Str → Program) : Program :=
  match normalizePath path with
  | .error reason => panic reason
  | .ok (.error _) => k none
  | .ok (.ok normalized) =>
      .lock .writableFiles (.inspect fun s => .unlock .writableFiles (
        match readOverlay s.overlay normalized with
        | some contents => k (some contents)
        | none => k ((find normalized).map InitramfsFile.contents)))

/-- `vfs::write` or `vfs::remove` behind its checks: perform it under the mutex. -/
def vfsPerform (op : Op) (k : Except VfsError Unit → Program) : Program :=
  .lock .writableFiles (.act (fun s => { s with overlay := op.apply s.overlay }) fun s =>
    match op.perform s.overlay with
    | .error reason => panic reason
    | .ok (_, result) => .unlock .writableFiles (k result))

def vfsWrite (path contents : Str) (k : Except VfsError Unit → Program) : Program :=
  match normalizePath path with
  | .error reason => panic reason
  | .ok (.error error) => k (.error error)
  | .ok (.ok _) =>
      if maxContentLen < (asBytes contents).length then k (.error .contentTooLong)
      else vfsPerform (.write path contents) k

def vfsRemove (path : Str) (k : Except VfsError Unit → Program) : Program :=
  match normalizePath path with
  | .error reason => panic reason
  | .ok (.error error) => k (.error error)
  | .ok (.ok _) => vfsPerform (.remove path) k

/-! ## The screen -/

/-- The pixels go to the framebuffer, which no modelled code reads. -/
def renderBootVisual (framebuffer : FramebufferInfo) : Program :=
  if framebuffer.bpp ≠ 32 then
    println ("AetherOS: framebuffer detected, but unsupported bpp for visual stage: ".toList ++
      decimal framebuffer.bpp.toNat)
  else
    match (Vga.drawBootVisual framebuffer).perform.1 with
    | .error reason => panic reason
    | .ok _ => .update id

/-- The mutex guard of the scrutinee lives to the end of the `if let`. -/
def redrawBootShellSurface : Program :=
  .withLock .framebuffer (.inspect fun s =>
    match s.framebuffer with
    | some framebuffer => renderBootVisual framebuffer
    | none => println "AetherOS: framebuffer unavailable, nothing to clear".toList)

end AetherOs.Kernel
