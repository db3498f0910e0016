import AetherOs.Kernel.Shell
import AetherOs.Memory.Frames.Initialize
/-!
# Boot sequence and interrupt handlers

`core::init::initialize` as the program of the boot context, and the handlers
of the timer and the keyboard interrupt.  `kernelSystem` puts them together
with the interrupt controller: a delivery sets the line's in-service bit, and
the end-of-interrupt command clears the bit of the highest priority.
-/

namespace AetherOs.Kernel

open AetherOs.Support AetherOs.Support.Text AetherOs.Support.Word AetherOs.Boot AetherOs.Fs
open AetherOs.Support.Interrupts
open AetherOs.Task AetherOs.Memory.Heap AetherOs.Memory.Frames AetherOs.Drivers
open AetherOs.Drivers.Keyboard

/-- What the boot context is given: the boot information and the address that
the linker chose for `HEAP_SPACE`. -/
structure BootParameters where
  bootInfo : BootInfo
  heapSpace : Nat

/-! ## Initialisation -/

/-- `interrupts::init`: interrupts are enabled before `INITIALIZED` is set. -/
def interruptsInit : List Program := [
  .withLock .pics (.update id),
  .update id,
  .update fun s => { s with interruptFlag := true },
  .update fun s => { s with picInitialized := true } ]

def heapInitialize (start : Nat) : Program :=
  .seq [
    .update fun s => { s with heap := { s.heap with heapStart := start } },
    match add start heapSize with
    | .error reason => panic reason
    | .ok stop => .seq [
        .update fun s => { s with heap := { s.heap with heapEnd := stop } },
        .update fun s => { s with heap := { s.heap with next := start } } ] ]

def memoryInitialize (parameters : BootParameters) : Program :=
  match initializeAllocator parameters.bootInfo with
  | .error reason => panic reason
  | .ok setup => .seq [
      .update fun s => { s with usableFrameCount := setup.usableFrameCount },
      .update fun s => { s with usableRangeCount := setup.rangeCount },
      heapInitialize parameters.heapSpace ]

def taskInitialize : Program :=
  .withLock .scheduler (.seq [
    .update fun s => { s with scheduler := s.scheduler.add (.new 0 "idle".toList) },
    .update fun s => { s with scheduler := s.scheduler.add (.new 1 "init".toList) },
    .update fun s => { s with scheduler := s.scheduler.runNext },
    .update fun s => { s with taskCount := s.scheduler.len },
    .update fun s => { s with currentTaskId := s.scheduler.currentTaskId } ])

def timerInitialize : Program :=
  .seq [
    .update fun s => { s with ticks := 0 },
    println "AetherOS: PIT timer initialized at 100 Hz".toList ]

def keyboardInitialize : Program :=
  .seq [
    .update fun s => { s with keyboardInitialized := true },
    println "AetherOS: keyboard driver initialized".toList ]

def framebufferInitialize : Option FramebufferInfo → Program
  | some framebuffer => .seq [
      .withLock .framebuffer (.update fun s => { s with framebuffer := some framebuffer }),
      renderBootVisual framebuffer ]
  | none => println "AetherOS: no framebuffer available, serial output only".toList

def fsInitialize : Program :=
  .inspect fun s =>
    if s.vfsInitialized then .done
    else .seq [
      .withLock .writableFiles (.update fun s => { s with overlay := .empty }),
      .update fun s => { s with vfsInitialized := true } ]

def bootReport (bootInfo : BootInfo) : List Program := [
  println "AetherOS: kernel initialized".toList,
  println ("AetherOS: HHDM offset = ".toList ++ hexadecimal bootInfo.hhdmOffset.toNat),
  println ("AetherOS: memory map entries = ".toList ++ decimal bootInfo.memoryMapEntries),
  println ("AetherOS: framebuffer = ".toList ++
    (if bootInfo.framebuffer.isSome then "available".toList else "unavailable".toList)),
  printlnWith fun s =>
    "AetherOS: usable frames discovered = ".toList ++ decimal s.usableFrameCount,
  printlnWith fun s =>
    "AetherOS: usable physical ranges = ".toList ++ decimal s.usableRangeCount,
  println ("AetherOS: kernel heap bytes = ".toList ++ decimal heapSize),
  printlnWith fun s => "AetherOS: kernel heap used = ".toList ++ decimal s.heap.heapUsed,
  printlnWith fun s => "AetherOS: scheduler tasks = ".toList ++ decimal s.taskCount,
  currentTask Process.name fun name =>
    println ("AetherOS: current task = ".toList ++ debugName name),
  println ("AetherOS: scheduler model = ".toList ++ schedulingModel),
  println "AetherOS: interrupts enabled".toList ]

def subsystems (parameters : BootParameters) : List Program := [
  memoryInitialize parameters,
  taskInitialize,
  timerInitialize,
  keyboardInitialize,
  framebufferInitialize parameters.bootInfo.framebuffer,
  fsInitialize ]

/-- `core::init::initialize`; loading the descriptor tables touches nothing here. -/
def bootInitialize (parameters : BootParameters) : Program :=
  .seq ([.update id, .update id] ++ interruptsInit ++ subsystems parameters ++
    [shellInitialize] ++ bootReport parameters.bootInfo)

/-! ## Handlers -/

/-- `timer::on_tick`; the counter wraps, the local `+ 1` is checked. -/
def onTick : Program :=
  .act (fun s => { s with ticks := (s.ticks + 1) % wordLimit }) fun s =>
    if s.ticks + 1 < wordLimit then
      schedulerTick.andThen
        (if (s.ticks + 1) % 100 = 0 then
          println ("AetherOS: uptime ticks=".toList ++ decimal (s.ticks + 1))
        else .done)
    else panic .overflow

/-- `decode_scancode`: only the shift flag is behind a mutex. -/
def decode (scancode : UInt8) (k : Option KeyEvent → Program) : Program :=
  match classify scancode with
  | .shift _ | .make =>
      .lock .shiftPressed
        (.act (fun s => { s with shiftPressed := (decodeScancode scancode s.shiftPressed).1 })
          fun s => .unlock .shiftPressed (k (decodeScancode scancode s.shiftPressed).2))
  | .release => k none
  | .enter => k (some .enter)
  | .backspace => k (some .backspace)

/-- `keyboard::on_interrupt`; reading port `0x60` takes the first scancode. -/
def onInterrupt : Program :=
  .inspect fun s =>
    if s.keyboardInitialized then
      .act (fun s => { s with scancodes := s.scancodes.tail }) fun s =>
        decode (s.scancodes.headD 0) fun
          | some event => onKey event
          | none => .done
    else .done

def endOfInterrupt (inService : Finset Irq) : Finset Irq :=
  if .timer ∈ inService then inService.erase .timer else inService.erase .keyboard

/-- Both lines are on the first controller, which gets the command. -/
def notifyEndOfInterrupt : Program :=
  .inspect fun s =>
    if s.picInitialized then
      .withLock .pics (.update fun s => { s with inService := endOfInterrupt s.inService })
    else .done

def interruptHandler : Irq → Program
  | .timer => onTick.andThen notifyEndOfInterrupt
  | .keyboard => onInterrupt.andThen notifyEndOfInterrupt

/-! ## The system -/

def raised (s : KernelState) : Irq → Bool
  | .timer => true
  | .keyboard => !s.scancodes.isEmpty

/-- No line of the same or a higher priority is in service. -/
def unblocked (s : KernelState) : Irq → Bool
  | .timer => .timer ∉ s.inService
  | .keyboard => .timer ∉ s.inService ∧ .keyboard ∉ s.inService

/-- The kernel with an interrupt controller that forwards a line when `policy`
lets it. -/
def kernelSystem (policy : KernelState → Irq → Bool) : System KernelState Mutex Irq UInt8 where
  handler := interruptHandler
  deliverable := fun s irq => s.interruptFlag && raised s irq && policy s irq
  deliver := fun irq s => { s with inService := insert irq s.inService }
  environment := fun scancode s => { s with scancodes := s.scancodes ++ [scancode] }

def bootState (parameters : BootParameters) : State KernelState Mutex where
  shared := .initial
  main := ⟨bootInitialize parameters, ∅⟩
  handler := none

def quietBoot : BootParameters where
  bootInfo := ⟨0, 0, none, Vector.replicate 64 .empty⟩
  heapSpace := 4096

end AetherOs.Kernel
