import AetherOs.Kernel.State
/-!
# The shell

`kernel/src/shell.rs` as programs: editing the input line, running a command
and printing what it reports.  The shell runs inside the keyboard interrupt
handler and holds its own mutex for the whole of a key event.
-/

namespace AetherOs.Kernel

open AetherOs.Support AetherOs.Support.Text AetherOs.Support.Word AetherOs.Boot AetherOs.Fs
open AetherOs.Task AetherOs.Memory.Heap AetherOs.Drivers AetherOs.Drivers.Keyboard

/-! ## The input line -/

namespace Shell

def lineBytes (shell : Shell) : List UInt8 := shell.lineBuffer.front shell.len

def clearLine (shell : Shell) : Shell := { shell with len := 0, len_le := Nat.zero_le _ }

def dropLast (shell : Shell) : Shell :=
  { shell with len := shell.len - 1, len_le := (Nat.sub_le _ _).trans shell.len_le }

/-- Append `character as u8`; the caller has checked that there is room. -/
def push (shell : Shell) (character : Char) : Shell :=
  if h : shell.len + 1 ≤ maxLineLen then
    { shell with
      lineBuffer := shell.lineBuffer.overwrite shell.len [UInt8.ofNat character.toNat] h
      len := shell.len + 1
      len_le := h }
  else shell

/-- The trimmed line, unless its bytes are not UTF-8. -/
def line (shell : Shell) : Option Str := (fromUtf8 shell.lineBytes).map trim

end Shell

def updateShell (f : Shell → Shell) : Program := .update fun s => { s with shell := f s.shell }

def prompt : Program := print "aether> ".toList

/-! ## Commands -/

def helpLines : List Str := [
  "commands:".toList,
  "  help        Show this command list".toList,
  "  info        Show kernel and keyboard status".toList,
  "  ticks       Show PIT tick counter".toList,
  "  mem         Show frame allocator and heap status".toList,
  "  tasks       Show scheduler task summary".toList,
  "  ls          List VFS root entries".toList,
  "  cat <FILE>  Read a VFS file".toList,
  "  write <FILE> <TEXT>  Create or update a writable overlay file".toList,
  "  rm <FILE>   Remove a writable overlay file".toList,
  "  storage     Show storage boundary status".toList,
  "  clear       Redraw the framebuffer shell surface".toList ]

def printTaskField (caption : Str) (field : Process → Str) : Program :=
  currentTask field fun value => println (caption ++ value.getD "unavailable".toList)

def taskSummary : List Program := [
  println ("scheduler model = ".toList ++ schedulingModel),
  printlnWith fun s => "task count = ".toList ++ decimal s.taskCount,
  currentTask Process.name fun name => println ("current task = ".toList ++ debugName name),
  printTaskField "current task state = ".toList fun task => task.state.label,
  printTaskField "current task mode = ".toList fun task => task.executionMode.label,
  printTaskField "address space kind = ".toList fun task => task.addressSpace.kind.label ]

def infoCommand : List Program :=
  [ println "AetherOS academic kernel".toList,
    printlnWith fun s => "keyboard initialized = ".toList ++ boolean s.keyboardInitialized ] ++
  taskSummary

def memCommand : List Program := [
  printlnWith fun s => "usable ranges = ".toList ++ decimal s.usableRangeCount,
  printlnWith fun s => "usable frames = ".toList ++ decimal s.usableFrameCount,
  println ("heap size = ".toList ++ decimal heapSize),
  printlnWith fun s => "heap used = ".toList ++ decimal s.heap.heapUsed ]

/-- The listing is printed while the overlay is locked. -/
def lsCommand : Program :=
  .withLock .writableFiles (.inspect fun s => .seq ((forEachEntry s.overlay).map println))

def catCommand (args : List Str) : Program :=
  match args with
  | [] => println "usage: cat <FILE>".toList
  | path :: _ => vfsRead path fun
      | some contents => println contents
      | none => println ("file not found: ".toList ++ path)

def writeUsage : Program := println "usage: write <FILE> <TEXT>".toList

def writeCommand (command : Str) : Program :=
  match stripPrefix "write ".toList command with
  | none => writeUsage
  | some args =>
      match splitOnce ' ' args with
      | none => writeUsage
      | some (path, contents) => vfsWrite path contents fun
          | .ok () => println ("written: ".toList ++ path)
          | .error error => println ("write failed: ".toList ++ error.message)

def rmCommand (args : List Str) : Program :=
  match args with
  | [] => println "usage: rm <FILE>".toList
  | path :: _ => vfsRemove path fun
      | .ok () => println ("removed: ".toList ++ path)
      | .error error => println ("remove failed: ".toList ++ error.message)

def storageCommand : List Program := [
  println ("storage device = ".toList ++ "memory-overlay".toList),
  println ("writable = ".toList ++ boolean true),
  println ("persistent = ".toList ++ boolean false),
  println ("block size = ".toList ++ decimal 1) ]

inductive Head where
  | help
  | info
  | ticks
  | mem
  | tasks
  | ls
  | cat
  | write
  | rm
  | storage
  | clear
  | unknown
  deriving DecidableEq, Repr

def parseHead (word : Str) : Head :=
  if word = "help".toList then .help
  else if word = "info".toList then .info
  else if word = "ticks".toList then .ticks
  else if word = "mem".toList then .mem
  else if word = "tasks".toList then .tasks
  else if word = "ls".toList then .ls
  else if word = "cat".toList then .cat
  else if word = "write".toList then .write
  else if word = "rm".toList then .rm
  else if word = "storage".toList then .storage
  else if word = "clear".toList then .clear
  else .unknown

def executeCommand (command : Str) : Program :=
  match splitWhitespace command with
  | [] => .done
  | word :: args =>
      match parseHead word with
      | .help => .seq (helpLines.map println)
      | .info => .seq infoCommand
      | .ticks => printlnWith fun s => "ticks = ".toList ++ decimal s.ticks
      | .mem => .seq memCommand
      | .tasks => .seq taskSummary
      | .ls => lsCommand
      | .cat => catCommand args
      | .write => writeCommand command
      | .rm => rmCommand args
      | .storage => .seq storageCommand
      | .clear => redrawBootShellSurface.andThen (println "screen redrawn".toList)
      | .unknown => println ("unknown command: ".toList ++ command)

/-! ## Key events -/

/-- What `execute_current_line` does with the line it read. -/
def runLine : Option Str → Program
  | none => .seq [println "invalid input".toList, updateShell Shell.clearLine]
  | some [] => updateShell Shell.clearLine
  | some command => .seq [executeCommand command, updateShell Shell.clearLine]

def executeCurrentLine : Program := .inspect fun s => runLine s.shell.line

def eraseText : Str := [Char.ofNat 8, ' ', Char.ofNat 8]

/-- `Shell::on_key` of a shell that is up. -/
def handleKey (shell : Shell) : KeyEvent → Program
  | .enter => .seq [print ['\n'], executeCurrentLine, prompt]
  | .backspace =>
      if 0 < shell.len then .seq [updateShell Shell.dropLast, print eraseText] else .done
  | .char character =>
      if shell.len < maxLineLen then
        .seq [updateShell fun shell => shell.push character, print [character]]
      else
        .seq [print ['\n'], println "input too long".toList, updateShell Shell.clearLine, prompt]

/-- `Shell::on_key`, inside the critical section. -/
def shellOnKey (event : KeyEvent) : Program :=
  .inspect fun s => if s.shell.initialized then handleKey s.shell event else .done

def onKey (event : KeyEvent) : Program := .withLock .shell (shellOnKey event)

def shellInitialize : Program :=
  .withLock .shell (.inspect fun s =>
    if s.shell.initialized then .done
    else .seq [
      updateShell fun shell => { shell with initialized := true },
      println "AetherOS shell ready".toList,
      println "Type 'help' to list commands.".toList,
      prompt ])

end AetherOs.Kernel
