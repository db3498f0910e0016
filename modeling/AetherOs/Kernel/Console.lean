import AetherOs.Kernel.Screen
import AetherOs.Kernel.SerialOrder
import AetherOs.Kernel.Session
import AetherOs.Support.Lines
/-!
# The kernel as a console

`Console` is what the kernel is to the person at the keyboard: a shift key, the
text of the current line, and files.  A scancode edits the line or, if it is
`Enter`, carries out the line on the files and answers.

In every run of an idle kernel, with timer interrupts anywhere in between, the
scancodes read so far are the first ones typed, the state is the one that the
console reaches with them, and the log has the console's answers in their
order, each in one piece.
-/

namespace AetherOs.Kernel

open AetherOs.Support AetherOs.Support.Text AetherOs.Support.Word AetherOs.Support.Interrupts
open AetherOs.Boot AetherOs.Fs AetherOs.Task AetherOs.Memory.Heap AetherOs.Drivers
open AetherOs.Drivers.Keyboard

/-! ## The console -/

structure Console where
  shift : Bool
  line : Str
  files : FileMap

namespace Console

def key (c : Console) : KeyEvent → Console
  | .enter => { c with line := [], files := filesAfter c.files (trim c.line) }
  | .backspace => { c with line := c.line.dropLast }
  | .char character =>
      { c with line := if c.line.length < maxLineLen then c.line ++ [character] else [] }

def scancode (c : Console) (code : UInt8) : Console :=
  match decodeScancode code c.shift with
  | (shift, none) => { c with shift := shift }
  | (shift, some event) => { c with shift := shift }.key event

end Console

def catAnswer (files : FileMap) : List Str → Str
  | [] => "usage: cat <FILE>\n".toList
  | path :: _ =>
      match files.read path with
      | some contents => contents ++ ['\n']
      | none => "file not found: ".toList ++ path ++ ['\n']

def summaryLines (taskCount : Nat) (task : Option Process) : List Str := [
  "scheduler model = ".toList ++ schedulingModel,
  "task count = ".toList ++ decimal taskCount,
  "current task = ".toList ++ debugName (task.map Process.name),
  "current task state = ".toList ++
    (task.map fun task => task.state.label).getD "unavailable".toList,
  "current task mode = ".toList ++
    (task.map fun task => task.executionMode.label).getD "unavailable".toList,
  "address space kind = ".toList ++
    (task.map fun task => task.addressSpace.kind.label).getD "unavailable".toList ]

def infoLines (taskCount : Nat) (task : Option Process) : List Str :=
  "AetherOS academic kernel".toList :: "keyboard initialized = true".toList ::
    summaryLines taskCount task

def memLines (ranges frames used : Nat) : List Str := [
  "usable ranges = ".toList ++ decimal ranges,
  "usable frames = ".toList ++ decimal frames,
  "heap size = ".toList ++ decimal heapSize,
  "heap used = ".toList ++ decimal used ]

/-- What `clear` prints, where the drawing returns. -/
def clearLines (framebuffer : Option FramebufferInfo) : List Str :=
  (match framebuffer with
    | none => ["AetherOS: framebuffer unavailable, nothing to clear".toList]
    | some framebuffer =>
        if framebuffer.bpp ≠ 32 then
          ["AetherOS: framebuffer detected, but unsupported bpp for visual stage: ".toList ++
            decimal framebuffer.bpp.toNat]
        else []) ++ ["screen redrawn".toList]

/-- Text that answers a command line which is no file operation.  Some commands
report on other parts of the kernel, and their values are not known here. -/
def Informs (files : FileMap) (command text : Str) : Prop :=
  match splitWhitespace command with
  | [] => text = []
  | word :: args =>
      match parseHead word with
      | .help => text = unlines helpLines
      | .ls => ∃ names, text = unlines names ∧ names.Nodup ∧
          ∀ name, name ∈ names ↔ name ∈ files.keys ∨ (find name).isSome
      | .cat => text = catAnswer files args
      | .write => text = "usage: write <FILE> <TEXT>\n".toList
      | .rm => text = "usage: rm <FILE>\n".toList
      | .storage => text = unlines [
          "storage device = memory-overlay".toList,
          "writable = true".toList,
          "persistent = false".toList,
          "block size = 1".toList ]
      | .unknown => text = "unknown command: ".toList ++ command ++ ['\n']
      | .info => ∃ taskCount task, text = unlines (infoLines taskCount task)
      | .ticks => ∃ ticks, text = unlines ["ticks = ".toList ++ decimal ticks]
      | .mem => ∃ ranges frames used, text = unlines (memLines ranges frames used)
      | .tasks => ∃ taskCount task, text = unlines (summaryLines taskCount task)
      | .clear => ∃ framebuffer, text = unlines (clearLines framebuffer)

def Answers (files : FileMap) (command text : Str) : Prop :=
  match commandOp command with
  | some op => text = fileReply files op ++ ['\n']
  | none => Informs files command text

/-- What the console prints for a key, in one piece. -/
def Replies (c : Console) (text : Str) : KeyEvent → Prop
  | .enter => ∃ answer, Answers c.files (trim c.line) answer ∧
      text = ['\n'] ++ answer ++ promptText
  | .backspace => text = if 0 < c.line.length then eraseText else []
  | .char character =>
      text = if c.line.length < maxLineLen then [character]
        else "\ninput too long\naether> ".toList

def Told : Console → List UInt8 → List Str → Prop
  | _, [], texts => texts = []
  | c, code :: codes, texts =>
      match (decodeScancode code c.shift).2 with
      | none => Told (c.scancode code) codes texts
      | some event => ∃ text rest, texts = text :: rest ∧ Replies c text event ∧
          Told (c.scancode code) codes rest

/-! ## Commands -/

variable {s s' : KernelState} {M : FileMap}

theorem serial_println {text : Str} (h : (println text).run s = some s') :
    s'.serial = s.serial ++ (text ++ ['\n']) := by
  rw [run_println, Option.some.injEq] at h
  rw [← h]
  exact List.append_assoc _ _ _

theorem serial_catCommand {args : List Str} (hM : Refines s.overlay M)
    (h : (catCommand args).run s = some s') : s'.serial = s.serial ++ catAnswer M args := by
  cases args with
  | nil =>
      rw [serial_println h]
      rfl
  | cons path args =>
      rw [catCommand, run_vfsRead hM] at h
      unfold catAnswer
      dsimp only
      cases hread : M.read path with
      | some contents =>
          rw [hread] at h
          exact serial_println h
      | none =>
          rw [hread] at h
          exact serial_println h

theorem serial_fileCommand {op : Op} (hM : Refines s.overlay M)
    (h : (fileCommand op).run s = some s') :
    s'.serial = s.serial ++ (fileReply M op ++ ['\n']) := by
  rw [run_fileCommand hM, Option.some.injEq] at h
  rw [← h]
  exact List.append_assoc _ _ _

theorem serial_seq_println {lines : List Str} (h : (Prog.seq (lines.map println)).run s = some s') :
    s'.serial = s.serial ++ unlines lines := by
  rw [run_seq_println, Option.some.injEq] at h
  rw [← h]
  rfl

theorem serial_storageCommand (h : (Prog.seq storageCommand).run s = some s') :
    s'.serial = s.serial ++ unlines [
      "storage device = memory-overlay".toList,
      "writable = true".toList,
      "persistent = false".toList,
      "block size = 1".toList ] := by
  have hlines : storageCommand = [
      "storage device = memory-overlay".toList,
      "writable = true".toList,
      "persistent = false".toList,
      "block size = 1".toList ].map println := rfl
  rw [hlines] at h
  exact serial_seq_println h

theorem run_taskSummary (s : KernelState) :
    (Prog.seq taskSummary).run s =
      (Prog.seq ((summaryLines s.taskCount s.scheduler.currentTask).map println)).run s := rfl

theorem run_infoCommand (hkeyboard : s.keyboardInitialized = true) :
    (Prog.seq infoCommand).run s =
      (Prog.seq ((infoLines s.taskCount s.scheduler.currentTask).map println)).run s := by
  have hflag : "keyboard initialized = ".toList ++ boolean true =
      "keyboard initialized = true".toList := rfl
  change (Prog.seq (println _ :: printlnWith _ :: taskSummary)).run s =
    (Prog.seq (println _ :: println _ :: (summaryLines _ _).map println)).run s
  rw [Prog.run_seq_cons, Prog.run_seq_cons (println _) (println _ :: _), run_println,
    Option.bind_some, Option.bind_some, Prog.run_seq_cons, Prog.run_seq_cons, printlnWith,
    Prog.run_inspect]
  dsimp only
  rw [hkeyboard, hflag, run_println, Option.bind_some, Option.bind_some, run_taskSummary]

theorem run_memCommand (s : KernelState) :
    (Prog.seq memCommand).run s =
      (Prog.seq ((memLines s.usableRangeCount s.usableFrameCount s.heap.heapUsed).map
        println)).run s := rfl

theorem run_panic (reason : Panic) (s : KernelState) : (panic reason).run s = none := by
  simp [panic, Prog.run]

/-- A drawing that panics does not come to the last line. -/
theorem serial_clear
    (h : (redrawBootShellSurface.andThen (println "screen redrawn".toList)).run s = some s') :
    s'.serial = s.serial ++ unlines (clearLines s.framebuffer) := by
  rw [Prog.run_andThen, Option.bind_eq_some_iff] at h
  obtain ⟨s₁, hredraw, hlast⟩ := h
  rw [serial_println hlast]
  rw [redrawBootShellSurface, Prog.run_withLock, Prog.run_inspect] at hredraw
  unfold clearLines
  cases hscreen : s.framebuffer with
  | none =>
      rw [hscreen] at hredraw
      rw [serial_println hredraw, unlines_append, List.append_assoc, unlines_singleton,
        unlines_singleton]
  | some framebuffer =>
      rw [hscreen] at hredraw
      dsimp only at hredraw ⊢
      rw [renderBootVisual] at hredraw
      split_ifs at hredraw ⊢ with hbpp
      · rw [serial_println hredraw, unlines_append, List.append_assoc, unlines_singleton,
          unlines_singleton]
      · split at hredraw
        · rw [run_panic] at hredraw
          cases hredraw
        · cases hredraw
          rfl

theorem informs_executeCommand {command : Str} (hM : Refines s.overlay M)
    (hkeyboard : s.keyboardInitialized = true) (hop : commandOp command = none)
    (h : (executeCommand command).run s = some s') :
    ∃ text, s'.serial = s.serial ++ text ∧ Informs M command text := by
  unfold Informs
  unfold commandOp at hop
  unfold executeCommand at h
  cases hwords : splitWhitespace command with
  | nil =>
      rw [hwords, Prog.run_done, Option.some.injEq] at h
      exact ⟨[], by rw [h, List.append_nil], rfl⟩
  | cons word args =>
      rw [hwords] at h hop
      dsimp only at h hop ⊢
      cases hhead : parseHead word with
      | help =>
          rw [hhead] at h
          exact ⟨_, serial_seq_println h, rfl⟩
      | ls =>
          rw [hhead, lsCommand, Prog.run_withLock, Prog.run_inspect] at h
          refine ⟨_, serial_seq_println h, _, rfl, hM.forEachEntry_nodup, fun name => ?_⟩
          exact hM.mem_forEachEntry
      | cat =>
          rw [hhead] at h
          exact ⟨_, serial_catCommand hM h, rfl⟩
      | write =>
          rw [hhead] at h hop
          rw [writeCommand_of_unparsed (Option.map_eq_none_iff.mp hop)] at h
          exact ⟨_, serial_println h, rfl⟩
      | rm =>
          rw [hhead] at h hop
          have hargs : args = [] := by simpa using hop
          rw [hargs] at h
          exact ⟨_, serial_println h, rfl⟩
      | storage =>
          rw [hhead] at h
          exact ⟨_, serial_storageCommand h, rfl⟩
      | unknown =>
          rw [hhead] at h
          refine ⟨_, serial_println h, ?_⟩
          dsimp only
      | info =>
          rw [hhead, run_infoCommand hkeyboard] at h
          exact ⟨_, serial_seq_println h, _, _, rfl⟩
      | ticks =>
          rw [hhead, printlnWith, Prog.run_inspect] at h
          exact ⟨_, serial_println h, _, (unlines_singleton _).symm⟩
      | mem =>
          rw [hhead, run_memCommand] at h
          exact ⟨_, serial_seq_println h, _, _, _, rfl⟩
      | tasks =>
          rw [hhead, run_taskSummary] at h
          exact ⟨_, serial_seq_println h, _, _, rfl⟩
      | clear =>
          rw [hhead] at h
          exact ⟨_, serial_clear h, _, rfl⟩

theorem answers_executeCommand {command : Str} (hM : Refines s.overlay M)
    (hkeyboard : s.keyboardInitialized = true) (h : (executeCommand command).run s = some s') :
    ∃ text, s'.serial = s.serial ++ text ∧ Answers M command text := by
  unfold Answers
  cases hop : commandOp command with
  | some op =>
      rw [executeCommand_of_commandOp hop] at h
      exact ⟨_, serial_fileCommand hM h, rfl⟩
  | none => exact informs_executeCommand hM hkeyboard hop h

/-! ## Keys -/

structure Realises (s : KernelState) (c : Console) : Prop where
  keyboard : s.keyboardInitialized = true
  shell : s.shell.initialized = true
  shift : s.shiftPressed = c.shift
  line : s.shell.lineBytes = stored c.line
  printable : ∀ character ∈ c.line, Printable character
  files : Refines s.overlay c.files

variable {c : Console}

theorem Realises.follows (h : Realises s c) : Follows (c.line.map .char) s.shell :=
  ⟨h.shell, by rw [surviving_chars, h.line]⟩

theorem Realises.shellLine (h : Realises s c) : s.shell.line = some (trim c.line) := by
  have hline := line_of_ascii h.follows (by
    rw [surviving_chars]
    exact ascii_of_printable h.printable)
  rwa [surviving_chars] at hline

theorem line_key (c : Console) (event : KeyEvent) :
    surviving (restart (c.line.map .char) event) = (c.key event).line := by
  cases event with
  | enter => rfl
  | backspace => rw [restart, surviving_concat, surviving_chars, edit, Console.key]
  | char character =>
      rw [restart, surviving_chars, Console.key]
      dsimp only
      split_ifs
      · rw [surviving_concat, surviving_chars, edit]
      · rfl

theorem printable_key {event : KeyEvent} (h : ∀ character ∈ c.line, Printable character)
    (hevent : ∀ character, event = .char character → Printable character) :
    ∀ character ∈ (c.key event).line, Printable character := by
  cases event with
  | enter => exact fun _ hc => by cases hc
  | backspace => exact fun character hc => h character (List.mem_of_mem_dropLast hc)
  | char character =>
      intro character' hc
      rw [Console.key] at hc
      dsimp only at hc
      split_ifs at hc
      · rcases List.mem_append.mp hc with hold | hnew
        · exact h character' hold
        · rw [List.mem_singleton.mp hnew]
          exact hevent character rfl
      · cases hc

theorem Realises.len (h : Realises s c) : s.shell.len = c.line.length := by
  rw [h.follows.len, surviving_chars]

theorem Realises.enter (h : Realises s c) (hrun : (onKey .enter).run s = some s') :
    Refines s'.overlay (c.key .enter).files ∧
      ∃ text, s'.serial = s.serial ++ text ∧ Replies c text .enter := by
  obtain ⟨s₁, hreply, hs'⟩ := onKey_enter_spec h.shell hrun
  have hserial' : s'.serial = s₁.serial ++ promptText := by
    rw [hs']
    rfl
  have hoverlay : s'.overlay = s₁.overlay := by rw [hs']
  rw [hoverlay]
  by_cases hblank : trim c.line = []
  · have hdone : reply s.shell = .done := by
      unfold reply Shell.enteredLine
      rw [h.shellLine, hblank]
      rfl
    rw [hdone, Prog.run_done, Option.some.injEq] at hreply
    have hanswer : Answers c.files (trim c.line) [] := by
      rw [hblank]
      rfl
    rw [Console.key, hblank, hserial', ← hreply]
    exact ⟨h.files, _, List.append_assoc _ _ _, [], hanswer, rfl⟩
  · rw [reply_of_some (Shell.enteredLine_eq_some.mpr ⟨h.shellLine, hblank⟩)] at hreply
    have hfiles : Refines { s with serial := s.serial ++ ['\n'] }.overlay c.files := h.files
    obtain ⟨answer, hserial, hanswer⟩ := answers_executeCommand hfiles h.keyboard hreply
    refine ⟨refines_executeCommand hfiles hreply, _, ?_, answer, hanswer, rfl⟩
    rw [hserial', hserial]
    simp

theorem Realises.echo (h : Realises s c) {event : KeyEvent} (hevent : event ≠ .enter)
    (hrun : (onKey event).run s = some s') :
    ∃ text, s'.serial = s.serial ++ text ∧ Replies c text event := by
  unfold Replies
  cases event with
  | enter => exact absurd rfl hevent
  | backspace =>
      dsimp only
      rw [← h.len]
      by_cases hlen : 0 < s.shell.len
      · rw [run_onKey_backspace h.shell hlen, Option.some.injEq] at hrun
        exact ⟨eraseText, by rw [← hrun], (if_pos hlen).symm⟩
      · rw [run_onKey_backspace_of_empty h.shell hlen, Option.some.injEq] at hrun
        exact ⟨[], by rw [← hrun, List.append_nil], (if_neg hlen).symm⟩
  | char character =>
      dsimp only
      rw [← h.len]
      by_cases hroom : s.shell.len < maxLineLen
      · rw [run_onKey_char h.shell hroom, Option.some.injEq] at hrun
        exact ⟨[character], by rw [← hrun], (if_pos hroom).symm⟩
      · rw [run_onKey_char_of_full h.shell hroom, Option.some.injEq] at hrun
        refine ⟨_, ?_, (if_neg hroom).symm⟩
        rw [← hrun]
        simp only [List.append_assoc]
        rfl

/-- A key event does to the kernel what it does to the console. -/
theorem Realises.key {event : KeyEvent} (h : Realises s c)
    (hevent : ∀ character, event = .char character → Printable character)
    (hrun : (onKey event).run s = some s') :
    Realises s' (c.key event) ∧ ∃ text, s'.serial = s.serial ++ text ∧ Replies c text event := by
  have hspec := onKey_spec h.shell hrun
  have hfollows := h.follows.afterKey event
  have heffect : Refines s'.overlay (c.key event).files ∧
      ∃ text, s'.serial = s.serial ++ text ∧ Replies c text event := by
    by_cases henter : event = .enter
    · subst henter
      exact h.enter hrun
    · have hkept : (c.key event).files = c.files := by
        cases event with
        | enter => exact absurd rfl henter
        | backspace => rfl
        | char => rfl
      have hsame : s'.overlay = s.overlay := by
        rw [onKey_edit_spec h.shell henter hrun]
      rw [hkept, hsame]
      exact ⟨h.files, h.echo henter hrun⟩
  have hshift : (c.key event).shift = c.shift := by cases event <;> rfl
  refine ⟨⟨?_, ?_, ?_, ?_, printable_key h.printable hevent, heffect.1⟩, heffect.2⟩
  · rw [hspec]
    exact h.keyboard
  · rw [hspec]
    exact hfollows.initialized
  · rw [hspec, hshift]
    exact h.shift
  · rw [hspec, ← line_key]
    exact hfollows.lineBytes

end AetherOs.Kernel
