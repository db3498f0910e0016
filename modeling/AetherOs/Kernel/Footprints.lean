import AetherOs.Kernel.Init
/-!
# Which mutexes kernel code takes

`Quiet` relates states that differ neither in the interrupt bookkeeping nor in
whether the shell is up.  Apart from a few statements of the boot sequence and
the end-of-interrupt command, kernel code keeps it.  The lemmas below list, for
each routine, the mutexes it may take besides those its caller holds.
-/

namespace AetherOs.Kernel

open AetherOs.Support AetherOs.Support.Text AetherOs.Support.Word AetherOs.Boot AetherOs.Fs
open AetherOs.Task AetherOs.Memory.Heap AetherOs.Memory.Frames AetherOs.Drivers
open AetherOs.Drivers.Keyboard

structure Quiet (s s' : KernelState) : Prop where
  interruptFlag : s'.interruptFlag = s.interruptFlag
  picInitialized : s'.picInitialized = s.picInitialized
  inService : s'.inService = s.inService
  shellInitialized : s'.shell.initialized = s.shell.initialized

theorem Quiet.refl (s : KernelState) : Quiet s s := ⟨rfl, rfl, rfl, rfl⟩

def Typed (s s' : KernelState) : Prop :=
  ∃ extra, s' = { s with scancodes := s.scancodes ++ extra }

theorem Typed.refl (s : KernelState) : Typed s s := ⟨[], by rw [List.append_nil]⟩

theorem Typed.trans (s s' s'' : KernelState) (h : Typed s s')
    (h' : Typed s' s'') : Typed s s'' := by
  obtain ⟨extra, rfl⟩ := h
  obtain ⟨extra', rfl⟩ := h'
  exact ⟨extra ++ extra', by rw [← List.append_assoc]⟩

theorem Typed.quiet {s s' : KernelState} (h : Typed s s') : Quiet s s' := by
  obtain ⟨extra, rfl⟩ := h
  exact ⟨rfl, rfl, rfl, rfl⟩

/-- The step changes nothing that the interrupt hardware, the keyboard or the
start of the shell depend on. -/
structure Internal (s s' : KernelState) : Prop where
  quiet : Quiet s s'
  scancodes : s'.scancodes = s.scancodes

theorem Internal.refl (s : KernelState) : Internal s s := ⟨.refl s, rfl⟩

def Output (s s' : KernelState) : Prop := s' = { s with serial := s'.serial }

theorem Output.refl (s : KernelState) : Output s s := rfl

theorem Output.trans (s s' s'' : KernelState) (h : Output s s') (h' : Output s' s'') :
    Output s s'' := by
  unfold Output at h h' ⊢
  rw [h', h]

def Reports (s s' : KernelState) : Prop :=
  s' = { s with serial := s'.serial, overlay := s'.overlay }

theorem Reports.refl (s : KernelState) : Reports s s := rfl

theorem Reports.trans (s s' s'' : KernelState) (h : Reports s s') (h' : Reports s' s'') :
    Reports s s'' := by
  unfold Reports at h h' ⊢
  rw [h', h]

theorem Output.reports {s s' : KernelState} (h : Output s s') : Reports s s' := by
  rw [h]
  rfl

theorem Reports.internal {s s' : KernelState} (h : Reports s s') : Internal s s' := by
  rw [h]
  exact ⟨⟨rfl, rfl, rfl, rfl⟩, rfl⟩

structure Edits (s s' : KernelState) : Prop where
  shellInitialized : s'.shell.initialized = s.shell.initialized
  others : s' = { s with
    serial := s'.serial, overlay := s'.overlay, shell := s'.shell, shiftPressed := s'.shiftPressed }

theorem Reports.edits {s s' : KernelState} (h : Reports s s') : Edits s s' := by
  rw [h]
  exact ⟨rfl, rfl⟩

theorem Edits.internal {s s' : KernelState} (h : Edits s s') : Internal s s' := by
  have hshell := h.shellInitialized
  rw [h.others]
  exact ⟨⟨rfl, rfl, rfl, hshell⟩, rfl⟩

class AdmitsLines (G : KernelState → KernelState → Prop) : Prop where
  refl : ∀ s, G s s
  line : ∀ s text, G s { s with serial := s.serial ++ (text ++ ['\n']) }

/-- A relation that commands keep: they print whole lines and change the files. -/
class AdmitsFiles (G : KernelState → KernelState → Prop) : Prop extends AdmitsLines G where
  files : ∀ s overlay, G s { s with overlay := overlay }

class AdmitsOutput (G : KernelState → KernelState → Prop) : Prop where
  output : ∀ {s s'}, Output s s' → G s s'

class AdmitsReports (G : KernelState → KernelState → Prop) : Prop where
  reports : ∀ {s s'}, Reports s s' → G s s'

class AdmitsEdits (G : KernelState → KernelState → Prop) : Prop where
  edits : ∀ {s s'}, Edits s s' → G s s'

class AdmitsInternal (G : KernelState → KernelState → Prop) : Prop where
  internal : ∀ {s s'}, Internal s s' → G s s'

instance admitsOutput_of_reports {G : KernelState → KernelState → Prop} [AdmitsReports G] :
    AdmitsOutput G :=
  ⟨fun h => AdmitsReports.reports h.reports⟩

instance admitsReports_of_edits {G : KernelState → KernelState → Prop} [AdmitsEdits G] :
    AdmitsReports G :=
  ⟨fun h => AdmitsEdits.edits h.edits⟩

instance admitsEdits_of_internal {G : KernelState → KernelState → Prop} [AdmitsInternal G] :
    AdmitsEdits G :=
  ⟨fun h => AdmitsInternal.internal h.internal⟩

instance admitsLines_of_output {G : KernelState → KernelState → Prop} [AdmitsOutput G] :
    AdmitsLines G :=
  ⟨fun s => AdmitsOutput.output (.refl s), fun _ _ => AdmitsOutput.output rfl⟩

instance admitsFiles_of_reports {G : KernelState → KernelState → Prop} [AdmitsReports G] :
    AdmitsFiles G where
  files := fun _ _ => AdmitsReports.reports rfl

instance admitsOutput_output : AdmitsOutput Output := ⟨id⟩

instance admitsReports_reports : AdmitsReports Reports := ⟨id⟩

instance admitsEdits_edits : AdmitsEdits Edits := ⟨id⟩

instance admitsInternal_quiet : AdmitsInternal Quiet := ⟨Internal.quiet⟩

/-- The routine takes only mutexes of `A`, gives them back, and keeps `G`. -/
abbrev Keeps (A : Set Mutex) (G : KernelState → KernelState → Prop) (own : Finset Mutex)
    (p : Program) : Prop :=
  Prog.Static A G own own p

/-- The routine takes only mutexes of `A`, gives them back, and is quiet. -/
abbrev Takes (A : Set Mutex) (own : Finset Mutex) (p : Program) : Prop :=
  Keeps A Quiet own p

variable {A : Set Mutex} {own : Finset Mutex} {G : KernelState → KernelState → Prop}

structure Free (A : Set Mutex) (own : Finset Mutex) (m : Mutex) : Prop where
  mem : m ∈ A
  notMem : m ∉ own

theorem Free.insert {m m' : Mutex} (h : Free A own m) (hne : m ≠ m') :
    Free A (insert m' own) m :=
  ⟨h.mem, by simp [hne, h.notMem]⟩

theorem free_univ (m : Mutex) : Free Set.univ ∅ m := ⟨trivial, Finset.notMem_empty m⟩

theorem keeps_update [AdmitsInternal G] {f : KernelState → KernelState}
    (hf : ∀ s, Internal s (f s)) : Keeps A G own (.update f) :=
  Prog.Static.update fun s => AdmitsInternal.internal (hf s)

/-! ## Output -/

theorem takes_print [AdmitsOutput G] (h : Free A own .serial1) (text : Str) :
    Keeps A G own (print text) :=
  Prog.Static.withLock h.mem h.notMem (Prog.Static.update fun _ => AdmitsOutput.output rfl)

theorem takes_println [AdmitsLines G] (h : Free A own .serial1) (text : Str) :
    Keeps A G own (println text) :=
  Prog.Static.withLock h.mem h.notMem (Prog.Static.update fun s => AdmitsLines.line s text)

theorem takes_printlnWith [AdmitsLines G] (h : Free A own .serial1) (text : KernelState → Str) :
    Keeps A G own (printlnWith text) :=
  Prog.Static.inspect AdmitsLines.refl fun _ => takes_println h _

/-- A panic ends in a halt, so what is held then does not matter. -/
theorem static_panic [AdmitsLines G] (h : Free A own .serial1) (own' : Finset Mutex)
    (reason : Panic) :
    Prog.Static A G own own' (panic reason) :=
  .seq_cons (takes_println h _)
    (.seq_cons (takes_println h _) (.seq_cons (takes_println h _) trivial))

theorem takes_updateShell [AdmitsEdits G] {f : Shell → Shell}
    (hf : ∀ shell, (f shell).initialized = shell.initialized) :
    Keeps A G own (updateShell f) :=
  Prog.Static.update fun s => AdmitsEdits.edits ⟨hf s.shell, rfl⟩

/-! ## Subsystems -/

theorem takes_currentTask [AdmitsLines G] {α : Type} (h : Free A own .scheduler)
    {field : Process → α}
    {k : Option α → Program} (hk : ∀ value, Keeps A G own (k value)) :
    Keeps A G own (currentTask field k) :=
  Prog.Static.locked h.mem h.notMem AdmitsLines.refl fun _ => hk _

theorem takes_schedulerTick [AdmitsInternal G] (h : Free A own .scheduler) :
    Keeps A G own schedulerTick :=
  Prog.Static.withLock h.mem h.notMem
    (.seq_cons (keeps_update fun _ => ⟨⟨rfl, rfl, rfl, rfl⟩, rfl⟩)
      (.seq_cons (keeps_update fun _ => ⟨⟨rfl, rfl, rfl, rfl⟩, rfl⟩) .seq_nil))

theorem takes_vfsRead [AdmitsLines G] (h : Free A own .serial1)
    (hfiles : Free A own .writableFiles) (path : Str)
    {k : Option Str → Program} (hk : ∀ value, Keeps A G own (k value)) :
    Keeps A G own (vfsRead path k) := by
  unfold vfsRead
  split
  · exact static_panic h own _
  · exact hk none
  · refine Prog.Static.locked hfiles.mem hfiles.notMem AdmitsLines.refl fun s => ?_
    split <;> exact hk _

theorem takes_vfsPerform [AdmitsFiles G] (h : Free A own .serial1)
    (hfiles : Free A own .writableFiles) (op : Op)
    {k : Except VfsError Unit → Program} (hk : ∀ value, Keeps A G own (k value)) :
    Keeps A G own (vfsPerform op k) := by
  refine ⟨hfiles.mem, hfiles.notMem, fun s => AdmitsFiles.files s _, fun s => ?_⟩
  dsimp only
  split
  · exact static_panic (h.insert (by decide)) own _
  · change Prog.Static A G ((insert .writableFiles own).erase .writableFiles) own _
    rw [Finset.erase_insert hfiles.notMem]
    exact hk _

theorem takes_vfsWrite [AdmitsFiles G] (h : Free A own .serial1)
    (hfiles : Free A own .writableFiles)
    (path contents : Str) {k : Except VfsError Unit → Program}
    (hk : ∀ value, Keeps A G own (k value)) : Keeps A G own (vfsWrite path contents k) := by
  unfold vfsWrite
  split
  · exact static_panic h own _
  · exact hk _
  · split
    · exact hk _
    · exact takes_vfsPerform h hfiles _ hk

theorem takes_vfsRemove [AdmitsFiles G] (h : Free A own .serial1)
    (hfiles : Free A own .writableFiles)
    (path : Str) {k : Except VfsError Unit → Program}
    (hk : ∀ value, Keeps A G own (k value)) : Keeps A G own (vfsRemove path k) := by
  unfold vfsRemove
  split
  · exact static_panic h own _
  · exact hk _
  · exact takes_vfsPerform h hfiles _ hk

theorem takes_renderBootVisual [AdmitsLines G] (h : Free A own .serial1)
    (framebuffer : FramebufferInfo) :
    Keeps A G own (renderBootVisual framebuffer) := by
  unfold renderBootVisual
  split
  · exact takes_println h _
  · split
    · exact static_panic h own _
    · exact Prog.Static.update AdmitsLines.refl

theorem takes_redraw [AdmitsLines G] (h : Free A own .serial1) (hfb : Free A own .framebuffer) :
    Keeps A G own redrawBootShellSurface := by
  refine Prog.Static.withLock hfb.mem hfb.notMem
    (Prog.Static.inspect AdmitsLines.refl fun s => ?_)
  have hserial : Free A (insert .framebuffer own) .serial1 := h.insert (by decide)
  split
  · exact takes_renderBootVisual hserial _
  · exact takes_println hserial _

/-! ## Commands -/

theorem takes_seq_println [AdmitsLines G] (h : Free A own .serial1) (lines : List Str) :
    Keeps A G own (.seq (lines.map println)) := by
  refine Prog.Static.seq fun p hp => ?_
  obtain ⟨text, -, rfl⟩ := List.mem_map.mp hp
  exact takes_println h text

theorem takes_taskSummary [AdmitsLines G] (h : Free A own .serial1)
    (hsched : Free A own .scheduler) :
    Keeps A G own (.seq taskSummary) := by
  have hfield : ∀ caption field, Keeps A G own (printTaskField caption field) :=
    fun _ _ => takes_currentTask hsched fun _ => takes_println h _
  exact .seq_cons (takes_println h _) (.seq_cons (takes_printlnWith h _)
    (.seq_cons (takes_currentTask hsched fun _ => takes_println h _)
      (.seq_cons (hfield _ _) (.seq_cons (hfield _ _) (.seq_cons (hfield _ _) .seq_nil)))))

theorem takes_infoCommand [AdmitsLines G] (h : Free A own .serial1)
    (hsched : Free A own .scheduler) :
    Keeps A G own (.seq infoCommand) :=
  .seq_cons (takes_println h _) (.seq_cons (takes_printlnWith h _) (takes_taskSummary h hsched))

theorem takes_memCommand [AdmitsLines G] (h : Free A own .serial1) :
    Keeps A G own (.seq memCommand) :=
  .seq_cons (takes_printlnWith h _) (.seq_cons (takes_printlnWith h _)
    (.seq_cons (takes_println h _) (.seq_cons (takes_printlnWith h _) .seq_nil)))

theorem takes_lsCommand [AdmitsLines G] (h : Free A own .serial1)
    (hfiles : Free A own .writableFiles) :
    Keeps A G own lsCommand :=
  Prog.Static.withLock hfiles.mem hfiles.notMem
    (Prog.Static.inspect AdmitsLines.refl fun _ => takes_seq_println (h.insert (by decide)) _)

theorem takes_catCommand [AdmitsLines G] (h : Free A own .serial1)
    (hfiles : Free A own .writableFiles)
    (args : List Str) : Keeps A G own (catCommand args) := by
  unfold catCommand
  split
  · exact takes_println h _
  · refine takes_vfsRead h hfiles _ fun value => ?_
    split <;> exact takes_println h _

theorem takes_storageCommand [AdmitsLines G] (h : Free A own .serial1) :
    Keeps A G own (.seq storageCommand) := by
  have hline : ∀ text, Keeps A G own (println text) := takes_println h
  exact .seq_cons (hline _)
    (.seq_cons (hline _) (.seq_cons (hline _) (.seq_cons (hline _) .seq_nil)))

def queriesTask (command : Str) : Bool :=
  match splitWhitespace command with
  | [] => false
  | word :: _ => parseHead word = .info || parseHead word = .tasks

def commandOp (command : Str) : Option Op :=
  match splitWhitespace command with
  | [] => none
  | word :: args =>
      match parseHead word with
      | .write => ((stripPrefix "write ".toList command).bind (splitOnce ' ')).map
          fun (path, contents) => .write path contents
      | .rm => args.head?.map .remove
      | _ => none

def fileCommand : Op → Program
  | .write path contents => vfsWrite path contents fun
      | .ok () => println ("written: ".toList ++ path)
      | .error error => println ("write failed: ".toList ++ error.message)
  | .remove path => vfsRemove path fun
      | .ok () => println ("removed: ".toList ++ path)
      | .error error => println ("remove failed: ".toList ++ error.message)

theorem takes_fileCommand [AdmitsFiles G] (h : Free A own .serial1)
    (hfiles : Free A own .writableFiles) (op : Op) : Keeps A G own (fileCommand op) := by
  cases op with
  | write path contents =>
      unfold fileCommand
      apply takes_vfsWrite h hfiles path contents
      intro value
      split <;> exact takes_println h _
  | remove path =>
      unfold fileCommand
      apply takes_vfsRemove h hfiles path
      intro value
      split <;> exact takes_println h _

theorem executeCommand_of_commandOp {command : Str} {op : Op} (h : commandOp command = some op) :
    executeCommand command = fileCommand op := by
  unfold commandOp at h
  unfold executeCommand
  cases hwords : splitWhitespace command with
  | nil =>
      rw [hwords] at h
      cases h
  | cons word args =>
      rw [hwords] at h
      dsimp only at h ⊢
      cases hhead : parseHead word with
      | write =>
          rw [hhead] at h
          obtain ⟨⟨path, contents⟩, hparts, rfl⟩ := Option.map_eq_some_iff.mp h
          obtain ⟨rest, hrest, hsplit⟩ := Option.bind_eq_some_iff.mp hparts
          simp only [writeCommand, hrest, hsplit]
          rfl
      | rm =>
          rw [hhead] at h
          obtain ⟨path, hpath, rfl⟩ := Option.map_eq_some_iff.mp h
          obtain ⟨rest, rfl⟩ := List.head?_eq_some_iff.mp hpath
          rfl
      | _ =>
          rw [hhead] at h
          cases h

theorem commandOp_of_write {command : Str} {words : List Str}
    (h : splitWhitespace command = "write".toList :: words) :
    commandOp command = ((stripPrefix "write ".toList command).bind (splitOnce ' ')).map
      fun (path, contents) => .write path contents := by
  unfold commandOp
  rw [h]
  rfl

theorem commandOp_of_rm {command path : Str} {words : List Str}
    (h : splitWhitespace command = "rm".toList :: path :: words) :
    commandOp command = some (.remove path) := by
  unfold commandOp
  rw [h]
  rfl

theorem executeCommand_of_cat {command path : Str} {words : List Str}
    (h : splitWhitespace command = "cat".toList :: path :: words) :
    executeCommand command = catCommand [path] := by
  unfold executeCommand
  rw [h]
  rfl

theorem writeCommand_of_unparsed {command : Str}
    (h : (stripPrefix "write ".toList command).bind (splitOnce ' ') = none) :
    writeCommand command = writeUsage := by
  unfold writeCommand
  cases hrest : stripPrefix "write ".toList command with
  | none => rfl
  | some rest =>
      rw [hrest, Option.bind_some] at h
      simp only [h]

/-- A line that asks for no file operation only prints. -/
theorem takes_executeCommand_of_none [AdmitsLines G] (h : Free A own .serial1)
    (hfiles : Free A own .writableFiles) (hfb : Free A own .framebuffer) {command : Str}
    (hsched : queriesTask command = true → Free A own .scheduler)
    (hop : commandOp command = none) : Keeps A G own (executeCommand command) := by
  unfold commandOp at hop
  unfold executeCommand
  cases hwords : splitWhitespace command with
  | nil => rfl
  | cons word args =>
      rw [hwords] at hop
      dsimp only at hop ⊢
      cases hhead : parseHead word with
      | help => exact takes_seq_println h helpLines
      | info => exact takes_infoCommand h (hsched (by simp [queriesTask, hwords, hhead]))
      | ticks => exact takes_printlnWith h _
      | mem => exact takes_memCommand h
      | tasks =>
          exact takes_taskSummary h (hsched (by simp [queriesTask, hwords, hhead]))
      | ls => exact takes_lsCommand h hfiles
      | cat => exact takes_catCommand h hfiles args
      | write =>
          rw [hhead] at hop
          rw [writeCommand_of_unparsed (Option.map_eq_none_iff.mp hop)]
          exact takes_println h _
      | rm =>
          rw [hhead] at hop
          have hargs : args = [] := by simpa using hop
          rw [hargs]
          exact takes_println h _
      | storage => exact takes_storageCommand h
      | clear => exact (takes_redraw h hfb).andThen (takes_println h _)
      | unknown => exact takes_println h _

theorem takes_executeCommand [AdmitsFiles G] (h : Free A own .serial1)
    (hfiles : Free A own .writableFiles) (hfb : Free A own .framebuffer) {command : Str}
    (hsched : queriesTask command = true → Free A own .scheduler) :
    Keeps A G own (executeCommand command) := by
  cases hop : commandOp command with
  | none => exact takes_executeCommand_of_none h hfiles hfb hsched hop
  | some op =>
      rw [executeCommand_of_commandOp hop]
      exact takes_fileCommand h hfiles op

/-! ## Key events -/

theorem takes_runLine [AdmitsEdits G] (h : Free A own .serial1)
    (hfiles : Free A own .writableFiles)
    (hfb : Free A own .framebuffer) {line : Option Str}
    (hsched : ∀ command ∈ line, queriesTask command = true → Free A own .scheduler) :
    Keeps A G own (runLine line) := by
  have hclear : Keeps A G own (updateShell Shell.clearLine) := takes_updateShell fun _ => rfl
  match line with
  | none => exact .seq_cons (takes_println h _) (.seq_cons hclear .seq_nil)
  | some [] => exact hclear
  | some (c :: command) =>
      exact .seq_cons (takes_executeCommand h hfiles hfb (hsched _ rfl)) (.seq_cons hclear .seq_nil)

def writesOutput (shell : Shell) : KeyEvent → Bool
  | .backspace => 0 < shell.len
  | _ => true

theorem takes_handleKey_edit [AdmitsEdits G] {shell : Shell} {event : KeyEvent}
    (hevent : event ≠ .enter)
    (h : writesOutput shell event = true → Free A own .serial1) :
    Keeps A G own (handleKey shell event) := by
  cases event with
  | enter => exact absurd rfl hevent
  | backspace =>
      simp only [handleKey]
      split_ifs with hlen
      · have hserial := h (by simp [writesOutput, hlen])
        exact .seq_cons (takes_updateShell fun _ => rfl)
          (.seq_cons (takes_print hserial _) .seq_nil)
      · rfl
  | char character =>
      have hpush : ∀ shell : Shell, (shell.push character).initialized = shell.initialized := by
        intro shell
        unfold Shell.push
        split <;> rfl
      have hserial := h rfl
      simp only [handleKey]
      split_ifs
      · exact .seq_cons (takes_updateShell hpush) (.seq_cons (takes_print hserial _) .seq_nil)
      · exact .seq_cons (takes_print hserial _) (.seq_cons (takes_println hserial _)
          (.seq_cons (takes_updateShell fun _ => rfl) (.seq_cons (takes_print hserial _) .seq_nil)))

/-- A whole key event, if any mutex but the shell's own may be taken. -/
theorem takes_onKey [AdmitsEdits G] (hA : ∀ m, m ∈ A) (hshell : ∀ m ∈ own, m = .pics)
    (event : KeyEvent) :
    Keeps A G own (onKey event) := by
  have hfree : ∀ m, m ≠ .pics → m ≠ .shell → Free A (insert .shell own) m := by
    intro m hpics hm
    refine ⟨hA m, ?_⟩
    rw [Finset.mem_insert, not_or]
    exact ⟨hm, fun hmem => hpics (hshell m hmem)⟩
  have hserial := hfree .serial1 (by decide) (by decide)
  refine Prog.Static.withLock (hA _) (fun hmem => by cases hshell _ hmem)
    (Prog.Static.inspect AdmitsLines.refl fun s => ?_)
  split
  · by_cases hevent : event = .enter
    · subst hevent
      refine .seq_cons (takes_print hserial _) (.seq_cons ?_
        (.seq_cons (takes_print hserial _) .seq_nil))
      exact Prog.Static.inspect AdmitsLines.refl fun s => takes_runLine hserial
        (hfree _ (by decide) (by decide)) (hfree _ (by decide) (by decide))
        fun _ _ _ => hfree _ (by decide) (by decide)
    · exact takes_handleKey_edit hevent fun _ => hserial
  · rfl

/-! ## Handlers -/

theorem takes_onTick [AdmitsInternal G] (h : Free A own .serial1) (hsched : Free A own .scheduler) :
    Keeps A G own onTick := by
  refine ⟨fun _ => AdmitsInternal.internal ⟨⟨rfl, rfl, rfl, rfl⟩, rfl⟩, fun s => ?_⟩
  dsimp only
  split_ifs
  · exact (takes_schedulerTick hsched).andThen (takes_println h _)
  · exact (takes_schedulerTick hsched).andThen rfl
  · exact static_panic h own _

/-- The arms of `decode_scancode` that look at the shift flag. -/
def decodeUnderLock (scancode : UInt8) (k : Option KeyEvent → Program) : Program :=
  .lock .shiftPressed
    (.act (fun s => { s with shiftPressed := (decodeScancode scancode s.shiftPressed).1 })
      fun s => .unlock .shiftPressed (k (decodeScancode scancode s.shiftPressed).2))

/-- The other arms keep the flag, and give the same event whatever it is. -/
theorem decode_cases (scancode : UInt8) (k : Option KeyEvent → Program) :
    decode scancode k = decodeUnderLock scancode k ∨
      ∃ event, (∀ shift, decodeScancode scancode shift = (shift, event)) ∧
        decode scancode k = k event := by
  unfold decode decodeScancode
  cases hcode : classify scancode with
  | shift pressed =>
      left
      simp only [decodeUnderLock, decodeScancode, hcode]
  | make =>
      left
      simp only [decodeUnderLock, decodeScancode, hcode]
  | release => exact Or.inr ⟨none, fun _ => rfl, rfl⟩
  | enter => exact Or.inr ⟨some .enter, fun _ => rfl, rfl⟩
  | backspace => exact Or.inr ⟨some .backspace, fun _ => rfl, rfl⟩

theorem takes_decode [AdmitsEdits G] (h : Free A own .shiftPressed) {scancode : UInt8}
    {k : Option KeyEvent → Program} (hk : ∀ event, Keeps A G own (k event)) :
    Keeps A G own (decode scancode k) := by
  rcases decode_cases scancode k with hlocked | ⟨event, -, hplain⟩
  · rw [hlocked]
    have hshift : ∀ s : KernelState,
        G s { s with shiftPressed := (decodeScancode scancode s.shiftPressed).1 } :=
      fun _ => AdmitsEdits.edits ⟨rfl, rfl⟩
    exact Prog.Static.locked h.mem h.notMem hshift fun _ => hk _
  · rw [hplain]
    exact hk event

theorem takes_decode_onKey [AdmitsEdits G] (hA : ∀ m, m ∈ A) (scancode : UInt8) :
    Keeps A G ∅ (decode scancode fun
      | some event => onKey event
      | none => .done) := by
  have hshift : Free A ∅ .shiftPressed := ⟨hA _, Finset.notMem_empty _⟩
  apply takes_decode hshift
  intro event
  cases event with
  | none => rfl
  | some event => exact takes_onKey hA (fun m hm => absurd hm (Finset.notMem_empty m)) event

theorem takes_onInterrupt (hA : ∀ m, m ∈ A) : Takes A ∅ onInterrupt := by
  refine Prog.Static.inspect Quiet.refl fun s => ?_
  split
  · exact ⟨fun _ => ⟨rfl, rfl, rfl, rfl⟩, fun s => takes_decode_onKey hA _⟩
  · rfl

def Acknowledges (s s' : KernelState) : Prop := s' = { s with inService := s'.inService }

theorem static_notify (hG : ∀ s s', Acknowledges s s' → G s s') (hpics : Free A own .pics) :
    Keeps A G own notifyEndOfInterrupt := by
  refine .inspect (fun s => hG s s rfl) fun s => ?_
  split
  · exact .withLock hpics.mem hpics.notMem (.update fun s => hG s _ rfl)
  · rfl

theorem takes_handlerBody (irq : Irq) :
    ∃ body, Takes Set.univ ∅ body ∧ interruptHandler irq = body.andThen notifyEndOfInterrupt := by
  cases irq with
  | timer => exact ⟨onTick, takes_onTick (free_univ _) (free_univ _), rfl⟩
  | keyboard => exact ⟨onInterrupt, takes_onInterrupt fun _ => trivial, rfl⟩

/-- A handler takes its mutexes one inside the other and gives them back. -/
theorem static_interruptHandler (irq : Irq) :
    Prog.Static Set.univ (fun _ _ => True) ∅ ∅ (interruptHandler irq) := by
  obtain ⟨body, hbody, heq⟩ := takes_handlerBody irq
  rw [heq]
  exact (hbody.weaken (le_refl _) fun _ _ _ => trivial).andThen
    (static_notify (fun _ _ _ => trivial) (free_univ _))

/-! ## The boot sequence -/

theorem takes_heapInitialize [AdmitsInternal G] (h : Free A own .serial1) (start : Nat) :
    Keeps A G own (heapInitialize start) := by
  unfold heapInitialize
  refine .seq_cons (keeps_update fun _ => ⟨⟨rfl, rfl, rfl, rfl⟩, rfl⟩) ?_
  generalize add start heapSize = stop
  cases stop with
  | error reason => exact .seq_cons (static_panic h own reason) .seq_nil
  | ok stop =>
      refine .seq_cons ?_ .seq_nil
      exact .seq_cons (keeps_update fun _ => ⟨⟨rfl, rfl, rfl, rfl⟩, rfl⟩)
        (.seq_cons (keeps_update fun _ => ⟨⟨rfl, rfl, rfl, rfl⟩, rfl⟩) .seq_nil)

theorem takes_memoryInitialize [AdmitsInternal G] (h : Free A own .serial1)
    (parameters : BootParameters) :
    Keeps A G own (memoryInitialize parameters) := by
  unfold memoryInitialize
  split
  · exact static_panic h own _
  · exact .seq_cons (keeps_update fun _ => ⟨⟨rfl, rfl, rfl, rfl⟩, rfl⟩)
      (.seq_cons (keeps_update fun _ => ⟨⟨rfl, rfl, rfl, rfl⟩, rfl⟩)
        (.seq_cons (takes_heapInitialize h _) .seq_nil))

theorem takes_taskInitialize [AdmitsInternal G] (h : Free A own .scheduler) :
    Keeps A G own taskInitialize := by
  refine Prog.Static.withLock h.mem h.notMem (Prog.Static.seq fun p hp => ?_)
  simp only [List.mem_cons, List.not_mem_nil, or_false] at hp
  rcases hp with rfl | rfl | rfl | rfl | rfl <;>
    exact keeps_update fun _ => ⟨⟨rfl, rfl, rfl, rfl⟩, rfl⟩

theorem takes_framebufferInitialize [AdmitsInternal G] (h : Free A own .serial1)
    (hfb : Free A own .framebuffer)
    (framebuffer : Option FramebufferInfo) : Keeps A G own (framebufferInitialize framebuffer) := by
  cases framebuffer with
  | none => exact takes_println h _
  | some framebuffer =>
      exact .seq_cons
        (.withLock hfb.mem hfb.notMem (keeps_update fun _ => ⟨⟨rfl, rfl, rfl, rfl⟩, rfl⟩))
        (.seq_cons (takes_renderBootVisual h _) .seq_nil)

theorem takes_fsInitialize [AdmitsInternal G] (hfiles : Free A own .writableFiles) :
    Keeps A G own fsInitialize := by
  refine Prog.Static.inspect AdmitsLines.refl fun s => ?_
  split
  · rfl
  · exact .seq_cons
      (.withLock hfiles.mem hfiles.notMem (keeps_update fun _ => ⟨⟨rfl, rfl, rfl, rfl⟩, rfl⟩))
      (.seq_cons (keeps_update fun _ => ⟨⟨rfl, rfl, rfl, rfl⟩, rfl⟩) .seq_nil)

theorem takes_subsystems [AdmitsInternal G] (h : Free A own .serial1)
    (hsched : Free A own .scheduler)
    (hfb : Free A own .framebuffer) (hfiles : Free A own .writableFiles)
    (parameters : BootParameters) : Keeps A G own (.seq (subsystems parameters)) := by
  have htimer : Keeps A G own timerInitialize :=
    .seq_cons (keeps_update fun _ => ⟨⟨rfl, rfl, rfl, rfl⟩, rfl⟩)
      (.seq_cons (takes_println h _) .seq_nil)
  have hkeyboard : Keeps A G own keyboardInitialize :=
    .seq_cons (keeps_update fun _ => ⟨⟨rfl, rfl, rfl, rfl⟩, rfl⟩)
      (.seq_cons (takes_println h _) .seq_nil)
  exact .seq_cons (takes_memoryInitialize h parameters) (.seq_cons (takes_taskInitialize hsched)
    (.seq_cons htimer (.seq_cons hkeyboard (.seq_cons (takes_framebufferInitialize h hfb _)
      (.seq_cons (takes_fsInitialize hfiles) .seq_nil)))))

theorem takes_bootReport [AdmitsLines G] (h : Free A own .serial1)
    (hsched : Free A own .scheduler)
    (bootInfo : BootInfo) : Keeps A G own (.seq (bootReport bootInfo)) := by
  refine Prog.Static.seq fun p hp => ?_
  simp only [bootReport, List.mem_cons, List.not_mem_nil, or_false] at hp
  rcases hp with rfl | rfl | rfl | rfl | rfl | rfl | rfl | rfl | rfl | rfl | rfl | rfl
  · exact takes_println h _
  · exact takes_println h _
  · exact takes_println h _
  · exact takes_println h _
  · exact takes_printlnWith h _
  · exact takes_printlnWith h _
  · exact takes_println h _
  · exact takes_printlnWith h _
  · exact takes_printlnWith h _
  · exact takes_currentTask hsched fun _ => takes_println h _
  · exact takes_println h _
  · exact takes_println h _

structure Boots (s s' : KernelState) : Prop where
  inService : s'.inService = s.inService
  scancodes : s'.scancodes = s.scancodes

class AdmitsBoot (G : KernelState → KernelState → Prop) : Prop where
  boots : ∀ {s s'}, Boots s s' → G s s'

instance admitsInternal_of_boot [AdmitsBoot G] : AdmitsInternal G :=
  ⟨fun h => AdmitsBoot.boots ⟨h.quiet.inService, h.scancodes⟩⟩

/-- The part of `Quiet` that the boot sequence keeps to its end. -/
def KeepsInService (s s' : KernelState) : Prop := s'.inService = s.inService

instance admitsBoot_keepsInService : AdmitsBoot KeepsInService := ⟨Boots.inService⟩

theorem keeps_bootUpdate [AdmitsBoot G] {f : KernelState → KernelState}
    (hf : ∀ s, Boots s (f s)) : Keeps A G own (.update f) :=
  Prog.Static.update fun s => AdmitsBoot.boots (hf s)

theorem static_interruptsInit [AdmitsBoot G] (hpics : Free A own .pics) :
    Keeps A G own (.seq interruptsInit) :=
  .seq_cons (.withLock hpics.mem hpics.notMem (keeps_bootUpdate fun _ => ⟨rfl, rfl⟩))
    (.seq_cons (keeps_bootUpdate fun _ => ⟨rfl, rfl⟩)
      (.seq_cons (keeps_bootUpdate fun _ => ⟨rfl, rfl⟩)
        (.seq_cons (keeps_bootUpdate fun _ => ⟨rfl, rfl⟩) .seq_nil)))

theorem static_shellInitialize [AdmitsBoot G] (h : Free A own .serial1)
    (hshell : Free A own .shell) : Keeps A G own shellInitialize := by
  have hserial : Free A (insert .shell own) .serial1 := h.insert (by decide)
  refine .withLock hshell.mem hshell.notMem (.inspect AdmitsLines.refl fun s => ?_)
  split
  · rfl
  · exact .seq_cons (keeps_bootUpdate fun _ => ⟨rfl, rfl⟩) (.seq_cons (takes_println hserial _)
      (.seq_cons (takes_println hserial _) (.seq_cons (takes_print hserial _) .seq_nil)))

theorem static_bootInitialize [AdmitsBoot G] (parameters : BootParameters) :
    Keeps Set.univ G ∅ (bootInitialize parameters) := by
  have htables : Keeps Set.univ G ∅ (.seq [.update id, .update id] : Program) :=
    .seq_cons (.update AdmitsLines.refl) (.seq_cons (.update AdmitsLines.refl) .seq_nil)
  unfold bootInitialize
  rw [Prog.seq_append, Prog.seq_append, Prog.seq_append, Prog.seq_append]
  apply Prog.Static.andThen
  · apply Prog.Static.andThen
    · apply Prog.Static.andThen
      · exact htables.andThen (static_interruptsInit (free_univ _))
      · exact takes_subsystems (free_univ _) (free_univ _) (free_univ _) (free_univ _) parameters
    · exact .seq_cons (static_shellInitialize (free_univ _) (free_univ _)) .seq_nil
  · exact takes_bootReport (free_univ _) (free_univ _) _

end AetherOs.Kernel
