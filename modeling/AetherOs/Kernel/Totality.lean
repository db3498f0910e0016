import AetherOs.Drivers.Framebuffer
import AetherOs.Kernel.Screen
import AetherOs.Kernel.Session
/-!
# Key events return

Neither the file system nor the drawing routines panic under the shell: in a
state whose overlay stands for a file map and whose screen has pixels that can all
be stored to, every key event comes to its end, and the next one finds such a
state again.  So there is a run of the shell for all decoded key events.
-/

namespace AetherOs.Kernel

open AetherOs.Support AetherOs.Support.Text AetherOs.Boot AetherOs.Fs AetherOs.Task
open AetherOs.Drivers AetherOs.Drivers.Keyboard

structure Operable (s : KernelState) : Prop where
  files : ∃ M, Refines s.overlay M
  screen : ∀ framebuffer ∈ s.framebuffer, framebuffer.bpp = 32 → Vga.Paintable framebuffer

/-- In every operable state the program ends, and the state stays operable. -/
abbrev Returns : Program → Prop := Prog.Returns Operable

/-! ## Output -/

theorem returns_print (text : Str) : Returns (print text) :=
  .withLock (.update fun _ h => ⟨h.files, h.screen⟩)

theorem returns_println (text : Str) : Returns (println text) := returns_print _

theorem returns_printlnWith (text : KernelState → Str) : Returns (printlnWith text) :=
  .inspect fun _ _ => returns_println _

theorem returns_seq_println (lines : List Str) : Returns (.seq (lines.map println)) := by
  apply Prog.Returns.seq
  intro p hp
  obtain ⟨text, -, rfl⟩ := List.mem_map.mp hp
  exact returns_println text

theorem returns_updateShell (f : Shell → Shell) : Returns (updateShell f) :=
  .update fun _ h => ⟨h.files, h.screen⟩

theorem returns_currentTask {α : Type} (field : Process → α) {k : Option α → Program}
    (h : ∀ value, Returns (k value)) : Returns (currentTask field k) :=
  fun s hs => h (s.scheduler.currentTask.map field) s hs

/-! ## Commands -/

theorem returns_taskSummary : Returns (.seq taskSummary) := by
  have hfield : ∀ caption field, Returns (printTaskField caption field) :=
    fun _ field => returns_currentTask field fun _ => returns_println _
  have hname : Returns (currentTask Process.name fun name =>
      println ("current task = ".toList ++ debugName name)) :=
    returns_currentTask _ fun _ => returns_println _
  exact (returns_println _).andThen ((returns_printlnWith _).andThen (hname.andThen
    ((hfield _ _).andThen ((hfield _ _).andThen ((hfield _ _).andThen .done)))))

theorem returns_infoCommand : Returns (.seq infoCommand) :=
  (returns_println _).andThen ((returns_printlnWith _).andThen returns_taskSummary)

theorem returns_memCommand : Returns (.seq memCommand) :=
  (returns_printlnWith _).andThen ((returns_printlnWith _).andThen
    ((returns_println _).andThen ((returns_printlnWith _).andThen .done)))

theorem returns_storageCommand : Returns (.seq storageCommand) :=
  (returns_println _).andThen ((returns_println _).andThen
    ((returns_println _).andThen ((returns_println _).andThen .done)))

theorem returns_renderBootVisual {framebuffer : FramebufferInfo}
    (h : framebuffer.bpp = 32 → Vga.Paintable framebuffer) :
    Returns (renderBootVisual framebuffer) := by
  unfold renderBootVisual
  split_ifs with hbpp
  · exact returns_println _
  · rw [Vga.returns_bootVisual (h (not_not.mp hbpp))]
    exact .update fun _ hs => hs

theorem returns_redraw : Returns redrawBootShellSurface := by
  apply Prog.Returns.withLock
  apply Prog.Returns.inspect
  intro s hs
  cases hscreen : s.framebuffer with
  | none => exact returns_println _
  | some framebuffer => exact returns_renderBootVisual (hs.screen framebuffer hscreen)

theorem returns_catCommand (args : List Str) : Returns (catCommand args) := by
  unfold catCommand
  split
  · exact returns_println _
  · intro s hs
    obtain ⟨M, hM⟩ := hs.files
    rw [run_vfsRead hM]
    split <;> exact returns_println _ s hs

theorem returns_fileCommand (op : Op) : Returns (fileCommand op) := by
  intro s hs
  obtain ⟨M, hM⟩ := hs.files
  exact ⟨_, run_fileCommand hM op, ⟨_, hM.apply op⟩, hs.screen⟩

theorem returns_executeCommand (command : Str) : Returns (executeCommand command) := by
  cases hop : commandOp command with
  | some op =>
      rw [executeCommand_of_commandOp hop]
      exact returns_fileCommand op
  | none =>
      unfold commandOp at hop
      unfold executeCommand
      cases hwords : splitWhitespace command with
      | nil => exact .done
      | cons word args =>
          rw [hwords] at hop
          dsimp only at hop ⊢
          cases hhead : parseHead word with
          | help => exact returns_seq_println helpLines
          | info => exact returns_infoCommand
          | ticks => exact returns_printlnWith _
          | mem => exact returns_memCommand
          | tasks => exact returns_taskSummary
          | ls => exact .withLock (.inspect fun _ _ => returns_seq_println _)
          | cat => exact returns_catCommand args
          | write =>
              rw [hhead] at hop
              rw [writeCommand_of_unparsed (Option.map_eq_none_iff.mp hop)]
              exact returns_println _
          | rm =>
              rw [hhead] at hop
              have hargs : args = [] := by simpa using hop
              rw [hargs]
              exact returns_println _
          | storage => exact returns_storageCommand
          | clear => exact returns_redraw.andThen (returns_println _)
          | unknown => exact returns_println _

/-! ## Key events -/

theorem returns_runLine (line : Option Str) : Returns (runLine line) := by
  have hclear : Returns (updateShell Shell.clearLine) := returns_updateShell _
  match line with
  | none => exact (returns_println _).andThen (hclear.andThen .done)
  | some [] => exact hclear
  | some (c :: command) => exact (returns_executeCommand _).andThen (hclear.andThen .done)

theorem returns_handleKey (shell : Shell) (event : KeyEvent) : Returns (handleKey shell event) := by
  have hprompt : Returns (.seq [prompt]) := (returns_print _).andThen .done
  cases event with
  | enter =>
      have hline : Returns executeCurrentLine := .inspect fun _ _ => returns_runLine _
      exact (returns_print _).andThen (hline.andThen hprompt)
  | backspace =>
      rw [handleKey]
      split_ifs
      · exact (returns_updateShell _).andThen ((returns_print _).andThen .done)
      · exact .done
  | char character =>
      rw [handleKey]
      split_ifs
      · exact (returns_updateShell _).andThen ((returns_print _).andThen .done)
      · exact (returns_print _).andThen ((returns_println _).andThen
          ((returns_updateShell _).andThen hprompt))

theorem returns_onKey (event : KeyEvent) : Returns (onKey event) := by
  apply Prog.Returns.withLock
  apply Prog.Returns.inspect
  intro s _
  split_ifs
  · exact returns_handleKey _ event
  · exact .done

theorem returns_shellInitialize : Returns shellInitialize := by
  apply Prog.Returns.withLock
  apply Prog.Returns.inspect
  intro s _
  split_ifs
  · exact .done
  · exact (returns_updateShell _).andThen ((returns_println _).andThen
      ((returns_println _).andThen ((returns_print _).andThen .done)))

variable {s : KernelState}

theorem ShellRun.exists_runAll {output : Str} (hs : Operable s) (h : ShellRun s.shell output)
    {events : List KeyEvent} (hdecoded : ∀ event ∈ events, Decoded event) :
    ∃ s' output', Prog.runAll (events.map onKey) s = some s' ∧ ShellRun s'.shell output' := by
  induction events generalizing s output with
  | nil => exact ⟨s, output, rfl, h⟩
  | cons event events ih =>
      obtain ⟨hevent, hevents⟩ := List.forall_mem_cons.mp hdecoded
      obtain ⟨s₁, hrun, hs₁⟩ := returns_onKey event s hs
      obtain ⟨s', output', hrest, hlast⟩ := ih hs₁ (.key h hevent hrun) hevents
      refine ⟨s', output', ?_, hlast⟩
      rw [List.map_cons, Prog.runAll_cons, hrun, Option.bind_some, hrest]

/-- A new shell comes up and takes any key events. -/
theorem exists_shellRun (hs : Operable s) (hnew : s.shell = Shell.new)
    {events : List KeyEvent} (hdecoded : ∀ event ∈ events, Decoded event) :
    ∃ s' output, Prog.runAll (shellInitialize :: events.map onKey) s = some s' ∧
      ShellRun s'.shell output := by
  obtain ⟨s₁, hrun, hs₁⟩ := returns_shellInitialize s hs
  obtain ⟨s', output, hkeys, hlast⟩ := (ShellRun.start hnew hrun).exists_runAll hs₁ hdecoded
  refine ⟨s', output, ?_, hlast⟩
  rw [Prog.runAll_cons, hrun, Option.bind_some, hkeys]

end AetherOs.Kernel
