import AetherOs.Kernel.Scancodes
import AetherOs.Support.SerialOrder
/-!
# Interrupts one at a time

Keys arrive at any time, in the middle of a handler too.  The only code that
notices is the read of port `0x60`, which takes the first scancode, and a key
that arrives goes behind the last one.  So the handlers of an idle kernel do
what they would do one after another, in the order of their deliveries.
-/

namespace AetherOs.Kernel

open AetherOs.Support AetherOs.Support.Text AetherOs.Support.Word AetherOs.Support.Interrupts
open AetherOs.Fs AetherOs.Task AetherOs.Drivers AetherOs.Drivers.Keyboard

def arrive (scancode : UInt8) (s : KernelState) : KernelState :=
  { s with scancodes := s.scancodes ++ [scancode] }

abbrev IgnoresKeys : Program → Prop := Prog.Ignores arrive

/-! ## Output -/

theorem ignores_print (text : Str) : IgnoresKeys (print text) :=
  .withLock (.update fun _ _ => rfl)

theorem ignores_println (text : Str) : IgnoresKeys (println text) := ignores_print _

theorem ignores_printlnWith {text : KernelState → Str}
    (h : ∀ scancode s, text (arrive scancode s) = text s) : IgnoresKeys (printlnWith text) :=
  .inspect (fun scancode s => congrArg println (h scancode s)) fun _ => ignores_println _

theorem ignores_seq_println (lines : List Str) : IgnoresKeys (.seq (lines.map println)) := by
  apply Prog.Ignores.seq
  intro p hp
  obtain ⟨text, -, rfl⟩ := List.mem_map.mp hp
  exact ignores_println text

theorem ignores_panic (reason : Panic) : IgnoresKeys (panic reason) := by
  apply Prog.Ignores.seq
  intro p hp
  simp only [List.mem_cons, List.not_mem_nil, or_false] at hp
  rcases hp with rfl | rfl | rfl | rfl
  · exact ignores_print _
  · exact ignores_println _
  · exact ignores_println _
  · trivial

theorem ignores_updateShell (f : Shell → Shell) : IgnoresKeys (updateShell f) :=
  .update fun _ _ => rfl

theorem ignores_currentTask {α : Type} (field : Process → α) {k : Option α → Program}
    (h : ∀ value, IgnoresKeys (k value)) : IgnoresKeys (currentTask field k) :=
  ⟨fun _ _ => ⟨rfl, rfl⟩, fun _ => h _⟩

theorem ignores_schedulerTick : IgnoresKeys schedulerTick := by
  apply Prog.Ignores.withLock
  apply Prog.Ignores.seq
  intro p hp
  simp only [List.mem_cons, List.not_mem_nil, or_false] at hp
  rcases hp with rfl | rfl
  · exact .update fun _ _ => rfl
  · exact .update fun _ _ => rfl

/-! ## The file system and the screen -/

theorem ignores_vfsRead (path : Str) {k : Option Str → Program}
    (h : ∀ value, IgnoresKeys (k value)) :
    IgnoresKeys (vfsRead path k) := by
  unfold vfsRead
  split
  · exact ignores_panic _
  · exact h none
  · refine ⟨fun _ _ => ⟨rfl, rfl⟩, fun s => ?_⟩
    dsimp only [Prog.Ignores]
    split <;> exact h _

theorem ignores_vfsPerform (op : Op) {k : Except VfsError Unit → Program}
    (h : ∀ value, IgnoresKeys (k value)) : IgnoresKeys (vfsPerform op k) := by
  refine ⟨fun _ _ => ⟨rfl, rfl⟩, fun s => ?_⟩
  dsimp only
  split
  · exact ignores_panic _
  · exact h _

theorem ignores_vfsWrite (path contents : Str) {k : Except VfsError Unit → Program}
    (h : ∀ value, IgnoresKeys (k value)) : IgnoresKeys (vfsWrite path contents k) := by
  unfold vfsWrite
  split
  · exact ignores_panic _
  · exact h _
  · split
    · exact h _
    · exact ignores_vfsPerform _ h

theorem ignores_vfsRemove (path : Str) {k : Except VfsError Unit → Program}
    (h : ∀ value, IgnoresKeys (k value)) : IgnoresKeys (vfsRemove path k) := by
  unfold vfsRemove
  split
  · exact ignores_panic _
  · exact h _
  · exact ignores_vfsPerform _ h

theorem ignores_fileCommand (op : Op) : IgnoresKeys (fileCommand op) := by
  cases op with
  | write path contents =>
      unfold fileCommand
      apply ignores_vfsWrite
      intro value
      split <;> exact ignores_println _
  | remove path =>
      unfold fileCommand
      apply ignores_vfsRemove
      intro value
      split <;> exact ignores_println _

theorem ignores_redraw : IgnoresKeys redrawBootShellSurface := by
  apply Prog.Ignores.withLock
  refine .inspect (fun _ _ => rfl) fun s => ?_
  split
  · unfold renderBootVisual
    split
    · exact ignores_println _
    · split
      · exact ignores_panic _
      · exact .update fun _ _ => rfl
  · exact ignores_println _

/-! ## Commands -/

theorem ignores_taskSummary : IgnoresKeys (.seq taskSummary) := by
  have hfield : ∀ caption field, IgnoresKeys (printTaskField caption field) :=
    fun _ field => ignores_currentTask field fun _ => ignores_println _
  have hname : IgnoresKeys (currentTask Process.name fun name =>
      println ("current task = ".toList ++ debugName name)) :=
    ignores_currentTask _ fun _ => ignores_println _
  exact (ignores_println _).andThen ((ignores_printlnWith fun _ _ => rfl).andThen (hname.andThen
    ((hfield _ _).andThen ((hfield _ _).andThen ((hfield _ _).andThen trivial)))))

theorem ignores_memCommand : IgnoresKeys (.seq memCommand) :=
  (ignores_printlnWith fun _ _ => rfl).andThen ((ignores_printlnWith fun _ _ => rfl).andThen
    ((ignores_println _).andThen ((ignores_printlnWith fun _ _ => rfl).andThen trivial)))

theorem ignores_catCommand (args : List Str) : IgnoresKeys (catCommand args) := by
  unfold catCommand
  split
  · exact ignores_println _
  · apply ignores_vfsRead
    intro value
    split <;> exact ignores_println _

theorem ignores_executeCommand (command : Str) : IgnoresKeys (executeCommand command) := by
  cases hop : commandOp command with
  | some op =>
      rw [executeCommand_of_commandOp hop]
      exact ignores_fileCommand op
  | none =>
      unfold commandOp at hop
      unfold executeCommand
      cases hwords : splitWhitespace command with
      | nil => trivial
      | cons word args =>
          rw [hwords] at hop
          dsimp only at hop ⊢
          cases hhead : parseHead word with
          | help => exact ignores_seq_println helpLines
          | info =>
              exact (ignores_println _).andThen ((ignores_printlnWith fun _ _ => rfl).andThen
                ignores_taskSummary)
          | ticks => exact ignores_printlnWith fun _ _ => rfl
          | mem => exact ignores_memCommand
          | tasks => exact ignores_taskSummary
          | ls => exact .withLock (.inspect (fun _ _ => rfl) fun _ => ignores_seq_println _)
          | cat => exact ignores_catCommand args
          | write =>
              rw [hhead] at hop
              rw [writeCommand_of_unparsed (Option.map_eq_none_iff.mp hop)]
              exact ignores_println _
          | rm =>
              rw [hhead] at hop
              have hargs : args = [] := by simpa using hop
              rw [hargs]
              exact ignores_println _
          | storage =>
              exact (ignores_println _).andThen ((ignores_println _).andThen
                ((ignores_println _).andThen ((ignores_println _).andThen trivial)))
          | clear => exact ignores_redraw.andThen (ignores_println _)
          | unknown => exact ignores_println _

/-! ## Key events -/

theorem ignores_runLine (line : Option Str) : IgnoresKeys (runLine line) := by
  have hclear : IgnoresKeys (updateShell Shell.clearLine) := ignores_updateShell _
  match line with
  | none => exact (ignores_println _).andThen (hclear.andThen trivial)
  | some [] => exact hclear
  | some (c :: command) => exact (ignores_executeCommand _).andThen (hclear.andThen trivial)

theorem ignores_handleKey (shell : Shell) (event : KeyEvent) :
    IgnoresKeys (handleKey shell event) := by
  have hprompt : IgnoresKeys (.seq [prompt]) := (ignores_print _).andThen trivial
  cases event with
  | enter =>
      have hline : IgnoresKeys executeCurrentLine :=
        .inspect (fun _ _ => rfl) fun _ => ignores_runLine _
      exact (ignores_print _).andThen (hline.andThen hprompt)
  | backspace =>
      rw [handleKey]
      split_ifs
      · exact (ignores_updateShell _).andThen ((ignores_print _).andThen trivial)
      · trivial
  | char character =>
      rw [handleKey]
      split_ifs
      · exact (ignores_updateShell _).andThen ((ignores_print _).andThen trivial)
      · exact (ignores_print _).andThen ((ignores_println _).andThen
          ((ignores_updateShell _).andThen hprompt))

theorem ignores_onKey (event : KeyEvent) : IgnoresKeys (onKey event) := by
  apply Prog.Ignores.withLock
  refine .inspect (fun _ _ => rfl) fun s => ?_
  split_ifs
  · exact ignores_handleKey _ event
  · trivial

theorem ignores_decode (scancode : UInt8) {k : Option KeyEvent → Program}
    (h : ∀ event, IgnoresKeys (k event)) : IgnoresKeys (decode scancode k) := by
  rcases decode_cases scancode k with hlocked | ⟨event, -, hplain⟩
  · rw [hlocked]
    exact ⟨fun _ _ => ⟨rfl, rfl⟩, fun _ => h _⟩
  · rw [hplain]
    exact h event

theorem ignores_feedScancode (scancode : UInt8) : IgnoresKeys (feedScancode scancode) := by
  apply ignores_decode
  intro event
  cases event with
  | none => trivial
  | some event => exact ignores_onKey event

/-! ## Handlers -/

theorem ignores_notify : IgnoresKeys notifyEndOfInterrupt := by
  refine .inspect (fun _ _ => rfl) fun s => ?_
  split_ifs
  · exact .withLock (.update fun _ _ => rfl)
  · trivial

theorem ignores_timerHandler : IgnoresKeys (interruptHandler .timer) := by
  refine Prog.Ignores.andThen ?_ ignores_notify
  refine ⟨fun _ _ => ⟨rfl, rfl⟩, fun s => ?_⟩
  dsimp only
  split_ifs
  · exact ignores_schedulerTick.andThen (ignores_println _)
  · exact ignores_schedulerTick.andThen trivial
  · exact ignores_panic _

theorem moved_arrive (s : KernelState) (codes : List UInt8) :
    Prog.moved arrive s codes = { s with scancodes := s.scancodes ++ codes } := by
  induction codes generalizing s with
  | nil => simp
  | cons code codes ih =>
      change Prog.moved arrive (arrive code s) codes = _
      rw [ih]
      simp [arrive]

/-- The scancode that was first when the interrupt was delivered is the one read. -/
theorem blind_readScancode {s : KernelState} (h : s.scancodes ≠ []) :
    readScancode.Blind arrive s := by
  refine ⟨fun codes => ?_, (ignores_feedScancode _).blind _⟩
  obtain ⟨first, rest, hqueue⟩ := List.exists_cons_of_ne_nil h
  rw [moved_arrive, moved_arrive]
  simp [hqueue]

theorem blind_keyboardHandler {s : KernelState} (h : s.scancodes ≠ []) :
    (interruptHandler .keyboard).Blind arrive s := by
  refine Prog.Blind.andThen ?_ ignores_notify
  rw [onInterrupt_eq]
  refine ⟨fun codes => ?_, ?_⟩
  · refine ⟨rfl, ?_⟩
    rw [moved_arrive]
  · dsimp only [id_eq]
    split_ifs
    · exact blind_readScancode h
    · trivial

theorem blind_interruptHandler (policy : KernelState → Irq → Bool) (s : KernelState) (irq : Irq)
    (h : (kernelSystem policy).deliverable s irq = true) :
    ((kernelSystem policy).handler irq).Blind (kernelSystem policy).environment
      ((kernelSystem policy).deliver irq s) := by
  cases irq with
  | timer => exact ignores_timerHandler.blind _
  | keyboard =>
      apply blind_keyboardHandler
      have hraised : raised s .keyboard = true := by
        simp only [kernelSystem, Bool.and_eq_true] at h
        exact h.1.2
      change s.scancodes ≠ []
      simpa [raised] using hraised

/-- Between two handlers an idle kernel is where its interrupts, each served in
one piece when it was delivered, and the keys in between have brought it. -/
theorem handlers_serialise (policy : KernelState → Irq → Bool) (st : State KernelState Mutex)
    (hidle : st.main.prog = .done) (hrest : st.handler = none) (labels : List (Label Irq UInt8))
    (hend : (Runs.exec (step (kernelSystem policy)) st labels).handler = none) :
    replay (kernelSystem policy) st.shared (history (kernelSystem policy) st labels) =
      some (Runs.exec (step (kernelSystem policy)) st labels).shared :=
  serial_order (blind_interruptHandler policy) hidle hrest hend

def consoleState : State KernelState Mutex where
  shared := { shellUp with
    interruptFlag := true, picInitialized := true, keyboardInitialized := true, ticks := 99 }
  main := ⟨.done, ∅⟩
  handler := none

/-- `Enter` is typed while the hundredth tick is being counted. -/
def enterDuringTick : List (Label Irq UInt8) :=
  [.interrupt .timer, .run, .environment 0x1C] ++ List.replicate 12 .run ++
    .interrupt .keyboard :: List.replicate 23 .run

theorem handlers_serialise_enterDuringTick :
    let events := [Event.served Irq.timer, .move 0x1C, .served .keyboard]
    history (kernelSystem unblocked) consoleState enterDuringTick = events ∧
      replay (kernelSystem unblocked) consoleState.shared events =
        some (Runs.exec (step (kernelSystem unblocked)) consoleState enterDuringTick).shared := by
  intro events
  have hevents : history (kernelSystem unblocked) consoleState enterDuringTick = events := by
    decide +kernel
  have hend : (Runs.exec (step (kernelSystem unblocked)) consoleState enterDuringTick).handler =
      none := Option.isNone_iff_eq_none.mp (by decide +kernel)
  refine ⟨hevents, ?_⟩
  rw [← hevents]
  exact handlers_serialise unblocked consoleState rfl rfl enterDuringTick hend

end AetherOs.Kernel
