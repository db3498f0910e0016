import AetherOs.Kernel.LockDiscipline
import AetherOs.Memory.Frames.Exactness
/-!
# Lock invariants of the kernel

The shell, the interrupt handlers and the boot sequence keep the discipline of
the mutexes.  What follows holds in every interleaving of the boot code with
the two handlers and the keyboard: a guarded value is in order whenever nobody
holds its mutex, the log is legible text, and with sound boot parameters nothing
panics before the tick counter overflows.
-/

namespace AetherOs.Kernel

open AetherOs.Support AetherOs.Support.Text AetherOs.Support.Word AetherOs.Boot AetherOs.Fs
open AetherOs.Support.Interrupts
open AetherOs.Task AetherOs.Memory.Heap AetherOs.Memory.Frames AetherOs.Drivers
open AetherOs.Drivers.Keyboard

variable {parameters : BootParameters} {halts : Prop} {own : Finset Mutex}

/-! ## Commands -/

theorem legible_boolean (b : Bool) : Legible (boolean b) := by
  cases b <;> exact legible_literal (by decide)

theorem legible_debugName {name : Option Str} (h : ∀ text ∈ name, Legible text) :
    Legible (debugName name) := by
  cases name with
  | none => exact (by decide : Legible "None".toList)
  | some text =>
      have hopened : Legible ("Some(\"".toList ++ text) :=
        Legible.append (legible_literal (by decide)) (h text rfl)
      exact hopened.append (by decide)

theorem tidy_taskName (h : .serial1 ∉ own) (hsched : .scheduler ∉ own) {caption : Str}
    (hcaption : Legible caption) :
    TidyRoutine parameters halts own
      (currentTask Process.name fun name => println (caption ++ debugName name)) := by
  refine tidy_currentTask hsched fun task htask => tidy_println h (hcaption.append ?_)
  apply legible_debugName
  intro text htext
  obtain ⟨t, ht, rfl⟩ := Option.mem_map.mp htext
  exact htask t ht

theorem tidy_printTaskField (h : .serial1 ∉ own) (hsched : .scheduler ∉ own) {caption : Str}
    (hcaption : Legible caption) {field : Process → Str} (hfield : ∀ task, Legible (field task)) :
    TidyRoutine parameters halts own (printTaskField caption field) := by
  refine tidy_currentTask hsched fun task _ => tidy_println h (hcaption.append ?_)
  cases task with
  | none => exact (by decide : Legible "unavailable".toList)
  | some task => exact hfield task

theorem tidy_printModel (h : .serial1 ∉ own) {caption : Str} (hcaption : Legible caption) :
    TidyRoutine parameters halts own (println (caption ++ schedulingModel)) :=
  tidy_println h (hcaption.append (legible_literal (by decide)))

theorem tidy_printNumber (h : .serial1 ∉ own) {caption : Str} (hcaption : Legible caption)
    (number : KernelState → Nat) :
    TidyRoutine parameters halts own (printlnWith fun s => caption ++ decimal (number s)) :=
  tidy_printlnWith h fun _ => hcaption.append (legible_decimal _)

theorem tidy_taskSummary (h : .serial1 ∉ own) (hsched : .scheduler ∉ own) :
    ∀ p ∈ taskSummary, TidyRoutine parameters halts own p := by
  have hstate : ∀ task : Process, Legible task.state.label := by
    intro task
    cases task.state <;> exact legible_literal (by decide)
  have hmode : ∀ task : Process, Legible task.executionMode.label := by
    intro task
    cases task.executionMode <;> exact legible_literal (by decide)
  have hkind : ∀ task : Process, Legible task.addressSpace.kind.label := by
    intro task
    cases task.addressSpace.kind <;> exact legible_literal (by decide)
  intro p hp
  simp only [taskSummary, List.mem_cons, List.not_mem_nil, or_false] at hp
  rcases hp with rfl | rfl | rfl | rfl | rfl | rfl
  · exact tidy_printModel h (legible_literal (by decide))
  · exact tidy_printNumber h (legible_literal (by decide)) _
  · exact tidy_taskName h hsched (legible_literal (by decide))
  · exact tidy_printTaskField h hsched (legible_literal (by decide)) hstate
  · exact tidy_printTaskField h hsched (legible_literal (by decide)) hmode
  · exact tidy_printTaskField h hsched (legible_literal (by decide)) hkind

theorem tidy_infoCommand (h : .serial1 ∉ own) (hsched : .scheduler ∉ own) :
    TidyRoutine parameters halts own (.seq infoCommand) := by
  refine Discipline.Tidy.seq fun p hp => ?_
  rcases List.mem_append.mp hp with hfirst | hsummary
  · simp only [List.mem_cons, List.not_mem_nil, or_false] at hfirst
    rcases hfirst with rfl | rfl
    · exact tidy_literal h (by decide)
    · exact tidy_printlnWith h fun _ =>
        Legible.append (legible_literal (by decide)) (legible_boolean _)
  · exact tidy_taskSummary h hsched p hsummary

theorem tidy_memCommand (h : .serial1 ∉ own) :
    TidyRoutine parameters halts own (.seq memCommand) := by
  refine Discipline.Tidy.seq fun p hp => ?_
  simp only [memCommand, List.mem_cons, List.not_mem_nil, or_false] at hp
  rcases hp with rfl | rfl | rfl | rfl
  · exact tidy_printNumber h (legible_literal (by decide)) _
  · exact tidy_printNumber h (legible_literal (by decide)) _
  · exact tidy_caption h (by decide) (legible_decimal _)
  · exact tidy_printNumber h (legible_literal (by decide)) _

theorem tidy_storageCommand (h : .serial1 ∉ own) :
    TidyRoutine parameters halts own (.seq storageCommand) := by
  refine Discipline.Tidy.seq fun p hp => ?_
  simp only [storageCommand, List.mem_cons, List.not_mem_nil, or_false] at hp
  rcases hp with rfl | rfl | rfl | rfl
  · exact tidy_caption h (by decide) (legible_literal (by decide))
  · exact tidy_caption h (by decide) (legible_boolean _)
  · exact tidy_caption h (by decide) (legible_boolean _)
  · exact tidy_caption h (by decide) (legible_decimal _)

theorem tidy_lsCommand (h : .serial1 ∉ own) (hfiles : .writableFiles ∉ own) :
    TidyRoutine parameters halts own lsCommand := by
  have hserial : Mutex.serial1 ∉ insert Mutex.writableFiles own := by simp [h]
  refine Discipline.Tidy.withLock hfiles (Discipline.Tidy.inspect fun s _ _ hwhole => ?_)
  obtain ⟨M, hrefines, hprintable⟩ := hwhole .writableFiles (Finset.mem_insert_self _ _)
  exact tidy_seq_println hserial fun name hname =>
    legible_of_printable (token_of_mem_forEachEntry hrefines hprintable.names hname).printable

theorem tidy_catCommand (h : .serial1 ∉ own) (hfiles : .writableFiles ∉ own) {args : List Str}
    (hargs : ∀ word ∈ args, Legible word) :
    TidyRoutine parameters halts own (catCommand args) := by
  unfold catCommand
  split
  · exact tidy_literal h (by decide)
  · next path _ =>
      refine tidy_vfsRead hfiles path fun value hvalue => ?_
      cases value with
      | some contents => exact tidy_println h (hvalue contents rfl)
      | none => exact tidy_caption h (by decide) (hargs path (by simp))

theorem legible_message (error : VfsError) : Legible error.message := by
  cases error <;> exact legible_literal (by decide)

theorem tidy_fileCommand (h : .serial1 ∉ own) (hfiles : .writableFiles ∉ own) {op : Op}
    (hop : PrintableOp op) (hpath : Legible op.path) :
    TidyRoutine parameters halts own (fileCommand op) := by
  have hreport : ∀ {verb : Str}, Legible verb →
      TidyRoutine parameters halts own (println (verb ++ op.path)) :=
    fun hverb => tidy_println h (hverb.append hpath)
  have hfailure : ∀ {verb : Str} (error : VfsError), Legible verb →
      TidyRoutine parameters halts own (println (verb ++ error.message)) :=
    fun error hverb => tidy_println h (hverb.append (legible_message error))
  cases op with
  | write path contents =>
      unfold fileCommand
      apply tidy_vfsWrite hfiles hop
      intro value
      cases value with
      | ok _ => exact hreport (legible_literal (by decide))
      | error error => exact hfailure error (legible_literal (by decide))
  | remove path =>
      unfold fileCommand
      apply tidy_vfsRemove hfiles path
      intro value
      cases value with
      | ok _ => exact hreport (legible_literal (by decide))
      | error error => exact hfailure error (legible_literal (by decide))

theorem mem_of_mem_splitWhitespace {text word : Str} (h : word ∈ splitWhitespace text) {c : Char}
    (hc : c ∈ word) : c ∈ text := by
  generalize hwords : splitWhitespace text = words at h
  induction words generalizing text with
  | nil => cases h
  | cons first words ih =>
      obtain ⟨lead, rest, rfl, -, -, -, -, hrest⟩ := exists_first_word hwords
      rw [List.mem_append, List.mem_append]
      rcases List.mem_cons.mp h with rfl | hmem
      · exact Or.inr (Or.inl hc)
      · exact Or.inr (Or.inr (ih hrest hmem))

/-- A line that asks for a write is the verb, the path and the contents. -/
theorem eq_of_commandOp_write {command path contents : Str}
    (h : commandOp command = some (.write path contents)) :
    command = "write ".toList ++ (path ++ ' ' :: contents) := by
  unfold commandOp at h
  split at h
  · cases h
  · split at h
    · obtain ⟨⟨path', contents'⟩, hparts, heq⟩ := Option.map_eq_some_iff.mp h
      cases heq
      obtain ⟨rest, hrest, hsplit⟩ := Option.bind_eq_some_iff.mp hparts
      rw [stripPrefix_eq_some_iff.mp hrest, (splitOnce_eq_some_iff.mp hsplit).1]
    · obtain ⟨path', -, heq⟩ := Option.map_eq_some_iff.mp h
      cases heq
    · cases h

theorem mem_of_commandOp_remove {command path : Str} (h : commandOp command = some (.remove path))
    {c : Char} (hc : c ∈ path) : c ∈ command := by
  unfold commandOp at h
  split at h
  · cases h
  · next word args hwords =>
      split at h
      · obtain ⟨parts, -, heq⟩ := Option.map_eq_some_iff.mp h
        cases heq
      · obtain ⟨path', hpath, heq⟩ := Option.map_eq_some_iff.mp h
        cases heq
        refine mem_of_mem_splitWhitespace ?_ hc
        rw [hwords]
        exact List.mem_cons_of_mem word (List.mem_of_mem_head? hpath)
      · cases h

theorem printableOp_of_commandOp {command : Str} {op : Op} (h : ∀ c ∈ command, Printable c)
    (hop : commandOp command = some op) : PrintableOp op ∧ Legible op.path := by
  cases op with
  | remove path =>
      refine ⟨fun _ _ heq => (by cases heq), legible_of_printable fun c hc => ?_⟩
      exact h c (mem_of_commandOp_remove hop hc)
  | write path contents =>
      have hpath : ∀ c ∈ path, Printable c ∧ c ≠ ' ' := by
        intro c hc
        obtain ⟨hmem, hne⟩ := mem_of_commandOp_write hop hc
        exact ⟨h c hmem, hne⟩
      refine ⟨?_, legible_of_printable fun c hc => (hpath c hc).1⟩
      rintro path' contents' heq
      cases heq
      refine ⟨hpath, fun c hc => h c ?_⟩
      rw [eq_of_commandOp_write hop]
      simp [hc]

theorem legible_helpLines : ∀ line ∈ helpLines, Legible line := by
  simp only [helpLines, List.forall_mem_cons]
  refine ⟨?_, ?_, ?_, ?_, ?_, ?_, ?_, ?_, ?_, ?_, ?_, ?_, fun _ h => by cases h⟩ <;>
    exact legible_literal (by decide)

theorem tidy_executeCommand (h : .serial1 ∉ own) (hsched : .scheduler ∉ own)
    (hfiles : .writableFiles ∉ own) (hfb : .framebuffer ∉ own)
    (hdraw : ∀ info ∈ parameters.bootInfo.framebuffer, Drawable halts info) {command : Str}
    (hcommand : ∀ c ∈ command, Printable c) :
    TidyRoutine parameters halts own (executeCommand command) := by
  cases hop : commandOp command with
  | some op =>
      rw [executeCommand_of_commandOp hop]
      obtain ⟨hprintable, hpath⟩ := printableOp_of_commandOp hcommand hop
      exact tidy_fileCommand h hfiles hprintable hpath
  | none =>
      unfold commandOp at hop
      unfold executeCommand
      cases hwords : splitWhitespace command with
      | nil => exact Discipline.Tidy.done
      | cons word args =>
          rw [hwords] at hop
          dsimp only at hop ⊢
          cases hhead : parseHead word with
          | help => exact tidy_seq_println h legible_helpLines
          | info => exact tidy_infoCommand h hsched
          | ticks => exact tidy_printNumber h (legible_literal (by decide)) _
          | mem => exact tidy_memCommand h
          | tasks => exact Discipline.Tidy.seq (tidy_taskSummary h hsched)
          | ls => exact tidy_lsCommand h hfiles
          | cat =>
              refine tidy_catCommand h hfiles fun word' hword' => ?_
              apply legible_of_printable
              intro c hc
              refine hcommand c (mem_of_mem_splitWhitespace ?_ hc)
              rw [hwords]
              exact List.mem_cons_of_mem word hword'
          | write =>
              rw [hhead] at hop
              rw [writeCommand_of_unparsed (Option.map_eq_none_iff.mp hop)]
              exact tidy_literal h (by decide)
          | rm =>
              rw [hhead] at hop
              have hargs : args = [] := by simpa using hop
              rw [hargs]
              exact tidy_literal h (by decide)
          | storage => exact tidy_storageCommand h
          | clear =>
              refine (tidy_redraw h hfb hdraw).andThen ?_
              exact tidy_literal h (by decide)
          | unknown =>
              exact tidy_caption h (by decide) (legible_of_printable hcommand)

/-! ## Key events -/

theorem tidy_updateShell (hshell : .shell ∈ own) {f : Shell → Shell}
    (hf : ∀ shell, TypedLine shell → TypedLine (f shell)) :
    TidyRoutine parameters halts own (updateShell f) := by
  have hbody : TidyRoutine parameters halts own
      (.seq ([fun s => { s with shell := f s.shell }].map .update)) := by
    refine Discipline.Tidy.updates hshell (fun g hg => ?_) fun s hs => hf s.shell hs
    rw [List.mem_singleton] at hg
    subst hg
    refine ⟨fun s m hne => ?_, fun _ _ heq => congrArg f heq, fun _ hs => hs⟩
    cases m <;> first | rfl | exact absurd rfl hne
  exact hbody

theorem TypedLine.clearLine (shell : Shell) : TypedLine shell.clearLine :=
  ⟨[], rfl, fun _ hc => by cases hc⟩

theorem TypedLine.dropLast {shell : Shell} (h : TypedLine shell) : TypedLine shell.dropLast := by
  obtain ⟨typed, hbytes, hprintable⟩ := h
  refine ⟨typed.dropLast, ?_, fun c hc => hprintable c (List.mem_of_mem_dropLast hc)⟩
  rw [shell.lineBytes_dropLast, hbytes, stored_dropLast]

theorem TypedLine.push {shell : Shell} (h : TypedLine shell) {c : Char} (hc : Printable c) :
    TypedLine (shell.push c) := by
  by_cases hroom : shell.len < maxLineLen
  · obtain ⟨typed, hbytes, hprintable⟩ := h
    refine ⟨typed ++ [c], ?_, printable_append hprintable (by simpa using hc)⟩
    rw [Shell.push_of_lt hroom, hbytes, stored_append]
  · rw [Shell.push, dif_neg (by omega)]
    exact h

theorem TypedLine.line {shell : Shell} (h : TypedLine shell) :
    ∃ command, shell.line = some command ∧ ∀ c ∈ command, Printable c := by
  obtain ⟨typed, hbytes, hprintable⟩ := h
  refine ⟨trim typed, ?_, fun c hc => hprintable c (mem_of_mem_trim hc)⟩
  rw [Shell.line, hbytes, stored, ← asBytes_of_ascii (ascii_of_printable hprintable),
    fromUtf8_asBytes, Option.map_some]

theorem tidy_prompt (h : .serial1 ∉ own) : TidyRoutine parameters halts own prompt :=
  tidy_print h (legible_literal (by decide))

def keyLocks : Finset Mutex := {.shell}

theorem tidy_clearLine : TidyRoutine parameters halts keyLocks (updateShell Shell.clearLine) :=
  tidy_updateShell (by decide) fun shell _ => TypedLine.clearLine shell

theorem tidy_executeCurrentLine
    (hdraw : ∀ info ∈ parameters.bootInfo.framebuffer, Drawable halts info) :
    TidyRoutine parameters halts keyLocks executeCurrentLine := by
  refine Discipline.Tidy.inspect fun s _ _ hwhole => ?_
  have hline : TypedLine s.shell := hwhole .shell (by decide)
  obtain ⟨command, hcommand, hprintable⟩ := hline.line
  rw [hcommand]
  cases command with
  | nil => exact tidy_clearLine
  | cons c command =>
      have hexecute : TidyRoutine parameters halts keyLocks (executeCommand (c :: command)) :=
        tidy_executeCommand (by decide) (by decide) (by decide) (by decide) hdraw hprintable
      exact hexecute.andThen (tidy_clearLine.andThen Discipline.Tidy.done)

theorem tidy_handleKey (hdraw : ∀ info ∈ parameters.bootInfo.framebuffer, Drawable halts info)
    (shell : Shell) {event : KeyEvent} (hevent : ∀ c, event = .char c → Printable c) :
    TidyRoutine parameters halts keyLocks (handleKey shell event) := by
  have hserial : Mutex.serial1 ∉ keyLocks := by decide
  cases event with
  | enter =>
      refine (tidy_print hserial (by decide)).andThen ?_
      refine (tidy_executeCurrentLine hdraw).andThen ?_
      exact (tidy_prompt hserial).andThen Discipline.Tidy.done
  | backspace =>
      simp only [handleKey]
      split_ifs
      · exact (tidy_updateShell (by decide) fun _ h => h.dropLast).andThen
          ((tidy_print hserial (by decide)).andThen Discipline.Tidy.done)
      · exact Discipline.Tidy.done
  | char c =>
      have hc : Printable c := hevent c rfl
      simp only [handleKey]
      split_ifs
      · have hecho : Legible [c] := legible_of_printable (by simpa using hc)
        exact (tidy_updateShell (by decide) fun _ h => h.push hc).andThen
          ((tidy_print hserial hecho).andThen Discipline.Tidy.done)
      · refine (tidy_print hserial (by decide)).andThen ?_
        refine (tidy_literal hserial (by decide)).andThen ?_
        refine tidy_clearLine.andThen ?_
        exact (tidy_prompt hserial).andThen Discipline.Tidy.done

theorem tidy_onKey (hdraw : ∀ info ∈ parameters.bootInfo.framebuffer, Drawable halts info)
    {event : KeyEvent} (hevent : ∀ c, event = .char c → Printable c) :
    TidyRoutine parameters halts ∅ (onKey event) := by
  refine Discipline.Tidy.withLock (Finset.notMem_empty _)
    (Discipline.Tidy.inspect fun s _ _ _ => ?_)
  split_ifs
  · exact tidy_handleKey hdraw s.shell hevent
  · exact Discipline.Tidy.done

/-! ## Handlers -/

theorem tidy_decode (hdraw : ∀ info ∈ parameters.bootInfo.framebuffer, Drawable halts info)
    (scancode : UInt8) :
    TidyRoutine parameters halts ∅ (decode scancode fun
      | some event => onKey event
      | none => .done) := by
  have hevent : ∀ shift, TidyRoutine parameters halts ∅
      (match (decodeScancode scancode shift).2 with
        | some event => onKey event
        | none => .done) := by
    intro shift
    cases hdecoded : (decodeScancode scancode shift).2 with
    | none => exact Discipline.Tidy.done
    | some event =>
        refine tidy_onKey hdraw fun c hc => ?_
        subst hc
        exact printable_decodeScancode hdecoded
  rcases decode_cases scancode _ with hlocked | ⟨event, hsame, hplain⟩
  · rw [hlocked]
    refine Discipline.Tidy.locked (Finset.notMem_empty _) (fun _ _ _ => rfl) (fun s m hne => ?_)
      (fun _ hs _ => ⟨hs, trivial⟩) fun s _ _ _ => hevent s.shiftPressed
    cases m <;> first | rfl | exact absurd rfl hne
  · rw [hplain]
    have hplainEvent := hevent false
    rw [hsame false] at hplainEvent
    exact hplainEvent

theorem tidy_onInterrupt
    (hdraw : ∀ info ∈ parameters.bootInfo.framebuffer, Drawable halts info) :
    TidyRoutine parameters halts ∅ onInterrupt := by
  refine Discipline.Tidy.inspect fun s _ _ _ => ?_
  split_ifs
  · exact Discipline.Tidy.act (fun _ m => by cases m <;> rfl) (fun _ hs => hs)
      fun s _ _ _ => tidy_decode hdraw _
  · exact Discipline.Tidy.done

theorem tidy_onTick : TidyRoutine parameters halts ∅ onTick := by
  have hempty : ∀ m, m ∉ (∅ : Finset Mutex) := Finset.notMem_empty
  refine Discipline.Tidy.act (fun _ m => by cases m <;> rfl) (fun _ hs => hs)
    fun s _ hgiven _ => ?_
  split_ifs with hlimit hreport
  · exact (tidy_schedulerTick (hempty _)).andThen
      (tidy_caption (hempty _) (by decide) (legible_decimal _))
  · exact (tidy_schedulerTick (hempty _)).andThen Discipline.Tidy.done
  · exact tidy_panic (hempty _) (hgiven.resolve_right hlimit) _

theorem tidy_notify : TidyRoutine parameters halts ∅ notifyEndOfInterrupt := by
  refine Discipline.Tidy.inspect fun s _ _ _ => ?_
  split_ifs
  · exact Discipline.Tidy.withLock_update (Finset.notMem_empty _)
      (fun _ m _ => by cases m <;> rfl) fun _ hs _ => ⟨hs, trivial⟩
  · exact Discipline.Tidy.done

theorem tidy_interruptHandler
    (hdraw : ∀ info ∈ parameters.bootInfo.framebuffer, Drawable halts info) (irq : Irq) :
    TidyRoutine parameters halts ∅ (interruptHandler irq) := by
  cases irq with
  | timer => exact tidy_onTick.andThen tidy_notify
  | keyboard => exact (tidy_onInterrupt hdraw).andThen tidy_notify

/-! ## The boot sequence -/

/-- What the boot context is given lets it come to its end: no addition of the
memory setup overflows, and the framebuffer, if it has 32 bits a pixel, has pixels
that can all be stored to. -/
structure Bootable (parameters : BootParameters) : Prop where
  memory : ∀ region ∈ measured parameters.bootInfo, region.base.toNat ≤ wordLimit - frameSize
  heap : parameters.heapSpace + heapSize < wordLimit
  screen : ∀ info ∈ parameters.bootInfo.framebuffer, info.bpp = 32 → Vga.Paintable info

theorem drawable_of_bootable (h : halts ∨ Bootable parameters) :
    ∀ info ∈ parameters.bootInfo.framebuffer, Drawable halts info :=
  fun info hinfo => h.imp id fun hboot => hboot.screen info hinfo

theorem tidy_heapInitialize (h : .serial1 ∉ own)
    (hheap : halts ∨ parameters.heapSpace + heapSize < wordLimit) :
    TidyRoutine parameters halts own (heapInitialize parameters.heapSpace) := by
  have hupdate : ∀ f : BumpAllocator → BumpAllocator, TidyRoutine parameters halts own
      (.update fun s => { s with heap := f s.heap }) :=
    fun f => tidy_update fun _ m => by cases m <;> rfl
  refine (hupdate fun heap => { heap with heapStart := parameters.heapSpace }).andThen ?_
  cases hadd : add parameters.heapSpace heapSize with
  | error reason =>
      refine (tidy_panic h (hheap.resolve_right fun hlt => ?_) reason).andThen Discipline.Tidy.done
      rw [add_of_lt hlt] at hadd
      cases hadd
  | ok stop =>
      exact ((hupdate fun heap => { heap with heapEnd := stop }).andThen
        ((hupdate fun heap => { heap with next := parameters.heapSpace }).andThen
          Discipline.Tidy.done)).andThen Discipline.Tidy.done

theorem tidy_memoryInitialize (h : .serial1 ∉ own) (hboot : halts ∨ Bootable parameters) :
    TidyRoutine parameters halts own (memoryInitialize parameters) := by
  unfold memoryInitialize
  split
  · next reason hreason =>
      refine tidy_panic h (hboot.resolve_right fun hboot => ?_) reason
      obtain ⟨setup, hsetup⟩ := (initializeAllocator_isOk_iff _).mpr hboot.memory
      rw [hsetup] at hreason
      cases hreason
  · refine (tidy_update fun _ m => ?_).andThen ((tidy_update fun _ m => ?_).andThen
      ((tidy_heapInitialize h (hboot.imp id Bootable.heap)).andThen Discipline.Tidy.done))
    · cases m <;> rfl
    · cases m <;> rfl

theorem tidy_framebufferInitialize (h : .serial1 ∉ own) (hfb : .framebuffer ∉ own)
    (hdraw : ∀ info ∈ parameters.bootInfo.framebuffer, Drawable halts info) :
    TidyRoutine parameters halts own (framebufferInitialize parameters.bootInfo.framebuffer) := by
  cases hinfo : parameters.bootInfo.framebuffer with
  | none => exact tidy_literal h (by decide)
  | some info =>
      have hstore : TidyRoutine parameters halts own (.withLock .framebuffer
          (.update fun s => { s with framebuffer := some info })) := by
        refine Discipline.Tidy.withLock_update hfb (fun s m hne => ?_) fun s hs _ => ⟨hs, ?_⟩
        · cases m <;> first | rfl | exact absurd rfl hne
        · intro info' hinfo'
          rw [hinfo]
          exact hinfo'
      exact hstore.andThen
        ((tidy_renderBootVisual h (hdraw info hinfo)).andThen Discipline.Tidy.done)

theorem tidy_fsInitialize (hfiles : .writableFiles ∉ own) :
    TidyRoutine parameters halts own fsInitialize := by
  refine Discipline.Tidy.inspect fun s _ _ _ => ?_
  split_ifs
  · exact Discipline.Tidy.done
  · have hclear : TidyRoutine parameters halts own (.withLock .writableFiles
        (.update fun s => { s with overlay := .empty })) := by
      refine Discipline.Tidy.withLock_update hfiles (fun s m hne => ?_) fun s hs _ => ⟨hs, ?_⟩
      · cases m <;> first | rfl | exact absurd rfl hne
      · exact ⟨BoundedMap.empty, refines_empty, printableFiles_empty⟩
    refine hclear.andThen ((tidy_update fun _ m => ?_).andThen Discipline.Tidy.done)
    cases m <;> rfl

theorem tidy_shellInitialize (h : .serial1 ∉ own) (hshell : .shell ∉ own) :
    TidyRoutine parameters halts own shellInitialize := by
  have hserial : Mutex.serial1 ∉ insert Mutex.shell own := by simp [h]
  refine Discipline.Tidy.withLock hshell (Discipline.Tidy.inspect fun s _ _ _ => ?_)
  split_ifs
  · exact Discipline.Tidy.done
  · have hup : TidyRoutine parameters halts (insert .shell own)
        (updateShell fun shell => { shell with initialized := true }) :=
      tidy_updateShell (Finset.mem_insert_self _ _) fun _ hline => hline
    refine hup.andThen ?_
    refine (tidy_literal hserial (by decide)).andThen ?_
    refine (tidy_literal hserial (by decide)).andThen ?_
    exact (tidy_prompt hserial).andThen Discipline.Tidy.done

theorem tidy_interruptsInit (hpics : .pics ∉ own) :
    TidyRoutine parameters halts own (.seq interruptsInit) := by
  refine Discipline.Tidy.seq fun p hp => ?_
  simp only [interruptsInit, List.mem_cons, List.not_mem_nil, or_false] at hp
  rcases hp with rfl | rfl | rfl | rfl
  · exact Discipline.Tidy.withLock hpics (tidy_update fun _ _ => rfl)
  · exact tidy_update fun _ _ => rfl
  · exact tidy_update fun _ m => by cases m <;> rfl
  · exact tidy_update fun _ m => by cases m <;> rfl

theorem tidy_subsystems (hboot : halts ∨ Bootable parameters) :
    TidyRoutine parameters halts ∅ (.seq (subsystems parameters)) := by
  have hempty : ∀ m, m ∉ (∅ : Finset Mutex) := Finset.notMem_empty
  have hdraw := drawable_of_bootable hboot
  refine Discipline.Tidy.seq fun p hp => ?_
  simp only [subsystems, List.mem_cons, List.not_mem_nil, or_false] at hp
  rcases hp with rfl | rfl | rfl | rfl | rfl | rfl
  · exact tidy_memoryInitialize (hempty _) hboot
  · exact tidy_taskInitialize (hempty _)
  · have hreset : TidyRoutine parameters halts ∅ (.update fun s => { s with ticks := 0 }) :=
      tidy_update fun _ m => by cases m <;> rfl
    refine hreset.andThen ?_
    exact (tidy_literal (hempty _) (by decide)).andThen Discipline.Tidy.done
  · have hready : TidyRoutine parameters halts ∅
        (.update fun s => { s with keyboardInitialized := true }) :=
      tidy_update fun _ m => by cases m <;> rfl
    refine hready.andThen ?_
    exact (tidy_literal (hempty _) (by decide)).andThen Discipline.Tidy.done
  · exact tidy_framebufferInitialize (hempty _) (hempty _) hdraw
  · exact tidy_fsInitialize (hempty _)

theorem tidy_bootReport :
    TidyRoutine parameters halts ∅ (.seq (bootReport parameters.bootInfo)) := by
  have hempty : ∀ m, m ∉ (∅ : Finset Mutex) := Finset.notMem_empty
  refine Discipline.Tidy.seq fun p hp => ?_
  simp only [bootReport, List.mem_cons, List.not_mem_nil, or_false] at hp
  rcases hp with rfl | rfl | rfl | rfl | rfl | rfl | rfl | rfl | rfl | rfl | rfl | rfl
  · exact tidy_literal (hempty _) (by decide)
  · exact tidy_caption (hempty _) (by decide) (legible_hexadecimal _)
  · exact tidy_caption (hempty _) (by decide) (legible_decimal _)
  · refine tidy_caption (hempty _) (by decide) ?_
    split_ifs <;> exact legible_literal (by decide)
  · exact tidy_printNumber (hempty _) (legible_literal (by decide)) _
  · exact tidy_printNumber (hempty _) (legible_literal (by decide)) _
  · exact tidy_caption (hempty _) (by decide) (legible_decimal _)
  · exact tidy_printNumber (hempty _) (legible_literal (by decide)) _
  · exact tidy_printNumber (hempty _) (legible_literal (by decide)) _
  · exact tidy_taskName (hempty _) (hempty _) (legible_literal (by decide))
  · exact tidy_printModel (hempty _) (legible_literal (by decide))
  · exact tidy_literal (hempty _) (by decide)

theorem tidy_bootInitialize (hboot : halts ∨ Bootable parameters) :
    TidyRoutine parameters halts ∅ (bootInitialize parameters) := by
  have hempty : ∀ m, m ∉ (∅ : Finset Mutex) := Finset.notMem_empty
  have htables : TidyRoutine parameters halts ∅ (.seq [.update id, .update id]) := by
    refine Discipline.Tidy.seq fun p hp => ?_
    simp only [List.mem_cons, List.not_mem_nil, or_false, or_self] at hp
    rw [hp]
    exact tidy_update fun _ _ => rfl
  have hshell : TidyRoutine parameters halts ∅ (.seq [shellInitialize]) :=
    (tidy_shellInitialize (hempty _) (hempty _)).andThen Discipline.Tidy.done
  unfold bootInitialize
  rw [Prog.seq_append, Prog.seq_append, Prog.seq_append, Prog.seq_append]
  exact (((htables.andThen (tidy_interruptsInit (hempty _))).andThen
    (tidy_subsystems hboot)).andThen hshell).andThen tidy_bootReport

/-! ## The machine -/

theorem respects_kernelSystem (policy : KernelState → Irq → Bool)
    (hboot : halts ∨ Bootable parameters) :
    (kernelDiscipline parameters halts).Respects (kernelSystem policy) where
  handler := tidy_interruptHandler (drawable_of_bootable hboot)
  deliver := fun _ _ hs => ⟨hs, fun m _ => by cases m <;> rfl⟩
  environment := fun _ _ hs => ⟨hs, fun m _ => by cases m <;> rfl⟩

theorem inv_initial (m : Mutex) : (kernelDiscipline parameters halts).Inv m .initial := by
  cases m with
  | scheduler => exact ⟨[], rfl, rfl, rfl⟩
  | shell => exact ⟨[], rfl, fun _ hc => by cases hc⟩
  | framebuffer => exact fun _ h => by cases h
  | writableFiles => exact ⟨BoundedMap.empty, refines_empty, printableFiles_empty⟩
  | _ => trivial

theorem orderly_bootState (hboot : halts ∨ Bootable parameters) :
    (kernelDiscipline parameters halts).Orderly (bootState parameters) where
  always := fun _ hc => by cases hc
  main := (tidy_bootInitialize hboot .initial fun m _ => inv_initial m).mono fun _ _ _ => trivial
  handler := fun _ h => by cases h
  free := fun m _ => inv_initial m

structure ValuesInOrder (parameters : BootParameters) (st : State KernelState Mutex) : Prop where
  /-- the log is legible text, also inside critical sections -/
  log : Legible st.shared.serial
  /-- the task statics agree with the table, which the public calls have built -/
  tasks : Discipline.Free st .scheduler →
    (∃ calls : List TaskCall, Mirrors st.shared (calls.flatMap TaskCall.ops)) ∧
      schedulerCurrentTaskId st.shared = st.shared.scheduler.currentTask.map Process.id
  line : Discipline.Free st .shell → TypedLine st.shared.shell
  files : Discipline.Free st .writableFiles →
    ∃ M, Refines st.shared.overlay M ∧ PrintableFiles M
  screen : Discipline.Free st .framebuffer →
    ∀ info, st.shared.framebuffer = some info → parameters.bootInfo.framebuffer = some info

theorem orderly_run (parameters : BootParameters) (policy : KernelState → Irq → Bool)
    (labels : List (Label Irq UInt8)) :
    (kernelDiscipline parameters True).Orderly
      (Runs.exec (step (kernelSystem policy)) (bootState parameters) labels) := by
  have hboot : True ∨ Bootable parameters := Or.inl trivial
  have hgiven : Runs.Along (step (kernelSystem policy))
      (fun st _ => (kernelDiscipline parameters True).Given st.shared) (bootState parameters)
      labels :=
    Runs.along_of_invariant (P := fun _ => True) (fun _ _ _ => trivial)
      (fun _ _ _ => Or.inl trivial) trivial labels
  exact (respects_kernelSystem policy hboot).invariant (orderly_bootState hboot) hgiven

/-- Whatever the timer and the keyboard interrupt, the value behind a mutex is in
order whenever nobody holds it. -/
theorem mutex_values_in_order (parameters : BootParameters) (policy : KernelState → Irq → Bool)
    (labels : List (Label Irq UInt8)) :
    ValuesInOrder parameters
      (Runs.exec (step (kernelSystem policy)) (bootState parameters) labels) := by
  have horderly := orderly_run parameters policy labels
  refine ⟨horderly.always, fun hfree => ?_, horderly.free .shell, horderly.free .writableFiles,
    horderly.free .framebuffer⟩
  obtain ⟨calls, htable, hcount, hcurrent⟩ := horderly.free .scheduler hfree
  have hmirrors : Mirrors _ (calls.flatMap TaskCall.ops) := ⟨htable, hcount, hcurrent⟩
  exact ⟨⟨calls, hmirrors⟩, hmirrors.currentTaskId_eq⟩

def Panicked (st : State KernelState Mutex) : Prop :=
  st.main.prog = .halt ∨ ∃ c, st.handler = some c ∧ c.prog = .halt

/-- With sound boot parameters nothing panics in any interleaving, unless the
tick counter has come to its end. -/
theorem no_panic_before_tick_overflow (parameters : BootParameters)
    (hboot : Bootable parameters) (policy : KernelState → Irq → Bool)
    (labels : List (Label Irq UInt8)) :
    ¬ Panicked (Runs.exec (step (kernelSystem policy)) (bootState parameters) labels) ∨
      ∃ n, wordLimit ≤ (Runs.exec (step (kernelSystem policy)) (bootState parameters)
        (labels.take n)).shared.ticks + 1 := by
  by_cases hover : ∃ n, wordLimit ≤ (Runs.exec (step (kernelSystem policy)) (bootState parameters)
      (labels.take n)).shared.ticks + 1
  · exact Or.inr hover
  · left
    have hbelow : ∀ n, (Runs.exec (step (kernelSystem policy)) (bootState parameters)
        (labels.take n)).shared.ticks + 1 < wordLimit :=
      fun n => Nat.lt_of_not_le fun hle => hover ⟨n, hle⟩
    have hgiven : Runs.Along (step (kernelSystem policy))
        (fun st _ => (kernelDiscipline parameters False).Given st.shared) (bootState parameters)
        labels :=
      Runs.along_of_forall_take
        (P := fun st : State KernelState Mutex => False ∨ st.shared.ticks + 1 < wordLimit)
        fun n => Or.inr (hbelow n)
    have hend := hbelow labels.length
    rw [List.take_length] at hend
    intro hpanicked
    have hsound : False ∨ Bootable parameters := Or.inr hboot
    have horderly :=
      (respects_kernelSystem policy hsound).invariant (orderly_bootState hsound) hgiven
    exact horderly.halts (Or.inr hend) hpanicked

/-- A usable region, a screen of 1280 by 800 pixels, and the heap in the kernel image. -/
def screenBoot : BootParameters where
  bootInfo := ⟨0, 1, some ⟨0x80000000, 1280, 800, 5120, 32⟩,
    (Vector.replicate 64 .empty).set 0 ⟨0x100000, 0x1000000, .usable⟩⟩
  heapSpace := 0xFFFFFFFF80200000

theorem bootable_screenBoot : Bootable screenBoot where
  memory := by decide +kernel
  heap := by decide
  screen := by
    rintro info hinfo -
    obtain rfl := Option.mem_some_iff.mp hinfo
    exact Vga.paintable_of_aligned ⟨rfl, by decide⟩ (by decide) (by decide) (by decide) (by decide)

def busyLabels : List (Label Irq UInt8) :=
  List.replicate 40 .run ++
    (List.replicate 10 (.interrupt .timer :: List.replicate 12 .run)).flatten ++ [.environment 0x1E]

theorem no_panic_before_tick_overflow_busy :
    Bootable screenBoot ∧
      (¬ Panicked (Runs.exec (step (kernelSystem unblocked)) (bootState screenBoot) busyLabels) ∨
        ∃ n, wordLimit ≤ (Runs.exec (step (kernelSystem unblocked)) (bootState screenBoot)
          (busyLabels.take n)).shared.ticks + 1) :=
  ⟨bootable_screenBoot,
    no_panic_before_tick_overflow screenBoot bootable_screenBoot unblocked busyLabels⟩

end AetherOs.Kernel
