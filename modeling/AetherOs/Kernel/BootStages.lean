import AetherOs.Kernel.Footprints
import AetherOs.Support.Assurance
import AetherOs.Support.Lines
import AetherOs.Task.Table
/-!
# What the boot marker means

A kernel counts as booted once its log holds `AetherOS: kernel initialized`.
Interrupts are on while the boot context works, so ticks are logged and keys
arrive in between.  Before the shell is up the log consists of whole lines
without the marker, and the handlers leave alone what the subsystems have set
up (`Config`).  So the marker is not seen before everything is in place.
-/

namespace AetherOs.Kernel

open AetherOs.Support AetherOs.Support.Text AetherOs.Support.Word AetherOs.Boot AetherOs.Fs
open AetherOs.Support.Interrupts
open AetherOs.Task AetherOs.Memory.Heap AetherOs.Memory.Frames AetherOs.Drivers
open AetherOs.Drivers.Keyboard

/-! ## The marker -/

def initializedMarker : Str := "AetherOS: kernel initialized".toList

theorem initializedMarker_eq : initializedMarker =
    ['A', 'e', 't', 'h', 'e', 'r', 'O', 'S', ':', ' ', 'k', 'e', 'r', 'n', 'e', 'l', ' ',
      'i', 'n', 'i', 't', 'i', 'a', 'l', 'i', 'z', 'e', 'd'] :=
  String.toList_ofList

def Unmarked (line : Str) : Prop := ¬ initializedMarker <:+: line

theorem unmarked_literal {characters : List Char}
    (h : ¬ ['A', 'e', 't', 'h', 'e', 'r', 'O', 'S', ':', ' ', 'k', 'e', 'r', 'n', 'e', 'l', ' ',
      'i', 'n', 'i', 't', 'i', 'a', 'l', 'i', 'z', 'e', 'd'] <:+: characters) :
    Unmarked (String.ofList characters).toList := by
  unfold Unmarked
  rw [initializedMarker_eq, String.toList_ofList]
  exact h

theorem notMem_literal {c : Char} {characters : List Char} (h : c ∉ characters) :
    c ∉ (String.ofList characters).toList := by
  rw [String.toList_ofList]
  exact h

/-- The letter by which most lines differ from the marker. -/
theorem unmarked_of_notMem {line : Str} (h : 'z' ∉ line) : Unmarked line := by
  apply not_infix_of_notMem _ h
  rw [initializedMarker_eq]
  decide

theorem z_notMem_decimal (n : Nat) : 'z' ∉ decimal n := notMem_decimal (by decide) n

theorem notMem_unsafePrecondition {requirement : Str} (h : 'z' ∉ requirement) :
    'z' ∉ unsafePrecondition requirement := by
  unfold unsafePrecondition
  simp only [List.mem_append, not_or]
  exact ⟨⟨⟨notMem_literal (by decide), h⟩, notMem_literal (by decide)⟩, notMem_literal (by decide)⟩

theorem notMem_describe (reason : Panic) : 'z' ∉ describe reason := by
  cases reason with
  | overflow => exact notMem_literal (by decide)
  | outOfBounds => exact notMem_literal (by decide)
  | expectFailed => exact notMem_literal (by decide)
  | pointerOverflow => exact notMem_unsafePrecondition (notMem_literal (by decide))
  | misaligned => exact notMem_unsafePrecondition (notMem_literal (by decide))

def Early (log : Str) : Prop := ∃ lines, log = unlines lines ∧ ∀ line ∈ lines, Unmarked line

theorem Early.append {log log' : Str} (h : Early log) (h' : Early log') : Early (log ++ log') := by
  obtain ⟨lines, rfl, hlines⟩ := h
  obtain ⟨lines', rfl, hlines'⟩ := h'
  refine ⟨lines ++ lines', (unlines_append lines lines').symm, ?_⟩
  intro line hline
  rcases List.mem_append.mp hline with hold | hnew
  · exact hlines line hold
  · exact hlines' line hnew

theorem early_line {line : Str} (h : Unmarked line) : Early (line ++ ['\n']) :=
  ⟨[line], (unlines_singleton line).symm, by simpa using h⟩

/-- The marker does not begin in whole lines without it. -/
theorem Early.infix_append {log text : Str} (h : Early log)
    (hfound : initializedMarker <:+: log ++ text) : initializedMarker <:+: text := by
  obtain ⟨lines, rfl, hlines⟩ := h
  rcases infix_unlines_append (by rw [initializedMarker_eq]; decide) hfound with
    ⟨line, hmem, hline⟩ | htext
  · exact absurd hline (hlines line hmem)
  · exact htext

theorem Early.unmarked {log : Str} (h : Early log) : Unmarked log := by
  intro hfound
  rw [← List.append_nil log] at hfound
  have hnil := h.infix_append hfound
  rw [initializedMarker_eq] at hnil
  exact absurd (List.infix_nil.mp hnil) (List.cons_ne_nil _ _)

/-! ## What the boot sequence sets up -/

structure Config where
  interruptFlag : Bool
  picInitialized : Bool
  usableFrameCount : Nat
  usableRangeCount : Nat
  heap : BumpAllocator
  /-- the number of slots in use in the task table -/
  tasks : Nat
  taskCount : Nat
  keyboardInitialized : Bool
  framebuffer : Option FramebufferInfo
  vfsInitialized : Bool

def KernelState.config (s : KernelState) : Config where
  interruptFlag := s.interruptFlag
  picInitialized := s.picInitialized
  usableFrameCount := s.usableFrameCount
  usableRangeCount := s.usableRangeCount
  heap := s.heap
  tasks := s.scheduler.len
  taskCount := s.taskCount
  keyboardInitialized := s.keyboardInitialized
  framebuffer := s.framebuffer
  vfsInitialized := s.vfsInitialized

def bootedConfig (parameters : BootParameters) (setup : Setup) : Config where
  interruptFlag := true
  picInitialized := true
  usableFrameCount := setup.usableFrameCount
  usableRangeCount := setup.rangeCount
  heap := ⟨parameters.heapSpace, parameters.heapSpace + heapSize, parameters.heapSpace⟩
  tasks := 2
  taskCount := 2
  keyboardInitialized := true
  framebuffer := parameters.bootInfo.framebuffer
  vfsInitialized := true

structure Booted (parameters : BootParameters) (s : KernelState) : Prop where
  shell : s.shell.initialized = true
  config : ∃ setup, initializeAllocator parameters.bootInfo = .ok setup ∧
    s.config = bootedConfig parameters setup

structure Staged (parameters : BootParameters) (s : KernelState) : Prop where
  early : s.shell.initialized = false → Early s.serial
  booted : s.shell.initialized = true → Booted parameters s

/-- What the handlers leave alone; until the shell is up they add whole lines to
the log. -/
structure Undisturbed (s s' : KernelState) : Prop where
  config : s'.config = s.config
  shell : s'.shell.initialized = s.shell.initialized
  serial : s.shell.initialized = false → ∃ text, s'.serial = s.serial ++ text ∧ Early text

theorem early_nil : Early [] := ⟨[], rfl, fun _ h => absurd h List.not_mem_nil⟩

theorem Undisturbed.of_eq {s s' : KernelState} (hconfig : s'.config = s.config)
    (hshell : s'.shell.initialized = s.shell.initialized) (hserial : s'.serial = s.serial) :
    Undisturbed s s' :=
  ⟨hconfig, hshell, fun _ => ⟨[], by rw [hserial, List.append_nil], early_nil⟩⟩

theorem Undisturbed.refl (s : KernelState) : Undisturbed s s := .of_eq rfl rfl rfl

theorem Undisturbed.trans (s s' s'' : KernelState) (h : Undisturbed s s')
    (h' : Undisturbed s' s'') : Undisturbed s s'' := by
  refine ⟨h'.config.trans h.config, h'.shell.trans h.shell, fun hdown => ?_⟩
  obtain ⟨text, hserial, htext⟩ := h.serial hdown
  obtain ⟨text', hserial', htext'⟩ := h'.serial (h.shell.trans hdown)
  exact ⟨text ++ text', by rw [hserial', hserial, List.append_assoc], htext.append htext'⟩

theorem Typed.undisturbed {s s' : KernelState} (h : Typed s s') : Undisturbed s s' := by
  obtain ⟨extra, rfl⟩ := h
  exact .of_eq rfl rfl rfl

variable {parameters : BootParameters} {s s' start : KernelState}

theorem Staged.undisturbed (h : Staged parameters s) (hs : Undisturbed s s') :
    Staged parameters s' := by
  constructor
  · intro hdown
    have hdown' := hs.shell.symm.trans hdown
    obtain ⟨text, hserial, htext⟩ := hs.serial hdown'
    rw [hserial]
    exact (h.early hdown').append htext
  · intro hup
    obtain ⟨setup, hsetup, hconfig⟩ := (h.booted (hs.shell.symm.trans hup)).config
    exact ⟨hup, setup, hsetup, hs.config.trans hconfig⟩

/-! ## Handlers -/

abbrev Disturbs (parameters : BootParameters) (start : KernelState) (p : Program) : Prop :=
  p.Leads Typed (Staged parameters) (Undisturbed start) (Undisturbed start)

theorem disturbs_of_updates {G : KernelState → KernelState → Prop} {p : Program}
    (hstart : Staged parameters start)
    (hG : ∀ s s', Undisturbed start s → G s s' → Undisturbed start s')
    (h : p.Updates G) : Disturbs parameters start p := by
  intro s hs
  apply Prog.Assures.of_updates (P := Undisturbed start) (G := G)
  · exact fun s s' hs htyped => hs.trans start s s' htyped.undisturbed
  · exact hG
  · exact fun s hs => hstart.undisturbed hs
  · exact h
  · exact hs

theorem disturbs_undisturbed {A : Set Mutex} {own own' : Finset Mutex} {p : Program}
    (hstart : Staged parameters start)
    (h : Prog.Static A Undisturbed own own' p) : Disturbs parameters start p :=
  disturbs_of_updates hstart (fun s s' hs hs' => hs.trans start s s' hs') h.updates

/-- Once the shell is up, a key event may print anything. -/
theorem disturbs_edits {A : Set Mutex} {own own' : Finset Mutex} {p : Program}
    (hstart : Staged parameters start) (hup : start.shell.initialized = true)
    (h : Prog.Static A Edits own own' p) : Disturbs parameters start p := by
  refine disturbs_of_updates hstart (fun s s' hs hedits => ?_) h.updates
  have hshell := hedits.shellInitialized
  refine ⟨?_, hshell.trans hs.shell, ?_⟩
  · rw [hedits.others]
    exact hs.config
  · intro hdown
    rw [hup] at hdown
    cases hdown

theorem keeps_logLine {own : Finset Mutex} (h : .serial1 ∉ own) {line : Str}
    (hline : Unmarked line) :
    Keeps Set.univ Undisturbed own (println line) :=
  Prog.Static.withLock trivial h
    (Prog.Static.update fun _ => ⟨rfl, rfl, fun _ => ⟨_, rfl, early_line hline⟩⟩)

theorem keeps_panicLines {own : Finset Mutex} (h : .serial1 ∉ own) (reason : Panic) :
    Keeps Set.univ Undisturbed own (.seq [
      print ("AetherOS panic stage: kernel-init\nAetherOS panic: ".toList ++ describe reason ++
        ['\n']),
      println "AetherOS panic stage: kernel-init".toList,
      println ("AetherOS panic: ".toList ++ describe reason) ]) := by
  have hstage : 'z' ∉ "AetherOS panic stage: kernel-init".toList := notMem_literal (by decide)
  have hreason := notMem_describe reason
  refine .seq_cons (keeps_logLine h ?_) (.seq_cons (keeps_logLine h ?_)
    (.seq_cons (keeps_logLine h ?_) .seq_nil))
  · exact unmarked_of_notMem (by simp [hreason])
  · exact unmarked_of_notMem hstage
  · exact unmarked_of_notMem (by simp [hreason])

theorem panic_eq (reason : Panic) :
    panic reason = (Prog.seq [
      print ("AetherOS panic stage: kernel-init\nAetherOS panic: ".toList ++ describe reason ++
        ['\n']),
      println "AetherOS panic stage: kernel-init".toList,
      println ("AetherOS panic: ".toList ++ describe reason) ]).andThen (.seq [.halt]) := by
  rw [← Prog.seq_append]
  rfl

theorem keeps_onTick : Keeps Set.univ Undisturbed ∅ onTick := by
  have htick : Keeps Set.univ Undisturbed ∅ schedulerTick := by
    refine Prog.Static.withLock trivial (Finset.notMem_empty _) ?_
    refine .seq_cons (.update fun s => .of_eq ?_ rfl rfl) (.seq_cons (.update fun s => ?_) .seq_nil)
    · simp only [KernelState.config, Scheduler.runNext_len]
    · exact .of_eq rfl rfl rfl
  refine ⟨fun _ => .of_eq rfl rfl rfl, fun s => ?_⟩
  dsimp only
  split_ifs
  · refine htick.andThen (keeps_logLine (Finset.notMem_empty _) ?_)
    apply unmarked_of_notMem
    simp [z_notMem_decimal]
  · exact htick.andThen rfl
  · rw [panic_eq]
    exact (keeps_panicLines (Finset.notMem_empty _) _).andThen trivial

theorem disturbs_notify (hstart : Staged parameters start) :
    Disturbs parameters start notifyEndOfInterrupt := by
  have hnotify : Keeps Set.univ Undisturbed ∅ notifyEndOfInterrupt := by
    refine static_notify (fun s s' h => ?_) (free_univ _)
    rw [h]
    exact .of_eq rfl rfl rfl
  exact disturbs_undisturbed hstart hnotify

theorem disturbs_done (hstart : Staged parameters start) : Disturbs parameters start .done := by
  have hdone : Keeps Set.univ Undisturbed ∅ .done := rfl
  exact disturbs_undisturbed hstart hdone

theorem disturbs_onKey_down (hstart : Staged parameters start)
    (hdown : start.shell.initialized = false) (event : KeyEvent) :
    Disturbs parameters start (onKey event) := by
  apply Prog.Leads.withLock Typed.refl (disturbs_done hstart)
  intro s hs s' htyped
  have hs' := hs.trans start s s' htyped.undisturbed
  refine ⟨hstart.undisturbed hs', ?_⟩
  dsimp only
  rw [hs'.shell.trans hdown]
  exact disturbs_done hstart s' hs'

theorem disturbs_decode (hstart : Staged parameters start) {scancode : UInt8}
    {k : Option KeyEvent → Program} (hk : ∀ event, Disturbs parameters start (k event)) :
    Disturbs parameters start (decode scancode k) := by
  rcases decode_cases scancode k with hlocked | ⟨event, -, hplain⟩
  · rw [hlocked]
    intro s hs s' htyped
    have hs' := hs.trans start s s' htyped.undisturbed
    refine ⟨hstart.undisturbed hs', hk _ _ (hs'.trans start s' _ ?_)⟩
    exact .of_eq rfl rfl rfl
  · rw [hplain]
    exact hk event

theorem disturbs_onInterrupt (hstart : Staged parameters start) :
    Disturbs parameters start onInterrupt := by
  intro s hs s' htyped
  have hs' := hs.trans start s s' htyped.undisturbed
  refine ⟨hstart.undisturbed hs', ?_⟩
  dsimp only
  split_ifs
  · intro t htyped'
    have ht := hs'.trans start s' t htyped'.undisturbed
    refine ⟨hstart.undisturbed ht, disturbs_decode hstart ?_ _ (ht.trans start t _ ?_)⟩
    · intro event
      cases event with
      | none => exact disturbs_done hstart
      | some event =>
          cases hup : start.shell.initialized with
          | false => exact disturbs_onKey_down hstart hup event
          | true =>
              have hkey : Keeps Set.univ Edits ∅ (onKey event) :=
                takes_onKey (fun _ => trivial) (fun m hm => absurd hm (Finset.notMem_empty m)) event
              exact disturbs_edits hstart hup hkey
    · exact .of_eq rfl rfl rfl
  · exact disturbs_done hstart s' hs'

theorem disturbs_interruptHandler (hstart : Staged parameters start) (irq : Irq) :
    Disturbs parameters start (interruptHandler irq) := by
  cases irq with
  | timer =>
      exact (disturbs_undisturbed hstart keeps_onTick).andThen Typed.refl (disturbs_notify hstart)
  | keyboard =>
      exact (disturbs_onInterrupt hstart).andThen Typed.refl (disturbs_notify hstart)

theorem staged_assurance (parameters : BootParameters) (policy : KernelState → Irq → Bool) :
    Assurance (kernelSystem policy) Typed Undisturbed (Staged parameters) where
  refl := Undisturbed.refl
  trans := Undisturbed.trans
  env_refl := Typed.refl
  env_trans := Typed.trans
  env_sub := fun _ _ htyped => htyped.undisturbed
  environment := fun scancode _ => ⟨[scancode], rfl⟩
  handler := by
    intro s irq hs _
    apply disturbs_interruptHandler hs irq
    exact .of_eq rfl rfl rfl

/-! ## The boot context -/

/-- The shell is not up, and the subsystems have set up `config`. -/
structure Progress (config : Config) (s : KernelState) : Prop where
  shell : s.shell.initialized = false
  early : Early s.serial
  config : s.config = config

theorem Progress.staged {config : Config} (h : Progress config s) : Staged parameters s := by
  refine ⟨fun _ => h.early, fun hup => ?_⟩
  rw [h.shell] at hup
  cases hup

theorem Progress.undisturbed {config : Config} (h : Progress config s) (hs : Undisturbed s s') :
    Progress config s' := by
  obtain ⟨text, hserial, htext⟩ := hs.serial h.shell
  refine ⟨hs.shell.trans h.shell, ?_, hs.config.trans h.config⟩
  rw [hserial]
  exact h.early.append htext

abbrev Advances (parameters : BootParameters) (p : Program) (config config' : Config) : Prop :=
  p.Leads Undisturbed (Staged parameters) (Progress config) (Progress config')

theorem advances_keeps {A : Set Mutex} {own own' : Finset Mutex} {p : Program} {config : Config}
    (h : Prog.Static A Undisturbed own own' p) : Advances parameters p config config := by
  intro s hs
  apply Prog.Assures.of_updates (P := Progress config) (G := Undisturbed)
  · exact fun s s' hs hs' => hs.undisturbed hs'
  · exact fun s s' hs hs' => hs.undisturbed hs'
  · exact fun s hs => hs.staged
  · exact h.updates
  · exact hs

theorem advances_done (config : Config) : Advances parameters .done config config := by
  have hdone : Keeps Set.univ Undisturbed ∅ .done := rfl
  exact advances_keeps hdone

theorem advances_println {config : Config} {line : Str} (h : Unmarked line) :
    Advances parameters (println line) config config :=
  advances_keeps (keeps_logLine (Finset.notMem_empty _) h)

theorem advances_update {f : KernelState → KernelState} {g : Config → Config} {config : Config}
    (hshell : ∀ s, (f s).shell = s.shell) (hserial : ∀ s, (f s).serial = s.serial)
    (hconfig : ∀ s, (f s).config = g s.config) :
    Advances parameters (.update f) config (g config) := by
  apply Prog.Leads.update
  · exact fun s s' hs hs' => hs.undisturbed hs'
  · exact fun s hs => hs.staged
  · exact advances_done (g config)
  · intro s hs
    refine ⟨?_, ?_, ?_⟩
    · rw [hshell]
      exact hs.shell
    · rw [hserial]
      exact hs.early
    · rw [hconfig, hs.config]

theorem advances_seq_cons {p : Program} {ps : List Program} {config mid config' : Config}
    (hp : Advances parameters p config mid) (hps : Advances parameters (.seq ps) mid config') :
    Advances parameters (.seq (p :: ps)) config config' :=
  hp.seq_cons Undisturbed.refl hps

theorem advances_withLock {m : Mutex} {p : Program} {config config' : Config}
    (h : Advances parameters p config config') :
    Advances parameters (.withLock m p) config config' :=
  Prog.Leads.withLock Undisturbed.refl (advances_done config') h

theorem leads_panic (reason : Panic) {config : Config} {Q : KernelState → Prop} :
    (panic reason).Leads Undisturbed (Staged parameters) (Progress config) Q := by
  have hlines := keeps_panicLines (Finset.notMem_empty Mutex.serial1) reason
  rw [panic_eq]
  intro s hs
  have hlogged : Advances parameters _ config config := advances_keeps hlines
  refine Prog.Assures.andThen Undisturbed.refl ((hlogged s hs).mono ?_)
  exact fun s hs s' hs' => (hs.undisturbed hs').staged

variable {config : Config}

theorem advances_id : Advances parameters (.update id) config config :=
  advances_update (g := id) (fun _ => rfl) (fun _ => rfl) fun _ => rfl

theorem advances_interruptsInit :
    Advances parameters (.seq interruptsInit) config
      { config with interruptFlag := true, picInitialized := true } := by
  have hflag : ∀ config, Advances parameters
      (.update fun s => { s with interruptFlag := true }) config
      { config with interruptFlag := true } := fun config =>
    advances_update (g := fun config => { config with interruptFlag := true })
      (fun _ => rfl) (fun _ => rfl) fun _ => rfl
  have hpic : ∀ config, Advances parameters
      (.update fun s => { s with picInitialized := true }) config
      { config with picInitialized := true } := fun config =>
    advances_update (g := fun config => { config with picInitialized := true })
      (fun _ => rfl) (fun _ => rfl) fun _ => rfl
  exact advances_seq_cons (advances_withLock advances_id) (advances_seq_cons advances_id
    (advances_seq_cons (hflag _) (advances_seq_cons (hpic _) (advances_done _))))

theorem advances_heapInitialize (start : Nat) :
    Advances parameters (heapInitialize start) config
      { config with heap := ⟨start, start + heapSize, start⟩ } := by
  have hheap : ∀ (g : BumpAllocator → BumpAllocator) config, Advances parameters
      (.update fun s => { s with heap := g s.heap }) config { config with heap := g config.heap } :=
    fun g config => advances_update (g := fun config => { config with heap := g config.heap })
      (fun _ => rfl) (fun _ => rfl) fun _ => rfl
  unfold heapInitialize
  generalize hsum : add start heapSize = sum
  cases sum with
  | error reason =>
      exact advances_seq_cons (hheap (fun heap => { heap with heapStart := start }) _)
        (advances_seq_cons (leads_panic reason) (advances_done _))
  | ok stop =>
      rw [← (add_eq_ok hsum).1]
      refine advances_seq_cons (hheap (fun heap => { heap with heapStart := start }) _)
        (advances_seq_cons ?_ (advances_done _))
      exact advances_seq_cons (hheap (fun heap => { heap with heapEnd := stop }) _)
        (advances_seq_cons (hheap (fun heap => { heap with next := start }) _) (advances_done _))

def withMemory (parameters : BootParameters) (setup : Setup) (config : Config) : Config :=
  { config with
    usableFrameCount := setup.usableFrameCount
    usableRangeCount := setup.rangeCount
    heap := ⟨parameters.heapSpace, parameters.heapSpace + heapSize, parameters.heapSpace⟩ }

theorem advances_memoryInitialize {setup : Setup}
    (h : initializeAllocator parameters.bootInfo = .ok setup) :
    Advances parameters (memoryInitialize parameters) config
      (withMemory parameters setup config) := by
  have hframes : ∀ n config, Advances parameters (.update fun s => { s with usableFrameCount := n })
      config { config with usableFrameCount := n } := fun n config =>
    advances_update (g := fun config => { config with usableFrameCount := n })
      (fun _ => rfl) (fun _ => rfl) fun _ => rfl
  have hranges : ∀ n config, Advances parameters (.update fun s => { s with usableRangeCount := n })
      config { config with usableRangeCount := n } := fun n config =>
    advances_update (g := fun config => { config with usableRangeCount := n })
      (fun _ => rfl) (fun _ => rfl) fun _ => rfl
  unfold memoryInitialize
  rw [h]
  exact advances_seq_cons (hframes _ _) (advances_seq_cons (hranges _ _)
    (advances_seq_cons (advances_heapInitialize _) (advances_done _)))

theorem len_add (scheduler : Scheduler) (process : Process) :
    (scheduler.add process).len = min (scheduler.len + 1) maxTasks := by
  have hle := scheduler.len_le
  unfold Scheduler.add
  split_ifs with hroom
  · exact (min_eq_left hroom).symm
  · rw [min_eq_right (by omega)]
    omega

theorem advances_taskInitialize (h : config.tasks = 0) :
    Advances parameters taskInitialize config { config with tasks := 2, taskCount := 2 } := by
  have hadd : ∀ process config, config.tasks < maxTasks → Advances parameters
      (.update fun s => { s with scheduler := s.scheduler.add process }) config
      { config with tasks := config.tasks + 1 } := by
    intro process config hroom
    have hset : Advances parameters
        (.update fun s => { s with scheduler := s.scheduler.add process }) config
        { config with tasks := min (config.tasks + 1) maxTasks } :=
      advances_update (g := fun config => { config with tasks := min (config.tasks + 1) maxTasks })
        (fun _ => rfl) (fun _ => rfl) fun s => by simp only [KernelState.config, len_add]
    rw [min_eq_left hroom] at hset
    exact hset
  have hnext : ∀ config, Advances parameters
      (.update fun s => { s with scheduler := s.scheduler.runNext }) config config := fun config =>
    advances_update (g := id) (fun _ => rfl) (fun _ => rfl) fun s => by
      simp only [KernelState.config, Scheduler.runNext_len, id_eq]
  have hcount : ∀ config, Advances parameters
      (.update fun s => { s with taskCount := s.scheduler.len }) config
      { config with taskCount := config.tasks } := fun config =>
    advances_update (g := fun config => { config with taskCount := config.tasks })
      (fun _ => rfl) (fun _ => rfl) fun _ => rfl
  have hcurrent : ∀ config, Advances parameters
      (.update fun s => { s with currentTaskId := s.scheduler.currentTaskId }) config config :=
    fun config => advances_update (g := id) (fun _ => rfl) (fun _ => rfl) fun _ => rfl
  have htasks : Advances parameters taskInitialize config
      { config with tasks := config.tasks + 1 + 1, taskCount := config.tasks + 1 + 1 } := by
    apply advances_withLock
    refine advances_seq_cons (hadd _ _ ?_) (advances_seq_cons (hadd _ _ ?_)
      (advances_seq_cons (hnext _) (advances_seq_cons (hcount _)
        (advances_seq_cons (hcurrent _) (advances_done _)))))
    · rw [h]
      decide
    · change config.tasks + 1 < maxTasks
      rw [h]
      decide
  rw [h] at htasks
  exact htasks

theorem advances_timerInitialize : Advances parameters timerInitialize config config := by
  refine advances_seq_cons (advances_update (g := id) (fun _ => rfl) (fun _ => rfl) fun _ => rfl)
    (advances_seq_cons (advances_println ?_) (advances_done _))
  exact unmarked_literal (by decide)

theorem advances_keyboardInitialize :
    Advances parameters keyboardInitialize config { config with keyboardInitialized := true } := by
  refine advances_seq_cons
    (advances_update (g := fun config => { config with keyboardInitialized := true })
      (fun _ => rfl) (fun _ => rfl) fun _ => rfl)
    (advances_seq_cons (advances_println ?_) (advances_done _))
  exact unmarked_literal (by decide)

theorem advances_renderBootVisual (framebuffer : FramebufferInfo) :
    Advances parameters (renderBootVisual framebuffer) config config := by
  unfold renderBootVisual
  split
  · apply advances_println
    apply unmarked_of_notMem
    simp [z_notMem_decimal]
  · split
    · exact leads_panic _
    · exact advances_id

theorem advances_framebufferInitialize (h : config.framebuffer = none)
    (framebuffer : Option FramebufferInfo) :
    Advances parameters (framebufferInitialize framebuffer) config
      { config with framebuffer := framebuffer } := by
  cases framebuffer with
  | none =>
      have hsame : { config with framebuffer := none } = config := by rw [← h]
      rw [hsame]
      apply advances_println
      exact unmarked_literal (by decide)
  | some framebuffer =>
      have hset : Advances parameters
          (.update fun s => { s with framebuffer := some framebuffer }) config
          { config with framebuffer := some framebuffer } :=
        advances_update (g := fun config => { config with framebuffer := some framebuffer })
          (fun _ => rfl) (fun _ => rfl) fun _ => rfl
      exact advances_seq_cons (advances_withLock hset)
        (advances_seq_cons (advances_renderBootVisual framebuffer) (advances_done _))

theorem advances_fsInitialize :
    Advances parameters fsInitialize config { config with vfsInitialized := true } := by
  have hclear : Advances parameters (.update fun s => { s with overlay := .empty }) config config :=
    advances_update (g := id) (fun _ => rfl) (fun _ => rfl) fun _ => rfl
  have hset : Advances parameters (.update fun s => { s with vfsInitialized := true }) config
      { config with vfsInitialized := true } :=
    advances_update (g := fun config => { config with vfsInitialized := true })
      (fun _ => rfl) (fun _ => rfl) fun _ => rfl
  intro s hs s' hs'
  have hprogress := hs.undisturbed hs'
  refine ⟨hprogress.staged, ?_⟩
  dsimp only
  split_ifs with hinit
  · have hsame : config = { config with vfsInitialized := true } := by
      rw [← hprogress.config]
      simp only [KernelState.config, hinit]
    rw [← hsame]
    exact advances_done config s' hprogress
  · exact advances_seq_cons (advances_withLock hclear) (advances_seq_cons hset (advances_done _))
      s' hprogress

theorem advances_subsystems {setup : Setup} (htasks : config.tasks = 0)
    (hframebuffer : config.framebuffer = none)
    (hsetup : initializeAllocator parameters.bootInfo = .ok setup) :
    Advances parameters (.seq (subsystems parameters)) config
      { withMemory parameters setup config with
        tasks := 2
        taskCount := 2
        keyboardInitialized := true
        framebuffer := parameters.bootInfo.framebuffer
        vfsInitialized := true } := by
  refine advances_seq_cons (advances_memoryInitialize hsetup) ?_
  refine advances_seq_cons (advances_taskInitialize htasks) ?_
  refine advances_seq_cons advances_timerInitialize ?_
  refine advances_seq_cons advances_keyboardInitialize ?_
  refine advances_seq_cons (advances_framebufferInitialize ?_ _) ?_
  · exact hframebuffer
  · exact advances_seq_cons advances_fsInitialize (advances_done _)

/-! ## Afterwards -/

structure KeepsConfig (s s' : KernelState) : Prop where
  config : s'.config = s.config
  shell : s'.shell.initialized = s.shell.initialized

instance admitsEdits_keepsConfig : AdmitsEdits KeepsConfig := by
  refine ⟨fun h => ?_⟩
  have hshell := h.shellInitialized
  rw [h.others]
  exact ⟨rfl, hshell⟩

theorem Booted.keepsConfig (h : Booted parameters s) (hs : KeepsConfig s s') :
    Booted parameters s' := by
  obtain ⟨setup, hsetup, hconfig⟩ := h.config
  exact ⟨hs.shell.trans h.shell, setup, hsetup, hs.config.trans hconfig⟩

theorem Booted.staged (h : Booted parameters s) : Staged parameters s := by
  refine ⟨fun hdown => ?_, fun _ => h⟩
  rw [h.shell] at hdown
  cases hdown

theorem leads_booted {A : Set Mutex} {own own' : Finset Mutex} {p : Program}
    (h : Prog.Static A KeepsConfig own own' p) :
    p.Leads Undisturbed (Staged parameters) (Booted parameters) (Booted parameters) := by
  intro s hs
  apply Prog.Assures.of_updates (P := Booted parameters) (G := KeepsConfig)
  · exact fun s s' hs hs' => hs.keepsConfig ⟨hs'.config, hs'.shell⟩
  · exact fun s s' hs hs' => hs.keepsConfig hs'
  · exact fun s hs => hs.staged
  · exact h.updates
  · exact hs

theorem leads_booted_done :
    (Prog.done : Program).Leads Undisturbed (Staged parameters) (Booted parameters)
      (Booted parameters) := by
  have hdone : Keeps Set.univ KeepsConfig ∅ .done := rfl
  exact leads_booted hdone

theorem leads_shellInitialize {setup : Setup}
    (hsetup : initializeAllocator parameters.bootInfo = .ok setup) :
    shellInitialize.Leads Undisturbed (Staged parameters)
      (Progress (bootedConfig parameters setup)) (Booted parameters) := by
  have hlines : Keeps Set.univ KeepsConfig ∅ (.seq [
      println "AetherOS shell ready".toList,
      println "Type 'help' to list commands.".toList,
      prompt ]) :=
    .seq_cons (takes_println (free_univ _) _) (.seq_cons (takes_println (free_univ _) _)
      (.seq_cons (takes_print (free_univ _) _) .seq_nil))
  apply Prog.Leads.withLock Undisturbed.refl leads_booted_done
  intro s hs s' hs'
  have hprogress := hs.undisturbed hs'
  refine ⟨hprogress.staged, ?_⟩
  dsimp only
  rw [hprogress.shell]
  intro t ht
  have hbefore := hprogress.undisturbed ht
  refine ⟨hbefore.staged, leads_booted hlines _ ?_⟩
  exact ⟨rfl, setup, hsetup, hbefore.config⟩

theorem leads_bootReport :
    (Prog.seq (bootReport parameters.bootInfo)).Leads Undisturbed (Staged parameters)
      (Booted parameters) (Booted parameters) := by
  have hreport : Keeps Set.univ KeepsConfig ∅ (.seq (bootReport parameters.bootInfo)) :=
    takes_bootReport (free_univ _) (free_univ _) _
  exact leads_booted hreport

theorem leads_bootInitialize :
    (bootInitialize parameters).Leads Undisturbed (Staged parameters)
      (Progress KernelState.initial.config) (Booted parameters) := by
  have htables : Advances parameters (.seq [.update id, .update id]) KernelState.initial.config
      KernelState.initial.config :=
    advances_seq_cons advances_id (advances_seq_cons advances_id (advances_done _))
  unfold bootInitialize
  rw [List.append_assoc, List.append_assoc, Prog.seq_append, Prog.seq_append]
  refine Prog.Leads.andThen Undisturbed.refl
    (htables.andThen Undisturbed.refl advances_interruptsInit) ?_
  rw [Prog.seq_append, Prog.seq_append]
  cases hsetup : initializeAllocator parameters.bootInfo with
  | error reason =>
      -- a memory map that the frame allocator refuses stops the boot here
      have hrefused : memoryInitialize parameters = panic reason := by
        unfold memoryInitialize
        rw [hsetup]
      change (Prog.andThen ((memoryInitialize parameters).andThen _) _).Leads _ _ _ _
      rw [hrefused, Prog.andThen_assoc]
      exact (leads_panic (Q := fun _ => False) reason).andThen Undisturbed.refl
        fun s hs => hs.elim
  | ok setup =>
      refine (advances_subsystems rfl rfl hsetup).andThen Undisturbed.refl ?_
      refine Prog.Leads.andThen Undisturbed.refl ?_ leads_bootReport
      exact (leads_shellInitialize hsetup).seq_cons Undisturbed.refl leads_booted_done

theorem progress_initial : Progress KernelState.initial.config KernelState.initial :=
  ⟨rfl, early_nil, rfl⟩

theorem staged_run (parameters : BootParameters) (policy : KernelState → Irq → Bool)
    (labels : List (Label Irq UInt8)) :
    Staged parameters
      (Runs.exec (step (kernelSystem policy)) (bootState parameters) labels).shared := by
  have hboot : Assured Typed Undisturbed (Staged parameters) (bootState parameters) :=
    (leads_bootInitialize KernelState.initial progress_initial).mono fun _ _ => trivial
  exact (staged_assurance parameters policy).invariant hboot labels

/-- A boot that has come to its end has set everything up. -/
theorem booted_of_done (parameters : BootParameters) (policy : KernelState → Irq → Bool)
    {labels : List (Label Irq UInt8)} {st : State KernelState Mutex}
    (hst : Runs.exec (step (kernelSystem policy)) (bootState parameters) labels = st)
    (hidle : st.main.prog = .done) (hrest : st.handler = none) :
    Booted parameters st.shared := by
  have hboot : AssuredTo Typed Undisturbed (Staged parameters) (Booted parameters)
      (bootState parameters) := leads_bootInitialize KernelState.initial progress_initial
  have hassured := (staged_assurance parameters policy).exec hboot labels
  rw [hst] at hassured
  exact hassured.ended (staged_assurance parameters policy) hidle hrest

theorem Staged.booted_of_marker (h : Staged parameters s)
    (hmarker : initializedMarker <:+: s.serial) :
    Booted parameters s := by
  cases hshell : s.shell.initialized with
  | false => exact absurd hmarker (h.early hshell).unmarked
  | true => exact h.booted hshell

/-- In every run, whatever interrupts come when, the marker is in the log only
once the shell is up and every subsystem has been set up as the boot
information asks; before that the log is a sequence of whole lines. -/
theorem boot_marker_means_booted (parameters : BootParameters)
    (policy : KernelState → Irq → Bool) (labels : List (Label Irq UInt8)) :
    let s := (Runs.exec (step (kernelSystem policy)) (bootState parameters) labels).shared
    (initializedMarker <:+: s.serial → Booted parameters s) ∧
      (s.shell.initialized = false → ∃ lines, s.serial = unlines lines ∧
        ∀ line ∈ lines, ¬ initializedMarker <:+: line) := by
  intro s
  have hstaged : Staged parameters s := staged_run parameters policy labels
  exact ⟨hstaged.booted_of_marker, hstaged.early⟩

/-- An uninterrupted boot gets there. -/
example : initializedMarker <:+: (Runs.exec (step (kernelSystem unblocked)) (bootState quietBoot)
    (List.replicate 70 .run)).shared.serial := by decide +kernel

end AetherOs.Kernel
