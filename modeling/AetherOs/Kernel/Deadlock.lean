import AetherOs.Kernel.Footprints
/-!
# Interrupt handlers and the mutexes of the boot context

The boot context takes its mutexes with interrupts enabled, and the handlers
take some of the same mutexes: `SCHEDULER` at every tick, `SERIAL1` at every
hundredth one, `SHELL` and what the shell needs at a key.  A handler that finds
one of them held by the context it interrupted spins for ever.

`LocksClear` lists, for a delivery in a given state, the mutexes that must not
be held then.  `PICS`, `SHIFT_PRESSED`, `FRAMEBUFFER` and `WRITABLE_FILES` do
not occur in it: `BootHolds` is why they never collide.
-/

namespace AetherOs.Kernel

open AetherOs.Support AetherOs.Support.Text AetherOs.Support.Word AetherOs.Boot
open AetherOs.Support.Interrupts AetherOs.Drivers.Keyboard

/-! ## When a delivery is safe -/

/-- `on_tick` counts, ticks the scheduler and logs every hundredth tick; the
last tick of the counter panics instead. -/
def TickClear (held : Finset Mutex) (s : KernelState) : Prop :=
  if s.ticks + 1 < wordLimit then
    .scheduler ∉ held ∧ ((s.ticks + 1) % 100 = 0 → .serial1 ∉ held)
  else .serial1 ∉ held

/-- A key event goes to the shell, which answers on the serial port; only a
command that reports on tasks asks the scheduler. -/
def EventClear (held : Finset Mutex) (shell : Shell) (event : KeyEvent) : Prop :=
  .shell ∉ held ∧
    (shell.initialized = true →
      (writesOutput shell event = true → .serial1 ∉ held) ∧
      (event = .enter →
        ∀ command ∈ shell.line, queriesTask command = true → .scheduler ∉ held))

def KeyClear (held : Finset Mutex) (s : KernelState) : Prop :=
  s.keyboardInitialized = true →
    ∀ event ∈ (decodeScancode (s.scancodes.headD 0) s.shiftPressed).2,
      EventClear held s.shell event

/-- The interrupted context holds none of the mutexes on the handler's path. -/
def LocksClear (held : Finset Mutex) (s : KernelState) : Irq → Prop
  | .timer => TickClear held s
  | .keyboard => KeyClear held s

instance decidableTickClear (held : Finset Mutex) (s : KernelState) :
    Decidable (TickClear held s) :=
  inferInstanceAs (Decidable (if s.ticks + 1 < wordLimit then
    .scheduler ∉ held ∧ ((s.ticks + 1) % 100 = 0 → .serial1 ∉ held) else .serial1 ∉ held))

instance decidableEventClear (held : Finset Mutex) (shell : Shell) (event : KeyEvent) :
    Decidable (EventClear held shell event) :=
  inferInstanceAs (Decidable (.shell ∉ held ∧ (shell.initialized = true →
    (writesOutput shell event = true → .serial1 ∉ held) ∧ (event = .enter →
      ∀ command ∈ shell.line, queriesTask command = true → .scheduler ∉ held))))

instance decidableLocksClear (held : Finset Mutex) (s : KernelState) :
    ∀ irq, Decidable (LocksClear held s irq)
  | .timer => decidableTickClear held s
  | .keyboard => inferInstanceAs (Decidable (s.keyboardInitialized = true →
      ∀ event ∈ (decodeScancode (s.scancodes.headD 0) s.shiftPressed).2,
        EventClear held s.shell event))

structure BootHolds (held : Finset Mutex) (s : KernelState) : Prop where
  pics : s.interruptFlag = true → .pics ∉ held
  shiftPressed : .shiftPressed ∉ held
  framebuffer : s.shell.initialized = true → .framebuffer ∉ held
  writableFiles : s.shell.initialized = true → .writableFiles ∉ held

structure KeepsMode (s s' : KernelState) : Prop where
  interruptFlag : s'.interruptFlag = s.interruptFlag
  shellInitialized : s'.shell.initialized = s.shell.initialized

theorem KeepsMode.refl (s : KernelState) : KeepsMode s s := ⟨rfl, rfl⟩

theorem KeepsMode.trans (s s' s'' : KernelState) (h : KeepsMode s s') (h' : KeepsMode s' s'') :
    KeepsMode s s'' :=
  ⟨h'.interruptFlag.trans h.interruptFlag, h'.shellInitialized.trans h.shellInitialized⟩

theorem Quiet.keepsMode {s s' : KernelState} (h : Quiet s s') : KeepsMode s s' :=
  ⟨h.interruptFlag, h.shellInitialized⟩

instance admitsInternal_keepsMode : AdmitsInternal KeepsMode := ⟨fun h => h.quiet.keepsMode⟩

/-! ## Handlers -/

/-- From `s` and holding `own`, the program requests no mutex of `held`, and if
it ends it holds nothing and has kept the mode of `start`. -/
abbrev Passes (held : Finset Mutex) (start : KernelState) (own : Finset Mutex) (p : Program)
    (s : KernelState) : Prop :=
  Prog.Upholds Typed (fun m own => m ∉ held ∧ m ∉ own) (fun _ _ => True)
    (fun own s' => own = ∅ ∧ KeepsMode start s') own p s

variable {held own own' : Finset Mutex} {start s : KernelState} {p q : Program}

theorem passes_andThen {G : KernelState → KernelState → Prop} {P : KernelState → Prop}
    (htyped : ∀ s s', P s → Typed s s' → P s') (hG : ∀ s s', P s → G s s' → P s')
    (hp : Prog.Static {m | m ∉ held} G own own' p) (hs : P s)
    (hq : ∀ s, P s → Passes held start own' q s) : Passes held start own (p.andThen q) s := by
  apply Prog.Upholds.andThen Typed.refl
  apply Prog.Static.upholds (P := P) (B := Set.univ) (G := G)
  · exact htyped
  · exact hG
  · exact fun m hm own hown => ⟨hm, hown⟩
  · exact fun _ _ _ _ => trivial
  · exact hq
  · exact Set.subset_univ _
  · exact hp
  · exact fun _ _ => trivial
  · exact hs

theorem passes_takes_andThen (hp : Takes {m | m ∉ held} own p) (hs : KeepsMode start s)
    (hq : ∀ s, KeepsMode start s → Passes held start own q s) :
    Passes held start own (p.andThen q) s := by
  apply passes_andThen (P := KeepsMode start) (G := Quiet)
  · exact fun s s' h htyped => h.trans start s s' htyped.quiet.keepsMode
  · exact fun s s' h hq => h.trans start s s' hq.keepsMode
  · exact hp
  · exact hs
  · exact hq

theorem passes_notifyEndOfInterrupt (hpics : .pics ∉ held) (hs : KeepsMode start s) :
    Passes held start ∅ notifyEndOfInterrupt s := by
  intro s' htyped
  have hs' := hs.trans start s s' htyped.quiet.keepsMode
  refine ⟨trivial, ?_⟩
  dsimp only
  split_ifs
  · apply Prog.Upholds.section_update
    · exact fun _ _ => trivial
    · exact Finset.notMem_empty _
    · exact ⟨hpics, Finset.notMem_empty _⟩
    · intro t t' ht ht'
      have hcleared : KeepsMode t t' :=
        ⟨ht'.quiet.interruptFlag, ht'.quiet.shellInitialized⟩
      have ht : KeepsMode start t := hs'.trans start s' t ht.quiet.keepsMode
      exact ⟨rfl, ht.trans start t t' hcleared⟩
  · intro t ht
    exact ⟨trivial, rfl, hs'.trans start s' t ht.quiet.keepsMode⟩

theorem passes_handler (hpics : .pics ∉ held) (hp : Takes {m | m ∉ held} ∅ p)
    (hs : KeepsMode start s) : Passes held start ∅ (p.andThen notifyEndOfInterrupt) s :=
  passes_takes_andThen hp hs fun _ hs => passes_notifyEndOfInterrupt hpics hs

theorem passes_timer (hclear : TickClear held s) (hpics : .pics ∉ held)
    (hs : KeepsMode start s) : Passes held start ∅ (interruptHandler .timer) s := by
  have hfree : ∀ {m}, m ∉ held → Free {m | m ∉ held} ∅ m := fun hm => ⟨hm, Finset.notMem_empty _⟩
  rintro _ ⟨extra, rfl⟩
  refine ⟨trivial, ?_⟩
  dsimp only
  unfold TickClear at hclear
  split_ifs at hclear ⊢ with hlimit hlog
  · have hsched : Takes {m | m ∉ held} ∅ schedulerTick := takes_schedulerTick (hfree hclear.1)
    have hprint := takes_println (G := Quiet) (hfree (hclear.2 hlog))
    exact passes_handler hpics (hsched.andThen (hprint _)) ⟨hs.interruptFlag, hs.shellInitialized⟩
  · have hsched : Takes {m | m ∉ held} ∅ schedulerTick := takes_schedulerTick (hfree hclear.1)
    exact passes_handler hpics (hsched.andThen rfl) ⟨hs.interruptFlag, hs.shellInitialized⟩
  · have hpanic := static_panic (G := Quiet) (hfree hclear) ∅ .overflow
    exact passes_handler hpics hpanic ⟨hs.interruptFlag, hs.shellInitialized⟩

/-! ## The keyboard -/

structure SameShell (start s : KernelState) : Prop where
  interruptFlag : s.interruptFlag = start.interruptFlag
  shell : s.shell = start.shell

theorem SameShell.trans (s s' s'' : KernelState) (h : SameShell s s') (h' : SameShell s' s'') :
    SameShell s s'' :=
  ⟨h'.interruptFlag.trans h.interruptFlag, h'.shell.trans h.shell⟩

theorem SameShell.keepsMode (h : SameShell start s) : KeepsMode start s :=
  ⟨h.interruptFlag, by rw [h.shell]⟩

theorem Typed.sameShell {s' : KernelState} (h : Typed s s') : SameShell s s' := by
  obtain ⟨extra, rfl⟩ := h
  exact ⟨rfl, rfl⟩

theorem static_print (hfree : Free {m | m ∉ held} own .serial1) (text : Str) :
    Prog.Static {m | m ∉ held} SameShell own own (print text) :=
  Prog.Static.withLock hfree.mem hfree.notMem (Prog.Static.update fun _ => ⟨rfl, rfl⟩)

/-- `Enter`: the line is read after the newline has been printed. -/
theorem passes_enter (hserial : Free {m | m ∉ held} own .serial1)
    (hfiles : Free {m | m ∉ held} own .writableFiles) (hfb : Free {m | m ∉ held} own .framebuffer)
    (hsched : ∀ command ∈ start.shell.line, queriesTask command = true →
      Free {m | m ∉ held} own .scheduler)
    (hs : SameShell start s) (hq : ∀ s, KeepsMode start s → Passes held start own q s) :
    Passes held start own ((handleKey start.shell .enter).andThen q) s := by
  change Passes held start own (((print ['\n']).andThen
    (executeCurrentLine.andThen (prompt.andThen .done))).andThen q) s
  rw [Prog.andThen_assoc]
  apply passes_andThen (P := SameShell start) (G := SameShell)
  · exact fun s s' h htyped => h.trans start s s' htyped.sameShell
  · exact fun s s' h hsame => h.trans start s s' hsame
  · exact static_print hserial _
  · exact hs
  · intro s hs s' htyped
    have hs' := hs.trans start s s' htyped.sameShell
    refine ⟨trivial, ?_⟩
    have hline : Takes {m | m ∉ held} own (runLine s'.shell.line) := by
      rw [hs'.shell]
      exact takes_runLine hserial hfiles hfb hsched
    have hprompt : Takes {m | m ∉ held} own (prompt.andThen .done) :=
      (takes_print hserial _).andThen rfl
    exact passes_takes_andThen (hline.andThen hprompt) hs'.keepsMode hq

theorem passes_onKey {event : KeyEvent} (hclear : EventClear held start.shell event)
    (hfiles : start.shell.initialized = true → .writableFiles ∉ held)
    (hfb : start.shell.initialized = true → .framebuffer ∉ held) (hs : SameShell start s)
    (hq : ∀ s, KeepsMode start s → Passes held start ∅ q s) :
    Passes held start ∅ ((onKey event).andThen q) s := by
  have hfree : ∀ m, m ∉ held → m ≠ .shell → Free {m | m ∉ held} (insert .shell ∅) m :=
    fun m hm hne => Free.insert ⟨hm, Finset.notMem_empty m⟩ hne
  have hend : ∀ s, KeepsMode start s →
      Passes held start (insert .shell ∅) ((Prog.unlock .shell .done).andThen q) s := by
    intro s hs
    refine ⟨fun _ _ => trivial, ?_⟩
    rw [Finset.erase_insert (Finset.notMem_empty _)]
    exact hq s hs
  refine ⟨fun _ _ => trivial, ⟨hclear.1, Finset.notMem_empty _⟩, fun s' htyped => ⟨trivial, ?_⟩⟩
  have hs' := hs.trans start s s' htyped.sameShell
  dsimp only
  rw [Prog.andThen_assoc, hs'.shell]
  split_ifs with hinit
  · obtain ⟨hserial, hsched⟩ := hclear.2 hinit
    by_cases hevent : event = .enter
    · subst hevent
      apply passes_enter
      · exact hfree _ (hserial rfl) (by decide)
      · exact hfree _ (hfiles hinit) (by decide)
      · exact hfree _ (hfb hinit) (by decide)
      · exact fun command hc hquery => hfree _ (hsched rfl command hc hquery) (by decide)
      · exact hs'
      · exact hend
    · have hedit : Takes {m | m ∉ held} (insert .shell ∅) (handleKey start.shell event) :=
        takes_handleKey_edit hevent fun hwrites => hfree _ (hserial hwrites) (by decide)
      exact passes_takes_andThen hedit hs'.keepsMode hend
  · exact hend s' hs'.keepsMode

theorem passes_decode {scancode : UInt8} {k : Option KeyEvent → Program}
    (hshift : .shiftPressed ∉ held) (hs : SameShell start s)
    (hk : ∀ s', SameShell start s' →
      Passes held start ∅ ((k (decodeScancode scancode s.shiftPressed).2).andThen q) s') :
    Passes held start ∅ ((decode scancode k).andThen q) s := by
  rcases decode_cases scancode k with hlocked | ⟨event, hevent, hplain⟩
  · rw [hlocked]
    refine ⟨fun _ _ => trivial, ⟨hshift, Finset.notMem_empty _⟩, ?_⟩
    rintro _ ⟨extra, rfl⟩
    refine ⟨trivial, fun _ _ => trivial, ?_⟩
    rw [Finset.erase_insert (Finset.notMem_empty _)]
    exact hk _ ⟨hs.interruptFlag, hs.shell⟩
  · have hplain' := hk s hs
    rw [hevent] at hplain'
    rw [hplain]
    exact hplain'

theorem passes_keyboard (hclear : KeyClear held s) (hholds : BootHolds held s)
    (hflag : s.interruptFlag = true) (hne : s.scancodes ≠ []) :
    Passes held s ∅ (interruptHandler .keyboard) s := by
  have hnotify : ∀ s', KeepsMode s s' → Passes held s ∅ notifyEndOfInterrupt s' :=
    fun s' hs' => passes_notifyEndOfInterrupt (hholds.pics hflag) hs'
  rintro _ ⟨extra, rfl⟩
  refine ⟨trivial, ?_⟩
  dsimp only
  split_ifs with hkeyboard
  · -- the scancode that raised the interrupt is still the first one
    rintro _ ⟨extra', rfl⟩
    refine ⟨trivial, ?_⟩
    dsimp only [id_eq]
    rw [List.append_assoc, List.headD_eq_head?_getD, List.head?_append_of_ne_nil _ hne,
      ← List.headD_eq_head?_getD]
    refine passes_decode hholds.shiftPressed ⟨rfl, rfl⟩ fun s' hs' => ?_
    cases hevent : (decodeScancode (s.scancodes.headD 0) s.shiftPressed).2 with
    | none => exact hnotify s' hs'.keepsMode
    | some event =>
        exact passes_onKey (hclear hkeyboard event hevent) hholds.writableFiles hholds.framebuffer
          hs' hnotify
  · exact hnotify _ ⟨rfl, rfl⟩

/-! ## The boot context -/

theorem upholds_part {A : Set Mutex} {G : KernelState → KernelState → Prop}
    {P : KernelState → Prop} {Q : Finset Mutex → KernelState → Prop}
    (hholds : ∀ held s, (∀ m ∈ held, m ∈ A) → P s → BootHolds held s)
    (hmode : ∀ s s', P s → KeepsMode s s' → P s') (hG : ∀ s s', P s → G s s' → P s')
    (hp : Prog.Static A G ∅ ∅ p) (hs : P s) (hQ : ∀ s, P s → Q ∅ s) :
    Prog.Upholds KeepsMode (fun _ _ => True) BootHolds Q ∅ p s := by
  apply Prog.Static.upholds (P := P) (B := A) (G := G)
  · exact hmode
  · exact hG
  · exact fun _ _ _ _ => trivial
  · exact hholds
  · exact hQ
  · exact le_refl A
  · exact hp
  · exact fun m hm => absurd hm (Finset.notMem_empty m)
  · exact hs

def Starting (s : KernelState) : Prop := s.interruptFlag = false ∧ s.shell.initialized = false

theorem Starting.keepsMode {s' : KernelState} (h : Starting s) (hmode : KeepsMode s s') :
    Starting s' := by
  constructor
  · rw [hmode.interruptFlag]
    exact h.1
  · rw [hmode.shellInitialized]
    exact h.2

theorem upholds_start {Q : Finset Mutex → KernelState → Prop} (hs : Starting s)
    (hQ : ∀ s, Starting s → Q ∅ s) :
    Prog.Upholds KeepsMode (fun _ _ => True) BootHolds Q ∅
      (.seq [.update id, .update id, .withLock .pics (.update id), .update id]) s := by
  have hstatic : Prog.Static {.pics} KeepsMode ∅ ∅
      (.seq [.update id, .update id, .withLock .pics (.update id), .update id] : Program) :=
    .seq_cons (.update KeepsMode.refl) (.seq_cons (.update KeepsMode.refl)
      (.seq_cons (.withLock rfl (Finset.notMem_empty _) (.update KeepsMode.refl))
        (.seq_cons (.update KeepsMode.refl) .seq_nil)))
  refine upholds_part (P := Starting) ?_ ?_ ?_ hstatic hs hQ
  · intro held s hheld hs
    have hnot : ∀ m ≠ Mutex.pics, m ∉ held := fun m hne hm => hne (hheld m hm)
    constructor
    · intro hflag
      rw [hs.1] at hflag
      cases hflag
    · exact hnot _ (by decide)
    · exact fun _ => hnot _ (by decide)
    · exact fun _ => hnot _ (by decide)
  · exact fun s s' h hmode => h.keepsMode hmode
  · exact fun s s' h hmode => h.keepsMode hmode

theorem upholds_enable {Q : Finset Mutex → KernelState → Prop} (hs : s.shell.initialized = false)
    (hQ : ∀ s, s.shell.initialized = false → Q ∅ s) :
    Prog.Upholds KeepsMode (fun _ _ => True) BootHolds Q ∅
      (.seq [.update fun s => { s with interruptFlag := true }]) s := by
  have hnone : ∀ s, BootHolds ∅ s := fun _ =>
    ⟨fun _ => Finset.notMem_empty _, Finset.notMem_empty _, fun _ => Finset.notMem_empty _,
      fun _ => Finset.notMem_empty _⟩
  intro s' hmode
  refine ⟨hnone s', fun s'' hmode' => ⟨hnone s'', hQ s'' ?_⟩⟩
  rw [hmode'.shellInitialized]
  exact hmode.shellInitialized.trans hs

theorem upholds_subsystems {Q : Finset Mutex → KernelState → Prop} (parameters : BootParameters)
    (hs : s.shell.initialized = false) (hQ : ∀ s, s.shell.initialized = false → Q ∅ s) :
    Prog.Upholds KeepsMode (fun _ _ => True) BootHolds Q ∅
      (.seq ((.update fun s => { s with picInitialized := true }) :: subsystems parameters)) s := by
  have hfree : ∀ m, m ≠ .pics → m ≠ .shiftPressed →
      Free {m | m ≠ .pics ∧ m ≠ .shiftPressed} ∅ m :=
    fun m hpics hshift => ⟨⟨hpics, hshift⟩, Finset.notMem_empty m⟩
  have hsub : Prog.Static {m | m ≠ .pics ∧ m ≠ .shiftPressed} KeepsMode ∅ ∅
      (.seq (subsystems parameters)) :=
    takes_subsystems (hfree _ (by decide) (by decide)) (hfree _ (by decide) (by decide))
      (hfree _ (by decide) (by decide)) (hfree _ (by decide) (by decide)) parameters
  refine upholds_part (P := fun s => s.shell.initialized = false) ?_ ?_ ?_
    (.seq_cons (.update fun _ => ⟨rfl, rfl⟩) hsub) hs hQ
  · intro held s hheld hs
    constructor
    · exact fun _ hm => (hheld _ hm).1 rfl
    · exact fun hm => (hheld _ hm).2 rfl
    · intro hinit
      rw [hs] at hinit
      cases hinit
    · intro hinit
      rw [hs] at hinit
      cases hinit
  · exact fun s s' hs hmode => hmode.shellInitialized.trans hs
  · exact fun s s' hs hmode => hmode.shellInitialized.trans hs

theorem upholds_report (bootInfo : BootInfo) :
    Prog.Upholds KeepsMode (fun _ _ => True) BootHolds (fun _ _ => True) ∅
      (.seq (shellInitialize :: bootReport bootInfo)) s := by
  have hfree : ∀ m ∈ ({.shell, .serial1, .scheduler} : Set Mutex),
      Free {.shell, .serial1, .scheduler} ∅ m := fun m hm => ⟨hm, Finset.notMem_empty m⟩
  have hserial := hfree .serial1 (by simp)
  have hshell : Prog.Static {.shell, .serial1, .scheduler} (fun _ _ => True) ∅ ∅ shellInitialize :=
    (static_shellInitialize (G := KeepsInService) hserial (hfree .shell (by simp))).weaken
      (le_refl _) fun _ _ _ => trivial
  have hreport : Prog.Static {.shell, .serial1, .scheduler} (fun _ _ => True) ∅ ∅
      (.seq (bootReport bootInfo)) :=
    (takes_bootReport (G := Quiet) hserial (hfree .scheduler (by simp)) bootInfo).weaken
      (le_refl _) fun _ _ _ => trivial
  refine upholds_part (P := fun _ => True) ?_ ?_ ?_ (.seq_cons hshell hreport) trivial ?_
  · intro held s hheld _
    have hnot : ∀ m ∉ ({.shell, .serial1, .scheduler} : Set Mutex), m ∉ held :=
      fun m hne hm => hne (hheld m hm)
    exact ⟨fun _ => hnot _ (by simp), hnot _ (by simp), fun _ => hnot _ (by simp),
      fun _ => hnot _ (by simp)⟩
  · exact fun _ _ _ _ => trivial
  · exact fun _ _ _ _ => trivial
  · exact fun _ _ => trivial

/-- The sequence cut where interrupts are enabled and where the shell comes up. -/
theorem bootInitialize_eq (parameters : BootParameters) :
    bootInitialize parameters =
      (Prog.seq [.update id, .update id, .withLock .pics (.update id), .update id]).andThen
        ((Prog.seq [.update fun s => { s with interruptFlag := true }]).andThen
          ((Prog.seq ((.update fun s => { s with picInitialized := true }) ::
              subsystems parameters)).andThen
            (Prog.seq (shellInitialize :: bootReport parameters.bootInfo)))) := by
  rw [← Prog.seq_append, ← Prog.seq_append, ← Prog.seq_append]
  rfl

theorem inOrder_bootState_holds (parameters : BootParameters) :
    InOrder Typed KeepsMode (fun held m own => m ∉ held ∧ m ∉ own) BootHolds
      (bootState parameters) := by
  change Prog.Upholds KeepsMode (fun _ _ => True) BootHolds (fun _ _ => True) ∅
    (bootInitialize parameters) .initial
  rw [bootInitialize_eq]
  apply Prog.Upholds.andThen KeepsMode.refl
  refine upholds_start ⟨rfl, rfl⟩ fun s hs => ?_
  apply Prog.Upholds.andThen KeepsMode.refl
  refine upholds_enable hs.2 fun s hs => ?_
  apply Prog.Upholds.andThen KeepsMode.refl
  refine upholds_subsystems parameters hs fun s _ => ?_
  exact upholds_report parameters.bootInfo

theorem rely_keepsMode (policy : KernelState → Irq → Bool) :
    Rely (kernelSystem policy) Typed KeepsMode (fun held m own => m ∉ held ∧ m ∉ own) BootHolds
      LocksClear where
  refl := KeepsMode.refl
  trans := KeepsMode.trans
  env_refl := Typed.refl
  env_trans := Typed.trans
  env_sub := fun _ _ htyped => htyped.quiet.keepsMode
  environment := fun scancode _ => ⟨[scancode], rfl⟩
  handler := by
    intro held s irq hholds hdeliver hclear
    have hpending : (s.interruptFlag = true ∧ raised s irq = true) ∧ policy s irq = true := by
      simpa [kernelSystem] using hdeliver
    have hdelivered : BootHolds held ((kernelSystem policy).deliver irq s) :=
      ⟨hholds.pics, hholds.shiftPressed, hholds.framebuffer, hholds.writableFiles⟩
    have hflag : ((kernelSystem policy).deliver irq s).interruptFlag = true := hpending.1.1
    have hpasses : Passes held ((kernelSystem policy).deliver irq s) ∅ (interruptHandler irq)
        ((kernelSystem policy).deliver irq s) := by
      cases irq with
      | timer => exact passes_timer hclear (hdelivered.pics hflag) (KeepsMode.refl _)
      | keyboard =>
          have hne : s.scancodes ≠ [] := by simpa [raised] using hpending.1.2
          exact passes_keyboard hclear hdelivered hflag hne
    exact hpasses.mono fun own s' h => ⟨h.1, h.2.interruptFlag, h.2.shellInitialized⟩

/-- In a run whose interrupts all find the mutexes on their handler's path
free, no handler ever spins on a mutex of the context it interrupted. -/
theorem no_self_deadlock (policy : KernelState → Irq → Bool) (parameters : BootParameters)
    (labels : List (Label Irq UInt8))
    (hclear : Runs.Along (step (kernelSystem policy))
      (AllowedLabel (kernelSystem policy) LocksClear) (bootState parameters) labels) :
    ¬ Deadlocked (Runs.exec (step (kernelSystem policy)) (bootState parameters) labels) := by
  rintro ⟨c, m, hhandler, hrequest, hheld⟩
  have hinOrder := (rely_keepsMode policy).invariant (inOrder_bootState_holds parameters) hclear
  exact (hinOrder.granted hhandler hrequest).1 hheld

def tickBeforeTasks : List (Label Irq UInt8) :=
  List.replicate 8 .run ++ [.interrupt .timer] ++ [.run]

theorem no_self_deadlock_tickBeforeTasks :
    ((Runs.exec (step (kernelSystem unblocked)) (bootState quietBoot) tickBeforeTasks).handler.bind
        Context.request) = some .scheduler ∧
      ¬ Deadlocked
        (Runs.exec (step (kernelSystem unblocked)) (bootState quietBoot) tickBeforeTasks) :=
  ⟨by decide, no_self_deadlock unblocked quietBoot tickBeforeTasks (by decide)⟩

/-- A tick inside `task::initialize`, which holds `SCHEDULER`. -/
def tickInsideTasks : List (Label Irq UInt8) :=
  List.replicate 14 .run ++ [.interrupt .timer] ++ [.run]

theorem tickInsideTasks_deadlocked :
    Deadlocked
      (Runs.exec (step (kernelSystem unblocked)) (bootState quietBoot) tickInsideTasks) := by
  have hrequest : (Runs.exec (step (kernelSystem unblocked)) (bootState quietBoot)
      tickInsideTasks).handler.bind Context.request = some .scheduler := by decide
  have hheld : .scheduler ∈ (Runs.exec (step (kernelSystem unblocked)) (bootState quietBoot)
      tickInsideTasks).main.held := by decide
  obtain ⟨c, hhandler, hc⟩ := Option.bind_eq_some_iff.mp hrequest
  exact ⟨c, .scheduler, hhandler, hc, hheld⟩

/-! ## Deliveries that are not safe -/

theorem runsInto_print (hown : .serial1 ∉ own) {text : Str}
    (hq : ∀ s', s'.shell = s.shell → Prog.RunsInto held own q s') :
    Prog.RunsInto held own ((print text).andThen q) s :=
  Prog.RunsInto.after_section hown (hq _ rfl)

theorem runsInto_taskSummary (hown : .serial1 ∉ own) (hsched : .scheduler ∈ held) :
    Prog.RunsInto held own ((Prog.seq taskSummary).andThen q) s := by
  unfold taskSummary
  rw [Prog.seq, Prog.andThen_assoc]
  apply runsInto_print hown
  intro s' _
  change Prog.RunsInto held own (((println _).andThen _).andThen q) s'
  rw [Prog.andThen_assoc]
  apply runsInto_print hown
  intro s'' _
  exact Or.inl hsched

theorem runsInto_infoCommand (hown : .serial1 ∉ own) (hsched : .scheduler ∈ held) :
    Prog.RunsInto held own ((Prog.seq infoCommand).andThen q) s := by
  unfold infoCommand
  rw [Prog.seq_append, Prog.andThen_assoc, Prog.seq, Prog.andThen_assoc]
  apply runsInto_print hown
  intro s' _
  change Prog.RunsInto held own (((println _).andThen _).andThen _) s'
  rw [Prog.andThen_assoc]
  apply runsInto_print hown
  intro s'' _
  exact runsInto_taskSummary hown hsched

theorem runsInto_executeCommand {command : Str} (hquery : queriesTask command = true)
    (hown : .serial1 ∉ own) (hsched : .scheduler ∈ held) :
    Prog.RunsInto held own ((executeCommand command).andThen q) s := by
  unfold queriesTask at hquery
  unfold executeCommand
  cases hwords : splitWhitespace command with
  | nil =>
      rw [hwords] at hquery
      cases hquery
  | cons word args =>
      simp only [hwords, Bool.or_eq_true, decide_eq_true_eq] at hquery ⊢
      rcases hquery with hhead | hhead
      · rw [hhead]
        exact runsInto_infoCommand hown hsched
      · rw [hhead]
        exact runsInto_taskSummary hown hsched

/-- The key event runs into a mutex of `held` once the shell's own is taken. -/
theorem runsInto_handleKey {event : KeyEvent} (hown : .serial1 ∉ own)
    (h : (writesOutput s.shell event = true ∧ .serial1 ∈ held) ∨
      (event = .enter ∧ ∃ command ∈ s.shell.line, queriesTask command = true ∧ .scheduler ∈ held)) :
    Prog.RunsInto held own ((handleKey s.shell event).andThen q) s := by
  rcases h with ⟨hwrites, hserial⟩ | ⟨rfl, command, hline, hquery, hsched⟩
  · cases event with
    | enter => exact Or.inl hserial
    | backspace =>
        have hlen : 0 < s.shell.len := by simpa [writesOutput] using hwrites
        rw [handleKey, if_pos hlen]
        exact Or.inl hserial
    | char character =>
        rw [handleKey]
        split_ifs <;> exact Or.inl hserial
  · change Prog.RunsInto held own (((print _).andThen _).andThen q) s
    rw [Prog.andThen_assoc]
    apply runsInto_print hown
    intro s' hshell
    change Prog.RunsInto held own (((runLine s'.shell.line).andThen _).andThen q) s'
    rw [hshell, Option.mem_def.mp hline, Prog.andThen_assoc]
    cases command with
    | nil => cases hquery
    | cons c command =>
        change Prog.RunsInto held own (((executeCommand (c :: command)).andThen _).andThen _) s'
        rw [Prog.andThen_assoc]
        exact runsInto_executeCommand hquery hown hsched

theorem runsInto_onKey {event : KeyEvent} (hclear : ¬ EventClear held s.shell event) :
    Prog.RunsInto held ∅ ((onKey event).andThen q) s := by
  by_cases hshell : .shell ∈ held
  · exact Or.inl hshell
  · right
    refine ⟨Finset.notMem_empty _, ?_⟩
    change Prog.RunsInto held (insert .shell ∅) (((if s.shell.initialized = true
      then handleKey s.shell event else .done).andThen _).andThen q) s
    simp only [EventClear, hshell, not_false_eq_true, true_and, Classical.not_imp, not_and_or,
      not_forall, not_not] at hclear
    obtain ⟨hinit, hcollides⟩ := hclear
    rw [if_pos hinit, Prog.andThen_assoc]
    apply runsInto_handleKey (by decide)
    rcases hcollides with ⟨hwrites, hserial⟩ | ⟨hevent, command, hline, hquery, hsched⟩
    · exact Or.inl ⟨hwrites, hserial⟩
    · exact Or.inr ⟨hevent, command, hline, hquery, hsched⟩

theorem runsInto_decode {scancode : UInt8} {k : Option KeyEvent → Program}
    (hk : ∀ s', s'.shell = s.shell →
      Prog.RunsInto held ∅ ((k (decodeScancode scancode s.shiftPressed).2).andThen q) s') :
    Prog.RunsInto held ∅ ((decode scancode k).andThen q) s := by
  rcases decode_cases scancode k with hlocked | ⟨event, hevent, hplain⟩
  · rw [hlocked]
    right
    refine ⟨Finset.notMem_empty _, ?_⟩
    change Prog.RunsInto held ((insert .shiftPressed ∅ : Finset Mutex).erase .shiftPressed) _ _
    rw [Finset.erase_insert (Finset.notMem_empty _)]
    exact hk _ rfl
  · have hplain' := hk s rfl
    rw [hevent] at hplain'
    rw [hplain]
    exact hplain'

theorem runsInto_keyboard (hclear : ¬ KeyClear held s) :
    Prog.RunsInto held ∅ (interruptHandler .keyboard) s := by
  simp only [KeyClear, Classical.not_imp, not_forall] at hclear
  obtain ⟨hkeyboard, event, hevent, hcollides⟩ := hclear
  change Prog.RunsInto held ∅ (Prog.andThen (if s.keyboardInitialized = true then _ else _) _) s
  rw [if_pos hkeyboard]
  apply runsInto_decode
  intro s' hshell
  have hdecoded := Option.mem_def.mp hevent
  dsimp only
  rw [hdecoded]
  apply runsInto_onKey
  rw [hshell]
  exact hcollides

theorem runsInto_timer (hclear : ¬ TickClear held s) :
    Prog.RunsInto held ∅ (interruptHandler .timer) s := by
  change Prog.RunsInto held ∅ (Prog.andThen (if s.ticks + 1 < wordLimit then _ else _) _) _
  unfold TickClear at hclear
  by_cases hlimit : s.ticks + 1 < wordLimit
  · rw [if_pos hlimit] at hclear ⊢
    by_cases hsched : .scheduler ∈ held
    · exact Or.inl hsched
    · simp only [hsched, not_false_eq_true, true_and, Classical.not_imp, not_not] at hclear
      right
      refine ⟨Finset.notMem_empty _, ?_⟩
      rw [if_pos hclear.1]
      exact Or.inl hclear.2
  · rw [if_neg hlimit] at hclear ⊢
    exact Or.inl (not_not.mp hclear)

/-- The condition is exact: after a delivery that does not meet it, the handler
left to itself deadlocks. -/
theorem deadlock_of_not_locksClear (policy : KernelState → Irq → Bool)
    (st : State KernelState Mutex) {irq : Irq} (hidle : st.handler = none)
    (hdeliver : (kernelSystem policy).deliverable st.shared irq = true)
    (hclear : ¬ LocksClear st.main.held st.shared irq) :
    ∃ n, Deadlocked (Runs.exec (step (kernelSystem policy)) st
      (.interrupt irq :: List.replicate n .run)) := by
  obtain ⟨shared, main, handler⟩ := st
  subst hidle
  have hruns : Prog.RunsInto main.held ∅ (interruptHandler irq)
      ((kernelSystem policy).deliver irq shared) := by
    cases irq with
    | timer => exact runsInto_timer hclear
    | keyboard => exact runsInto_keyboard hclear
  obtain ⟨n, hn⟩ := deadlocked_of_runsInto (kernelSystem policy) main hruns
  refine ⟨n, ?_⟩
  have hstep : step (kernelSystem policy) ⟨shared, main, none⟩ (.interrupt irq) =
      ⟨(kernelSystem policy).deliver irq shared, main, some ⟨interruptHandler irq, ∅⟩⟩ := by
    simp only [step]
    exact if_pos hdeliver
  rw [Runs.exec_cons, hstep]
  exact hn

end AetherOs.Kernel
