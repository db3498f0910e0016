import AetherOs.Kernel.BootStages
import AetherOs.Kernel.ConsoleRuns
import AetherOs.Kernel.EndOfInterrupt
import AetherOs.Kernel.KeyboardController
import AetherOs.Kernel.LockInvariants
import AetherOs.Kernel.Totality
import AetherOs.Support.Completion
/-!
# Every key can be answered

No run of an idle kernel gets to a point from which a key could not be answered
any more: the handler that is running can return, and then the scancodes that
wait can be read one by one, until the console has been told all that was typed.
Only the tick counter must not have come to its end.  The keyboard controller
does not stand in the way, once the boot has missed none of its edges.
-/

namespace AetherOs.Kernel

open AetherOs.Support AetherOs.Support.Text AetherOs.Support.Word AetherOs.Support.Interrupts
open AetherOs.Boot AetherOs.Fs AetherOs.Drivers AetherOs.Drivers.Keyboard

/-- Interrupts reach the kernel, and their handlers return. -/
structure Responsive (s : KernelState) : Prop where
  operable : Operable s
  interruptFlag : s.interruptFlag = true
  picInitialized : s.picInitialized = true
  keyboardInitialized : s.keyboardInitialized = true
  inService : s.inService = ∅

variable {s s' : KernelState} {c : Console} {policy : KernelState → Irq → Bool}
  {events : List (Event Irq UInt8)}

/-! ## One interrupt -/

theorem responsive_acknowledged {irq : Irq} (h : Responsive { s with inService := ∅ })
    (hin : s.inService = {irq}) :
    Responsive (acknowledged s) ∧ (acknowledged s).ticks = s.ticks := by
  have hclear : acknowledged s = { s with inService := ∅ } := by
    have hpic : s.picInitialized = true := h.picInitialized
    rw [acknowledged, if_pos hpic, hin, endOfInterrupt_singleton]
  rw [hclear]
  exact ⟨h, rfl⟩

/-- What a key event leaves alone, so that the next interrupt gets through. -/
structure KeepsControl (s s' : KernelState) : Prop where
  interruptFlag : s'.interruptFlag = s.interruptFlag
  picInitialized : s'.picInitialized = s.picInitialized
  keyboardInitialized : s'.keyboardInitialized = s.keyboardInitialized
  inService : s'.inService = s.inService
  ticks : s'.ticks = s.ticks

theorem KeepsControl.refl (s : KernelState) : KeepsControl s s := ⟨rfl, rfl, rfl, rfl, rfl⟩

theorem KeepsControl.trans (s s' s'' : KernelState) (h : KeepsControl s s')
    (h' : KeepsControl s' s'') : KeepsControl s s'' where
  interruptFlag := h'.interruptFlag.trans h.interruptFlag
  picInitialized := h'.picInitialized.trans h.picInitialized
  keyboardInitialized := h'.keyboardInitialized.trans h.keyboardInitialized
  inService := h'.inService.trans h.inService
  ticks := h'.ticks.trans h.ticks

instance admitsEdits_keepsControl : AdmitsEdits KeepsControl := by
  refine ⟨fun h => ?_⟩
  rw [h.others]
  exact ⟨rfl, rfl, rfl, rfl, rfl⟩

theorem returns_feedScancode (code : UInt8) : Returns (feedScancode code) := by
  intro s hs
  rw [feedScancode, run_decode]
  have hshifted : Operable { s with shiftPressed := (decodeScancode code s.shiftPressed).1 } :=
    ⟨hs.files, hs.screen⟩
  cases (decodeScancode code s.shiftPressed).2 with
  | none => exact ⟨_, rfl, hshifted⟩
  | some event => exact returns_onKey event _ hshifted

theorem Responsive.feed (h : Responsive s) :
    ∃ s', (feedScancode (s.scancodes.headD 0)).run
        { s with scancodes := s.scancodes.tail, inService := insert .keyboard s.inService } =
          some s' ∧
      Responsive (acknowledged s') ∧ (acknowledged s').ticks = s.ticks := by
  let s₀ : KernelState :=
    { s with scancodes := s.scancodes.tail, inService := insert .keyboard s.inService }
  have hs₀ : Operable s₀ := ⟨h.operable.files, h.operable.screen⟩
  obtain ⟨s', hrun, hs'⟩ := returns_feedScancode (s.scancodes.headD 0) s₀ hs₀
  have hstatic : Keeps Set.univ KeepsControl ∅ (feedScancode (s.scancodes.headD 0)) :=
    takes_decode_onKey (fun _ => trivial) _
  have hkeeps : KeepsControl s₀ s' := hstatic.run_keeps KeepsControl.refl KeepsControl.trans hrun
  have hin : s'.inService = {.keyboard} := by
    rw [hkeeps.inService]
    change insert Irq.keyboard s.inService = {.keyboard}
    rw [h.inService]
    rfl
  have hclear : Responsive { s' with inService := ∅ } :=
    ⟨⟨hs'.files, hs'.screen⟩, hkeeps.interruptFlag.trans h.interruptFlag,
      hkeeps.picInitialized.trans h.picInitialized,
      hkeeps.keyboardInitialized.trans h.keyboardInitialized, rfl⟩
  obtain ⟨hlast, hticks⟩ := responsive_acknowledged hclear hin
  exact ⟨s', hrun, hlast, hticks.trans hkeeps.ticks⟩

theorem Responsive.serve (policy : KernelState → Irq → Bool) (h : Responsive s) (irq : Irq)
    (hticks : irq = .timer → s.ticks + 1 < wordLimit) :
    ∃ s', (interruptHandler irq).run ((kernelSystem policy).deliver irq s) = some s' ∧
      Responsive s' ∧
      s'.ticks = s.ticks + [(.served irq : Event Irq UInt8)].count (.served .timer) := by
  let s₀ : KernelState := (kernelSystem policy).deliver irq s
  have hin : s₀.inService = {irq} := by
    change insert irq s.inService = {irq}
    rw [h.inService]
    rfl
  cases irq with
  | timer =>
      have hlimit : s₀.ticks + 1 < wordLimit := hticks rfl
      have hrun : (interruptHandler .timer).run s₀ = some (acknowledged (ticked s₀)) := by
        rw [interruptHandler, Prog.run_andThen, run_onTick, if_pos hlimit, Option.bind_some,
          run_notifyEndOfInterrupt]
      have hclear : Responsive { ticked s₀ with inService := ∅ } :=
        ⟨⟨h.operable.files, h.operable.screen⟩, h.interruptFlag, h.picInitialized,
          h.keyboardInitialized, rfl⟩
      obtain ⟨hlast, hticked⟩ := responsive_acknowledged (s := ticked s₀) hclear hin
      exact ⟨_, hrun, hlast, hticked⟩
  | keyboard =>
      obtain ⟨s', hfeed, hlast, hkept⟩ := h.feed
      have hrun : (interruptHandler .keyboard).run s₀ = some (acknowledged s') := by
        rw [run_keyboardHandler (s := s₀) h.keyboardInitialized]
        exact congrArg (Option.map acknowledged) hfeed
      exact ⟨_, hrun, hlast, hkept⟩

theorem Responsive.arrive (h : Responsive s) (code : UInt8) : Responsive (arrive code s) :=
  ⟨⟨h.operable.files, h.operable.screen⟩, h.interruptFlag, h.picInitialized,
    h.keyboardInitialized, h.inService⟩

/-! ## Every run -/

theorem Responsive.replay (h : Responsive s)
    (hticks : s.ticks + events.count (.served .timer) < wordLimit)
    (hrun : replay (kernelSystem policy) s events = some s') :
    Responsive s' ∧ s'.ticks = s.ticks + events.count (.served .timer) := by
  induction events generalizing s with
  | nil =>
      rw [show s = s' from Option.some.inj hrun] at h ⊢
      exact ⟨h, rfl⟩
  | cons event events ih =>
      rw [replay_cons, Option.bind_eq_some_iff] at hrun
      obtain ⟨s₁, hatomic, hrest⟩ := hrun
      have hcount : (event :: events).count (.served .timer) =
          [event].count (.served .timer) + events.count (.served .timer) := by
        rw [← List.count_append]
        rfl
      rw [hcount] at hticks ⊢
      have hfirst : Responsive s₁ ∧ s₁.ticks = s.ticks + [event].count (.served .timer) := by
        match event with
        | .move code =>
            rw [← show Kernel.arrive code s = s₁ from Option.some.inj hatomic]
            exact ⟨h.arrive code, rfl⟩
        | .served irq =>
            obtain ⟨-, hserved⟩ := atomic_served hatomic
            have hlimit : irq = .timer → s.ticks + 1 < wordLimit := by
              rintro rfl
              simp only [List.count_singleton_self] at hticks
              omega
            obtain ⟨s₂, hrun, hs₂, hticked⟩ := h.serve policy irq hlimit
            have hsame : s₂ = s₁ := Option.some.inj (hrun.symm.trans hserved)
            rw [← hsame]
            exact ⟨hs₂, hticked⟩
      obtain ⟨hs₁, hticked⟩ := hfirst
      obtain ⟨hs', hticked'⟩ := ih hs₁ (by omega) hrest
      exact ⟨hs', by omega⟩

theorem Responsive.ends (h : Responsive s)
    (hticks : s.ticks + events.count (.served .timer) < wordLimit) :
    Ends (kernelSystem policy) s events := by
  rintro before irq after s' rfl hbefore
  rw [List.count_append] at hticks
  obtain ⟨hs', hticked⟩ := h.replay (by omega) hbefore
  have hlimit : irq = .timer → s'.ticks + 1 < wordLimit := by
    rintro rfl
    rw [List.count_cons_self] at hticks
    omega
  obtain ⟨last, hlast, -⟩ := hs'.serve policy irq hlimit
  change (interruptHandler irq).run _ ≠ none
  rw [hlast]
  exact Option.some_ne_none _

/-- The scancodes that wait are read one by one. -/
theorem Responsive.drain
    (hpolicy : ∀ s : KernelState, s.inService = ∅ → policy s .keyboard = true)
    (h : Responsive s) (hs : Realises s c) {queue : List UInt8} (hqueue : s.scancodes = queue) :
    ∃ labels s', (∀ label ∈ labels, label = .run ∨ label = .interrupt .keyboard) ∧
      Runs.exec (step (kernelSystem policy)) ⟨s, ⟨.done, ∅⟩, none⟩ labels =
        ⟨s', ⟨.done, ∅⟩, none⟩ ∧ s'.scancodes = [] ∧ Used c [] queue s s' := by
  induction queue generalizing s c with
  | nil => exact ⟨[], s, fun _ hl => absurd hl List.not_mem_nil, rfl, hqueue, hs.used_refl⟩
  | cons code queue ih =>
      have hdeliver : (kernelSystem policy).deliverable s .keyboard = true := by
        simp [kernelSystem, raised, h.interruptFlag, hqueue, hpolicy s h.inService]
      obtain ⟨s₁, hfeed, hs₁, -⟩ := h.feed
      have hfree : (⟨.done, ∅⟩ : Context KernelState Mutex).held = ∅ := rfl
      obtain ⟨n, hn⟩ := keyboardInterrupt_feeds policy hfree h.keyboardInitialized hdeliver hfeed
      have hatomic : atomic (kernelSystem policy) s (.served .keyboard) =
          some (acknowledged s₁) := by
        rw [atomic, if_pos hdeliver]
        exact (run_keyboardHandler (s := (kernelSystem policy).deliver .keyboard s)
          h.keyboardInitialized).trans (congrArg (Option.map acknowledged) hfeed)
      obtain ⟨code', hused⟩ := used_keyboard hs hatomic
      have hread := hused.queue
      rw [hqueue, List.append_nil, List.singleton_append, List.cons.injEq] at hread
      obtain ⟨rfl, hleft⟩ := hread
      obtain ⟨labels, s', hlabels, hexec, hempty, hused'⟩ := ih hs₁ hused.state hleft.symm
      refine ⟨.interrupt .keyboard :: List.replicate n .run ++ labels, s', ?_, ?_, hempty,
        hused.trans hused'⟩
      · intro label hlabel
        rcases List.mem_append.mp hlabel with hfirst | hlater
        · rcases List.mem_cons.mp hfirst with rfl | hrun
          · exact Or.inr rfl
          · exact Or.inl (List.eq_of_mem_replicate hrun)
        · exact hlabels label hlater
      · rw [Runs.exec_append, hn]
        exact hexec

/-- Wherever a run of an idle kernel stands, it can go on with steps of handlers
and keyboard interrupts alone until all that was typed has been read. -/
theorem Responsive.answers
    (hpolicy : ∀ s : KernelState, s.inService = ∅ → policy s .keyboard = true)
    {st : State KernelState Mutex} (hready : Responsive st.shared) (hstart : Realises st.shared c)
    (hst : Balanced st) (hidle : st.main.prog = .done) (hrest : st.handler = none)
    (labels : List (Label Irq UInt8))
    (hticks : st.shared.ticks +
      (history (kernelSystem policy) st labels).count (.served .timer) < wordLimit) :
    ∃ more s', (∀ label ∈ more, label = .run ∨ label = .interrupt .keyboard) ∧
      Runs.exec (step (kernelSystem policy)) st (labels ++ more) = ⟨s', ⟨.done, ∅⟩, none⟩ ∧
      s'.scancodes = [] ∧
      Used c (moves labels) (st.shared.scancodes ++ moves labels) st.shared s' := by
  obtain ⟨n, s₁, hexec, hreplay⟩ := completes (blind_interruptHandler policy)
    static_interruptHandler hst hidle hrest labels (hready.ends hticks)
  obtain ⟨taken, -, hused⟩ := hstart.replay hreplay
  rw [moves_history] at hused
  obtain ⟨hready₁, -⟩ := hready.replay hticks hreplay
  obtain ⟨more, s', hmore, hexec', hempty, hused'⟩ := hready₁.drain hpolicy hused.state rfl
  refine ⟨List.replicate n .run ++ more, s', ?_, ?_, hempty, ?_⟩
  · intro label hlabel
    rcases List.mem_append.mp hlabel with hfirst | hlater
    · exact Or.inl (List.eq_of_mem_replicate hfirst)
    · exact hmore label hlater
  · rw [← List.append_assoc, Runs.exec_append, hexec, hexec']
  · have hall := hused.trans hused'
    rw [List.append_nil, ← hused.queue] at hall
    exact hall

/-! ## After the boot -/

section Boot

variable {parameters : BootParameters} {boot : List (Label Irq UInt8)}

theorem balanced_boot (policy : KernelState → Irq → Bool) (parameters : BootParameters)
    (boot : List (Label Irq UInt8)) :
    Balanced (Runs.exec (step (kernelSystem policy)) (bootState parameters) boot) := by
  have hmain : Keeps Set.univ KeepsInService ∅ (bootInitialize parameters) :=
    static_bootInitialize parameters
  have hstart : Balanced (bootState parameters) :=
    ⟨hmain.weaken (le_refl _) fun _ _ _ => trivial, fun _ hc => by cases hc⟩
  exact hstart.exec static_interruptHandler boot

/-- A booted kernel at rest is a console. -/
theorem exists_realises_boot (policy : KernelState → Irq → Bool) {st : State KernelState Mutex}
    (hst : Runs.exec (step (kernelSystem policy)) (bootState parameters) boot = st)
    (hidle : st.main = ⟨.done, ∅⟩) (hrest : st.handler = none)
    (hbooted : Booted parameters st.shared) : ∃ c, Realises st.shared c := by
  have horderly := orderly_run parameters policy boot
  rw [hst] at horderly
  have hfree : ∀ m, Discipline.Free st m := by
    intro m
    rw [Discipline.Free, hidle, hrest]
    exact ⟨Finset.notMem_empty m, fun _ hc => by cases hc⟩
  obtain ⟨typed, hline, hprintable⟩ := horderly.free .shell (hfree _)
  obtain ⟨M, hfiles, -⟩ := horderly.free .writableFiles (hfree _)
  obtain ⟨setup, -, hconfig⟩ := hbooted.config
  have hkeyboard : st.shared.keyboardInitialized = true :=
    congrArg Config.keyboardInitialized hconfig
  exact ⟨⟨st.shared.shiftPressed, typed, M⟩, hkeyboard, hbooted.shell, rfl, hline, hprintable,
    hfiles⟩

/-- Interrupts reach it, if none came before it could be acknowledged. -/
theorem responsive_boot (policy : KernelState → Irq → Bool) {st : State KernelState Mutex}
    (hst : Runs.exec (step (kernelSystem policy)) (bootState parameters) boot = st)
    (hscreen : ∀ info ∈ parameters.bootInfo.framebuffer, info.bpp = 32 → Vga.Paintable info)
    (hlate : Runs.Along (step (kernelSystem policy))
      (AllowedLabel (kernelSystem policy) AfterInitialized) (bootState parameters) boot)
    (hrest : st.handler = none) (hbooted : Booted parameters st.shared)
    (hreal : Realises st.shared c) : Responsive st.shared := by
  have hclear := (rely_keepsClear policy).invariant (inOrder_bootState parameters) hlate
  rw [hst] at hclear
  obtain ⟨setup, -, hconfig⟩ := hbooted.config
  have hframebuffer : st.shared.framebuffer = parameters.bootInfo.framebuffer :=
    congrArg Config.framebuffer hconfig
  refine ⟨⟨⟨c.files, hreal.files⟩, ?_⟩, congrArg Config.interruptFlag hconfig,
    congrArg Config.picInitialized hconfig, hreal.keyboard,
    hclear.main_inv (rely_keepsClear policy).refl hrest⟩
  rw [hframebuffer]
  exact hscreen

end Boot

/-! ## The kernel with its keyboard controller -/

section Controller

variable {parameters : BootParameters} {st : State Machine Mutex}

/-- A delivery is acknowledged, and an edge of IRQ1 is followed by a read. -/
def Heeded (H : Finset Mutex) (c : Machine) (irq : Irq) : Prop :=
  AfterInitialized H c.host irq ∧ AfterKeyboard H c irq

instance decidableHeeded (H : Finset Mutex) (c : Machine) (irq : Irq) :
    Decidable (Heeded H c irq) :=
  inferInstanceAs (Decidable (_ ∧ _))

structure Upright (parameters : BootParameters) (st : State Machine Mutex) : Prop where
  tracks : Tracks KeepsLine InStep st
  idle : st.main.prog = .done
  reached : ∃ labels, Shadows refill st
    (Runs.exec (step (kernelSystem unblocked)) (bootState parameters) labels)

theorem main_done_of_shadows {st' : State KernelState Mutex} (h : Shadows refill st st')
    (hidle : st.main.prog = .done) : st'.main.prog = .done := by
  rw [h.main] at hidle
  cases hprog : st'.main.prog with
  | done => rfl
  | _ =>
      rw [Context.watched, hprog] at hidle
      cases hidle

/-- After the boot the driver is up, so that no edge is missed any more. -/
theorem Upright.afterKeyboard (h : Upright parameters st) (label : Label Irq UInt8) :
    AllowedLabel (controllerSystem unblocked) AfterKeyboard st label := by
  cases label with
  | run => trivial
  | environment code => trivial
  | interrupt irq =>
      rintro hrest - -
      obtain ⟨labels, hshadows⟩ := h.reached
      have hbooted := booted_of_done parameters unblocked rfl
        (main_done_of_shadows hshadows h.idle) (hshadows.handler_eq_none.mp hrest)
      obtain ⟨setup, -, hconfig⟩ := hbooted.config
      rw [← hshadows.shared]
      exact congrArg Config.keyboardInitialized hconfig

theorem Upright.step (h : Upright parameters st) (label : Label Irq UInt8) :
    Upright parameters (step (controllerSystem unblocked) st label) := by
  obtain ⟨labels, hshadows⟩ := h.reached
  refine ⟨(inStep_invariant unblocked).step KeepsLine.refl h.tracks label (h.afterKeyboard label),
    step_main_prog h.idle label, labels ++ [label], ?_⟩
  rw [Runs.exec_append]
  exact (extends_kernelSystem unblocked).step_agreed hshadows (agreed_of_inStep h.tracks label)

theorem Upright.agreed (h : Upright parameters st) (labels : List (Label Irq UInt8)) :
    Runs.Along (Interrupts.step (controllerSystem unblocked))
      (AgreedLabel (controllerSystem unblocked) (kernelSystem unblocked)) st labels :=
  Runs.along_of_invariant (P := Upright parameters) (fun _ label hst => hst.step label)
    (fun _ label hst => agreed_of_inStep hst.tracks label) h labels

/-- A booted machine at rest, beside the kernel alone after the same steps. -/
structure Settled (parameters : BootParameters) (st : State Machine Mutex)
    (st' : State KernelState Mutex) (c : Console) : Prop where
  upright : Upright parameters st
  shadows : Shadows refill st st'
  idle : st'.main.prog = .done
  rest : st'.handler = none
  balanced : Balanced st'
  realises : Realises st'.shared c
  responsive : Responsive st'.shared

theorem exists_settled {boot : List (Label Irq UInt8)}
    (hscreen : ∀ info ∈ parameters.bootInfo.framebuffer, info.bpp = 32 → Vga.Paintable info)
    (hboot : Runs.Along (step (controllerSystem unblocked))
      (AllowedLabel (controllerSystem unblocked) Heeded) (controllerState parameters) boot)
    (hst : Runs.exec (step (controllerSystem unblocked)) (controllerState parameters) boot = st)
    (hidle : st.main.prog = .done) (hrest : st.handler = none) :
    ∃ st' c, Settled parameters st st' c := by
  have hext := extends_kernelSystem unblocked
  have hafter : Runs.Along (step (controllerSystem unblocked))
      (AllowedLabel (controllerSystem unblocked) AfterKeyboard) (controllerState parameters) boot :=
    hboot.mono fun st label => AllowedLabel.mono fun _ _ _ h => h.2
  have hlate : Runs.Along (step (controllerSystem unblocked))
      (AllowedLabel (controllerSystem unblocked) fun H c irq => AfterInitialized H c.host irq)
      (controllerState parameters) boot :=
    hboot.mono fun st label => AllowedLabel.mono fun _ _ _ h => h.1
  have hagreed := agreed_boot unblocked parameters hafter
  have hin : Tracks KeepsLine InStep st := by
    rcases inStep_or_missed unblocked parameters boot with ⟨-, hin⟩ | ⟨hearly, -⟩
    · rw [← hst]
      exact hin
    · exact absurd hafter hearly
  have hshadows := hext.exec_agreed (shadows_bootState parameters) hagreed
  have hlate' := hext.along_agreed (shadows_bootState parameters) hagreed hlate
  have hbalanced := balanced_boot unblocked parameters boot
  generalize hst' : Runs.exec (step (kernelSystem unblocked)) (bootState parameters) boot = st'
    at hshadows hbalanced
  rw [hst] at hshadows
  have hidle' := main_done_of_shadows hshadows hidle
  have hrest' := hshadows.handler_eq_none.mp hrest
  have hbooted := booted_of_done parameters unblocked hst' hidle' hrest'
  obtain ⟨c, hreal⟩ :=
    exists_realises_boot unblocked hst' (hbalanced.held_eq hidle') hrest' hbooted
  exact ⟨st', c, ⟨hin, hidle, boot, hst' ▸ hshadows⟩, hshadows, hidle', hrest', hbalanced, hreal,
    responsive_boot unblocked hst' hscreen hlate' hrest' hbooted hreal⟩

end Controller

/-- After a boot that has come to its end, with every interrupt heeded: whatever keys
and interrupts come from then on, and wherever the run stands, it can go on with
steps of handlers and keyboard interrupts alone until every key typed so far has
been read, and the console has given its answers. -/
theorem every_key_can_be_answered (parameters : BootParameters)
    (hscreen : ∀ info ∈ parameters.bootInfo.framebuffer, info.bpp = 32 → Vga.Paintable info)
    (boot : List (Label Irq UInt8))
    (hboot : Runs.Along (step (controllerSystem unblocked))
      (AllowedLabel (controllerSystem unblocked) Heeded) (controllerState parameters) boot)
    {st : State Machine Mutex}
    (hst : Runs.exec (step (controllerSystem unblocked)) (controllerState parameters) boot = st)
    (hidle : st.main.prog = .done) (hrest : st.handler = none) :
    ∃ c, Realises st.shared.host c ∧ ∀ labels : List (Label Irq UInt8),
      st.shared.host.ticks +
        (history (controllerSystem unblocked) st labels).count (.served .timer) < wordLimit →
      ∃ more last, (∀ label ∈ more, label = .run ∨ label = .interrupt .keyboard) ∧
        Runs.exec (step (controllerSystem unblocked)) st (labels ++ more) =
          ⟨last, ⟨.done, ∅⟩, none⟩ ∧
        last.host.scancodes = [] ∧
        Used c (moves labels) (st.shared.host.scancodes ++ moves labels) st.shared.host
          last.host := by
  have hext := extends_kernelSystem unblocked
  obtain ⟨st', c, h⟩ := exists_settled hscreen hboot hst hidle hrest
  have hpolicy : ∀ s : KernelState, s.inService = ∅ → unblocked s .keyboard = true := by
    intro s hs
    simp [unblocked, hs]
  rw [← h.shadows.shared]
  refine ⟨c, h.realises, fun labels hticks => ?_⟩
  rw [history_agreed hext h.shadows (h.upright.agreed labels)] at hticks
  obtain ⟨more, s', hmore, hexec, hempty, hused⟩ :=
    h.responsive.answers hpolicy h.realises h.balanced h.idle h.rest labels hticks
  have hlast := hext.exec_agreed h.shadows (h.upright.agreed (labels ++ more))
  rw [hexec] at hlast
  generalize hrun : Runs.exec (step (controllerSystem unblocked)) st (labels ++ more) = last
    at hlast
  obtain ⟨shared, main, handler⟩ := last
  obtain ⟨hshared, hmain, hhandler⟩ := hlast
  simp only at hshared hmain hhandler
  subst hmain hhandler hshared
  exact ⟨more, shared, hmore, hrun, hempty, hused⟩

/-- A boot with a tick in it, and a key that nobody has read yet. -/
def bootWithKey : List (Label Irq UInt8) :=
  running 8 ++ [.environment 0x1C, .interrupt .timer] ++ running 110

set_option maxRecDepth 8000 in
/-- After it another key comes in the middle of a tick, and there the run stops. -/
theorem every_key_can_be_answered_bootWithKey :
    let st := Runs.exec (step (controllerSystem unblocked)) (controllerState quietBoot) bootWithKey
    ∃ c, Realises st.shared.host c ∧ ∃ more last,
      (∀ label ∈ more, label = .run ∨ label = .interrupt .keyboard) ∧
      Runs.exec (step (controllerSystem unblocked)) st
        ([.interrupt .timer, .run, .environment 0x1E] ++ more) = ⟨last, ⟨.done, ∅⟩, none⟩ ∧
      last.host.scancodes = [] ∧ Used c [0x1E] [0x1C, 0x1E] st.shared.host last.host := by
  intro st
  have hst : Runs.exec (step (controllerSystem unblocked)) (controllerState quietBoot)
    bootWithKey = st := rfl
  have hidle : st.main.prog = .done := rfl
  have hrest : st.handler = none := Option.isNone_iff_eq_none.mp (by decide +kernel)
  have hscancodes : st.shared.host.scancodes = [0x1C] := by decide +kernel
  obtain ⟨c, hreal, hanswers⟩ := every_key_can_be_answered quietBoot (fun _ h => by cases h)
    bootWithKey (by decide +kernel) hst hidle hrest
  obtain ⟨more, last, hmore, hexec, hempty, hused⟩ :=
    hanswers [.interrupt .timer, .run, .environment 0x1E] (by decide +kernel)
  rw [hscancodes] at hused
  exact ⟨c, hreal, more, last, hmore, hexec, hempty, hused⟩

end AetherOs.Kernel
