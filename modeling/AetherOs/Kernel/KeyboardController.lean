import AetherOs.Kernel.EndOfInterrupt
import AetherOs.Kernel.Scancodes
/-!
# The keyboard controller

The output buffer of the controller holds one scancode until port `0x60` is
read; later scancodes queue behind it.  IRQ1 is an edge: it is raised when a
scancode enters the empty buffer and not again for the one that stays there.

`interrupts::init` enables IRQ1 several steps before `keyboard::INITIALIZED` is
set, and `on_interrupt` returns before it reads the port while that flag is
clear.  An edge delivered in between leaves its scancode in the buffer, and no
other edge follows.  `InStep` and `Missed` are the two kinds of runs: up to such
a delivery IRQ1 waits exactly while a scancode does, and after it never again.
-/

namespace AetherOs.Kernel

open AetherOs.Support AetherOs.Support.Interrupts AetherOs.Drivers.Keyboard

/-- The kernel, and whether an edge of IRQ1 waits for its delivery. -/
abbrev Machine := Attached KernelState Bool

/-- A read that leaves scancodes behind lets the next one into the buffer. -/
def refill (s s' : KernelState) (pending : Bool) : Bool :=
  pending || (s'.scancodes.length < s.scancodes.length && !s'.scancodes.isEmpty)

/-- `kernelSystem` with an edge-triggered IRQ1. -/
def controllerSystem (policy : KernelState → Irq → Bool) : System Machine Mutex Irq UInt8 where
  handler := fun irq => (interruptHandler irq).watched refill
  deliverable := fun c irq =>
    c.host.interruptFlag && (irq = .keyboard → c.device) && policy c.host irq
  deliver := fun irq c =>
    ⟨(kernelSystem policy).deliver irq c.host, c.device && irq ≠ .keyboard⟩
  environment := fun scancode c =>
    ⟨(kernelSystem policy).environment scancode c.host, c.device || c.host.scancodes.isEmpty⟩

def controllerState (parameters : BootParameters) : State Machine Mutex where
  shared := ⟨.initial, false⟩
  main := ⟨(bootInitialize parameters).watched refill, ∅⟩
  handler := none

/-- An edge of IRQ1 is delivered only once `keyboard::INITIALIZED` is set. -/
def AfterKeyboard (_ : Finset Mutex) (c : Machine) (irq : Irq) : Prop :=
  irq = .keyboard → c.host.keyboardInitialized = true

instance decidableAfterKeyboard (H : Finset Mutex) (c : Machine) (irq : Irq) :
    Decidable (AfterKeyboard H c irq) :=
  inferInstanceAs (Decidable (irq = .keyboard → c.host.keyboardInitialized = true))

/-! ## Code that does not read the port -/

def KeepsScancodes (s s' : KernelState) : Prop := s'.scancodes = s.scancodes

instance admitsBoot_keepsScancodes : AdmitsBoot KeepsScancodes := ⟨Boots.scancodes⟩

structure KeepsLine (c c' : Machine) : Prop where
  scancodes : c'.host.scancodes = c.host.scancodes
  pending : c'.device = c.device

theorem KeepsLine.refl (c : Machine) : KeepsLine c c := ⟨rfl, rfl⟩

theorem keepsLine_refill (s s' : KernelState) (pending : Bool) (h : KeepsScancodes s s') :
    KeepsLine ⟨s, pending⟩ ⟨s', refill s s' pending⟩ := by
  refine ⟨h, ?_⟩
  change refill s s' pending = pending
  rw [refill, show s'.scancodes = s.scancodes from h]
  simp

theorem updates_watched {A : Set Mutex} {own own' : Finset Mutex} {p : Program}
    (h : Prog.Static A KeepsScancodes own own' p) : (p.watched refill).Updates KeepsLine :=
  h.updates.watched keepsLine_refill

theorem keepsScancodes_notify : Keeps Set.univ KeepsScancodes ∅ notifyEndOfInterrupt := by
  refine static_notify (fun s s' h => ?_) (free_univ _)
  rw [h]
  rfl

theorem updates_timer : ((interruptHandler .timer).watched refill).Updates KeepsLine :=
  updates_watched ((takes_onTick (free_univ _) (free_univ _)).andThen keepsScancodes_notify)

/-! ## The keyboard handler -/

theorem refill_self (s : KernelState) (pending : Bool) : refill s s pending = pending :=
  (keepsLine_refill s s pending rfl).pending

theorem step_entered (own blocked : Finset Mutex) (c : Machine) :
    Context.step ⟨(interruptHandler .keyboard).watched refill, own⟩ blocked c =
      (c, ⟨((if c.host.keyboardInitialized then readScancode else .done).andThen
        notifyEndOfInterrupt).watched refill, own⟩) := by
  change ((⟨c.host, refill c.host c.host c.device⟩ : Machine), _) = _
  rw [refill_self]
  rfl

/-- IRQ1 waits exactly while a scancode does. -/
def Synced (c : Machine) : Prop := c.device = !c.host.scancodes.isEmpty

/-- A scancode is in the buffer and its edge is gone. -/
def Unasked (c : Machine) : Prop := c.device = false ∧ c.host.scancodes ≠ []

theorem Synced.keepsLine {c c' : Machine} (h : Synced c) (hkeeps : KeepsLine c c') :
    Synced c' := by
  unfold Synced
  rw [hkeeps.scancodes, hkeeps.pending]
  exact h

theorem Unasked.keepsLine {c c' : Machine} (h : Unasked c) (hkeeps : KeepsLine c c') :
    Unasked c' := by
  unfold Unasked
  rw [hkeeps.scancodes, hkeeps.pending]
  exact h

theorem synced_read {c : Machine} (h : Unasked c) (s : KernelState)
    (hs : s = { c.host with scancodes := c.host.scancodes.tail }) :
    Synced ⟨s, refill c.host s c.device⟩ := by
  obtain ⟨hpending, hne⟩ := h
  have hpos : 0 < c.host.scancodes.length := List.length_pos_of_ne_nil hne
  subst hs
  simp only [Synced, refill, hpending, List.length_tail, Bool.false_or]
  rw [decide_eq_true (by omega), Bool.true_and]

theorem keepsScancodes_afterRead (scancode : UInt8) :
    Keeps Set.univ KeepsScancodes ∅ ((feedScancode scancode).andThen notifyEndOfInterrupt) :=
  (takes_decode_onKey (fun _ => trivial) scancode).andThen keepsScancodes_notify

inductive Reading : Prog Machine Mutex → Prop
  | entered : Reading ((interruptHandler .keyboard).watched refill)
  | initialized : Reading ((readScancode.andThen notifyEndOfInterrupt).watched refill)

/-- Until the read nothing changes; after it the next edge is on its way. -/
theorem Reading.step {p : Prog Machine Mutex} (hp : Reading p) {c : Machine}
    (hinit : c.host.keyboardInitialized = true) (hc : Unasked c) (own blocked : Finset Mutex) :
    ((Context.step ⟨p, own⟩ blocked c).1 = c ∧ Reading (Context.step ⟨p, own⟩ blocked c).2.prog) ∨
      (Synced (Context.step ⟨p, own⟩ blocked c).1 ∧
        (Context.step ⟨p, own⟩ blocked c).2.prog.Updates KeepsLine) := by
  cases hp with
  | entered =>
      left
      rw [step_entered, if_pos hinit]
      exact ⟨rfl, .initialized⟩
  | initialized =>
      right
      exact ⟨synced_read hc _ rfl, updates_watched (keepsScancodes_afterRead _)⟩

theorem Reading.ne_done {p : Prog Machine Mutex} (hp : Reading p) : p ≠ .done := by
  cases hp with
  | entered => exact fun h => by cases h
  | initialized => exact fun h => by cases h

/-! ## The line -/

section Line

variable {policy : KernelState → Irq → Bool} {c : Machine}

theorem Synced.environment (h : Synced c) (scancode : UInt8) :
    Synced ((controllerSystem policy).environment scancode c) := by
  unfold Synced at h
  simp [Synced, controllerSystem, kernelSystem, h]

theorem Unasked.environment (h : Unasked c) (scancode : UInt8) :
    Unasked ((controllerSystem policy).environment scancode c) := by
  simp [Unasked, controllerSystem, kernelSystem, h.1, h.2]

theorem keepsLine_deliver_timer (policy : KernelState → Irq → Bool) (c : Machine) :
    KeepsLine c ((controllerSystem policy).deliver .timer c) := by
  refine ⟨rfl, ?_⟩
  simp [controllerSystem]

theorem pending_of_deliverable
    (h : (controllerSystem policy).deliverable c .keyboard = true) : c.device = true := by
  simp only [controllerSystem, Bool.and_eq_true, decide_eq_true_eq, forall_const] at h
  exact h.1.2

theorem unasked_deliver_keyboard (h : Synced c)
    (hdeliverable : (controllerSystem policy).deliverable c .keyboard = true) :
    Unasked ((controllerSystem policy).deliver .keyboard c) := by
  rw [Synced, pending_of_deliverable hdeliverable] at h
  refine ⟨by simp [controllerSystem], ?_⟩
  intro hempty
  rw [show c.host.scancodes = [] from hempty] at h
  cases h

end Line

/-! ## Runs -/

/-- The running handler, if there is one, does not touch the line or is about
to read the port. -/
def InStep (c : Machine) : Option (Context Machine Mutex) → Prop
  | none => Synced c
  | some h => (h.prog.Updates KeepsLine ∧ Synced c) ∨
      (Reading h.prog ∧ c.host.keyboardInitialized = true ∧ Unasked c)

/-- The scancode stays where it is: no handler that can still run reads the port. -/
def Missed (c : Machine) (handler : Option (Context Machine Mutex)) : Prop :=
  Unasked c ∧ ∀ h ∈ handler, h.prog.Updates KeepsLine ∨
    (h.prog = (interruptHandler .keyboard).watched refill ∧ c.host.keyboardInitialized = false)

theorem inStep_invariant (policy : KernelState → Irq → Bool) :
    HandlerInvariant (controllerSystem policy) KeepsLine InStep AfterKeyboard where
  main := fun _ _ h hkeeps => Synced.keepsLine h hkeeps
  deliver := by
    intro H c irq h hdeliver hafter
    cases irq with
    | timer => exact Or.inl ⟨updates_timer, Synced.keepsLine h (keepsLine_deliver_timer policy c)⟩
    | keyboard => exact Or.inr ⟨.entered, hafter rfl, unasked_deliver_keyboard h hdeliver⟩
  run := by
    intro c handler blocked h
    rcases h with ⟨hprog, hsynced⟩ | ⟨hreading, hinit, hunasked⟩
    · obtain ⟨hkeeps, hnext⟩ := Context.step_updates KeepsLine.refl hprog blocked c
      exact Or.inl ⟨hnext, hsynced.keepsLine hkeeps⟩
    · rcases hreading.step hinit hunasked handler.held blocked with ⟨hsame, hnext⟩ | hread
      · right
        refine ⟨hnext, ?_⟩
        rw [hsame]
        exact ⟨hinit, hunasked⟩
      · exact Or.inl hread.symm
  returns := by
    intro c handler h hdone
    rcases h with ⟨-, hsynced⟩ | ⟨hreading, -⟩
    · exact hsynced
    · exact absurd hdone hreading.ne_done
  environment := by
    intro c handler scancode h
    cases handler with
    | none => exact Synced.environment h scancode
    | some handler =>
        rcases h with ⟨hprog, hsynced⟩ | ⟨hreading, hinit, hunasked⟩
        · exact Or.inl ⟨hprog, hsynced.environment scancode⟩
        · exact Or.inr ⟨hreading, hinit, hunasked.environment scancode⟩

theorem missed_invariant (policy : KernelState → Irq → Bool) :
    HandlerInvariant (controllerSystem policy) KeepsLine Missed (fun _ _ _ => True) where
  main := fun _ _ h hkeeps => ⟨h.1.keepsLine hkeeps, fun _ hnone => by cases hnone⟩
  deliver := by
    intro H c irq h hdeliver _
    cases irq with
    | timer =>
        refine ⟨h.1.keepsLine (keepsLine_deliver_timer policy c), ?_⟩
        rintro handler ⟨⟩
        exact Or.inl updates_timer
    | keyboard =>
        -- there is no edge left to deliver
        have hpending := pending_of_deliverable hdeliver
        rw [h.1.1] at hpending
        cases hpending
  run := by
    intro c handler blocked h
    obtain ⟨hunasked, hhandler⟩ := h
    rcases hhandler handler rfl with hprog | ⟨hentered, hinit⟩
    · obtain ⟨hkeeps, hnext⟩ := Context.step_updates KeepsLine.refl hprog blocked c
      refine ⟨hunasked.keepsLine hkeeps, ?_⟩
      rintro handler' ⟨⟩
      exact Or.inl hnext
    · -- `on_interrupt` returns at once
      obtain ⟨prog, own⟩ := handler
      subst hentered
      rw [step_entered, if_neg (by simpa using hinit)]
      refine ⟨hunasked, ?_⟩
      rintro handler' ⟨⟩
      exact Or.inl (updates_watched keepsScancodes_notify)
  returns := fun _ _ h _ => ⟨h.1, fun _ hnone => by cases hnone⟩
  environment := fun _ _ scancode h => ⟨h.1.environment scancode, h.2⟩

/-- A delivery that comes too early takes the edge and leaves the scancode. -/
theorem missed_of_early {policy : KernelState → Irq → Bool} {st : State Machine Mutex}
    (h : Tracks KeepsLine InStep st) {label : Label Irq UInt8}
    (hearly : ¬AllowedLabel (controllerSystem policy) AfterKeyboard st label) :
    Tracks KeepsLine Missed (step (controllerSystem policy) st label) := by
  cases label with
  | run => exact absurd trivial hearly
  | environment scancode => exact absurd trivial hearly
  | interrupt irq =>
      simp only [AllowedLabel, AfterKeyboard, not_forall, exists_prop] at hearly
      obtain ⟨hidle, hdeliver, rfl, hinit⟩ := hearly
      obtain ⟨shared, main, handler⟩ := st
      subst hidle
      simp only [step, if_pos hdeliver]
      refine ⟨h.1, unasked_deliver_keyboard h.2 hdeliver, ?_⟩
      rintro handler ⟨⟩
      exact Or.inr ⟨rfl, Bool.eq_false_of_not_eq_true hinit⟩

theorem missed_step {policy : KernelState → Irq → Bool} {st : State Machine Mutex}
    (h : Tracks KeepsLine Missed st) (label : Label Irq UInt8) :
    Tracks KeepsLine Missed (step (controllerSystem policy) st label) := by
  apply (missed_invariant policy).step KeepsLine.refl h label
  cases label <;> simp [AllowedLabel]

theorem inStep_controllerState (parameters : BootParameters) :
    Tracks KeepsLine InStep (controllerState parameters) :=
  ⟨updates_watched (static_bootInitialize parameters), rfl⟩

/-- Along every run, the edges delivered so far decide which of the two holds. -/
theorem inStep_or_missed (policy : KernelState → Irq → Bool) (parameters : BootParameters)
    (labels : List (Label Irq UInt8)) :
    Runs.Along (step (controllerSystem policy))
        (AllowedLabel (controllerSystem policy) AfterKeyboard) (controllerState parameters) labels ∧
      Tracks KeepsLine InStep
        (Runs.exec (step (controllerSystem policy)) (controllerState parameters) labels) ∨
    ¬Runs.Along (step (controllerSystem policy))
        (AllowedLabel (controllerSystem policy) AfterKeyboard) (controllerState parameters) labels ∧
      Tracks KeepsLine Missed
        (Runs.exec (step (controllerSystem policy)) (controllerState parameters) labels) := by
  apply Runs.exec_along_or_stuck (P := Tracks KeepsLine InStep) (Q := Tracks KeepsLine Missed)
  · intro st label h hafter
    exact (inStep_invariant policy).step KeepsLine.refl h label hafter
  · exact fun _ _ h hearly => missed_of_early h hearly
  · exact fun _ label h => missed_step h label
  · exact inStep_controllerState parameters

/-- In every state without a running handler, a buffer whose edge was delivered
is empty, if and only if every edge delivered so far found
`keyboard::INITIALIZED` set. -/
theorem buffer_drained_iff_after_keyboard (policy : KernelState → Irq → Bool)
    (parameters : BootParameters) (labels : List (Label Irq UInt8))
    (hidle : (Runs.exec (step (controllerSystem policy)) (controllerState parameters)
      labels).handler = none) :
    ((Runs.exec (step (controllerSystem policy)) (controllerState parameters)
        labels).shared.device = false →
      (Runs.exec (step (controllerSystem policy)) (controllerState parameters)
        labels).shared.host.scancodes = []) ↔
    Runs.Along (step (controllerSystem policy))
      (AllowedLabel (controllerSystem policy) AfterKeyboard) (controllerState parameters)
      labels := by
  rcases inStep_or_missed policy parameters labels with ⟨hafter, hin⟩ | ⟨hearly, hmissed⟩
  · have hsynced := hin.2
    rw [hidle] at hsynced
    refine ⟨fun _ => hafter, fun _ hpending => ?_⟩
    rw [InStep, Synced, hpending] at hsynced
    simpa using hsynced.symm
  · obtain ⟨hpending, hne⟩ := hmissed.2.1
    refine ⟨fun hdrained => ?_, fun hafter => absurd hafter hearly⟩
    exact absurd (hdrained hpending) hne

/-- A key pressed and released right after `INITIALIZED` is set, with both handlers. -/
def keyAfterInit : List (Label Irq UInt8) :=
  running 25 ++ [.environment 0x1E, .environment 0x9E, .interrupt .keyboard] ++ running 13 ++
    [.interrupt .keyboard] ++ running 8

theorem buffer_drained_iff_after_keyboard_press :
    (Runs.exec (step (controllerSystem unblocked)) (controllerState quietBoot)
        keyAfterInit).shared.host.keyboardInitialized = true ∧
      (Runs.exec (step (controllerSystem unblocked)) (controllerState quietBoot)
        keyAfterInit).shared.host.scancodes = [] := by
  refine ⟨by decide, ?_⟩
  exact (buffer_drained_iff_after_keyboard unblocked quietBoot keyAfterInit (by decide)).mpr
    (by decide) (by decide)

/-- The key one step earlier, its handler, and the step that sets `INITIALIZED`;
then the key is released and another one pressed. -/
def keyBeforeInit : List (Label Irq UInt8) :=
  running 24 ++ [.environment 0x1E, .interrupt .keyboard] ++ running 7 ++
    [.environment 0x9E, .environment 0x30]

/-- The driver is up and idle, nothing is pending, and the scancodes pile up. -/
theorem keyBeforeInit_blocks :
    (Runs.exec (step (controllerSystem unblocked)) (controllerState quietBoot)
        keyBeforeInit).shared.host.keyboardInitialized = true ∧
      (Runs.exec (step (controllerSystem unblocked)) (controllerState quietBoot)
        keyBeforeInit).handler.isNone = true ∧
      (Runs.exec (step (controllerSystem unblocked)) (controllerState quietBoot)
        keyBeforeInit).shared.device = false ∧
      (Runs.exec (step (controllerSystem unblocked)) (controllerState quietBoot)
        keyBeforeInit).shared.host.scancodes = [0x1E, 0x9E, 0x30] := by
  decide

/-! ## The kernel without its controller -/

theorem extends_kernelSystem (policy : KernelState → Irq → Bool) :
    Extends refill (controllerSystem policy) (kernelSystem policy) where
  handler := fun _ => rfl
  deliver := fun _ _ => rfl
  environment := fun _ _ => rfl

/-- As long as no edge has been missed, both systems deliver the same interrupts. -/
theorem agreed_of_inStep {policy : KernelState → Irq → Bool} {st : State Machine Mutex}
    (h : Tracks KeepsLine InStep st) (label : Label Irq UInt8) :
    AgreedLabel (controllerSystem policy) (kernelSystem policy) st label := by
  cases label with
  | run => trivial
  | environment scancode => trivial
  | interrupt irq =>
      intro hidle
      have hsynced := h.2
      rw [hidle] at hsynced
      have hpending : st.shared.device = raised st.shared.host .keyboard := hsynced
      cases irq with
      | timer => simp [controllerSystem, kernelSystem, raised]
      | keyboard => simp [controllerSystem, kernelSystem, hpending]

/-- A run that misses no edge is the same run of `kernelSystem`. -/
theorem agreed_boot (policy : KernelState → Irq → Bool) (parameters : BootParameters)
    {labels : List (Label Irq UInt8)}
    (hafter : Runs.Along (step (controllerSystem policy))
      (AllowedLabel (controllerSystem policy) AfterKeyboard) (controllerState parameters) labels) :
    Runs.Along (step (controllerSystem policy))
      (AgreedLabel (controllerSystem policy) (kernelSystem policy)) (controllerState parameters)
      labels :=
  hafter.of_invariant (P := Tracks KeepsLine InStep)
    (fun _ label h hlabel => (inStep_invariant policy).step KeepsLine.refl h label hlabel)
    (fun _ label h => agreed_of_inStep h label) (inStep_controllerState parameters)

theorem shadows_bootState (parameters : BootParameters) :
    Shadows refill (controllerState parameters) (bootState parameters) := ⟨rfl, rfl, rfl⟩

/-- An edge that can be delivered belongs to a scancode in the buffer. -/
theorem raised_of_tracks {policy : KernelState → Irq → Bool} {st : State Machine Mutex}
    (h : Tracks KeepsLine InStep st ∨ Tracks KeepsLine Missed st) (label : Label Irq UInt8) :
    AllowedLabel (controllerSystem policy)
      (fun _ c irq => (kernelSystem policy).deliverable c.host irq = true) st label := by
  cases label with
  | run => trivial
  | environment scancode => trivial
  | interrupt irq =>
      intro hidle hdeliver
      cases irq with
      | timer => simpa [controllerSystem, kernelSystem, raised] using hdeliver
      | keyboard =>
          have hpending := pending_of_deliverable hdeliver
          have hraised : raised st.shared.host .keyboard = true := by
            rcases h with ⟨-, hin⟩ | ⟨-, hmissed⟩
            · rw [hidle] at hin
              exact hin.symm.trans hpending
            · rw [hmissed.1.1] at hpending
              cases hpending
          simp only [controllerSystem, Bool.and_eq_true] at hdeliver
          simp only [kernelSystem, Bool.and_eq_true]
          exact ⟨⟨hdeliver.1.1, hraised⟩, hdeliver.2⟩

/-- Every run with the controller is a run of `kernelSystem`, less the
deliveries for which there is no edge. -/
theorem controller_run_shadowed (policy : KernelState → Irq → Bool) (parameters : BootParameters)
    (labels : List (Label Irq UInt8)) :
    ∃ labels', Shadows refill
      (Runs.exec (step (controllerSystem policy)) (controllerState parameters) labels)
      (Runs.exec (step (kernelSystem policy)) (bootState parameters) labels') := by
  apply (extends_kernelSystem policy).exec (shadows_bootState parameters)
  apply Runs.along_of_invariant
    (P := fun st => Tracks KeepsLine InStep st ∨ Tracks KeepsLine Missed st)
  · intro st label h
    rcases h with hin | hmissed
    · by_cases hafter : AllowedLabel (controllerSystem policy) AfterKeyboard st label
      · exact Or.inl ((inStep_invariant policy).step KeepsLine.refl hin label hafter)
      · exact Or.inr (missed_of_early hin hafter)
    · exact Or.inr (missed_step hmissed label)
  · exact fun _ label h => raised_of_tracks h label
  · exact Or.inl (inStep_controllerState parameters)

end AetherOs.Kernel
