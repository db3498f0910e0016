import AetherOs.Kernel.Footprints
/-!
# Acknowledging interrupts

`interrupts::init` enables interrupts one step before it sets `INITIALIZED`,
and `notify_end_of_interrupt` sends no command while that flag is clear.  A
line delivered in between stays in service.  After the flag is set, every
handler that returns has cleared the bit that its delivery set.
-/

namespace AetherOs.Kernel

open AetherOs.Support AetherOs.Support.Interrupts

/-- What the boot context relies on: no handler returns with a bit still set. -/
def KeepsClear (s s' : KernelState) : Prop := s.inService = ∅ → s'.inService = ∅

/-- The delivery finds `INITIALIZED` set. -/
def AfterInitialized (_ : Finset Mutex) (s : KernelState) (_ : Irq) : Prop :=
  s.picInitialized = true

instance decidableAfterInitialized (H : Finset Mutex) (s : KernelState) (irq : Irq) :
    Decidable (AfterInitialized H s irq) :=
  inferInstanceAs (Decidable (s.picInitialized = true))

/-! ## Handlers -/

def Serving (irq : Irq) (s : KernelState) : Prop := s.picInitialized = true ∧ s.inService = {irq}

theorem Serving.quiet {irq : Irq} {s s' : KernelState} (h : Serving irq s) (hq : Quiet s s') :
    Serving irq s' := by
  constructor
  · rw [hq.picInitialized]
    exact h.1
  · rw [hq.inService]
    exact h.2

theorem endOfInterrupt_singleton (irq : Irq) : endOfInterrupt {irq} = ∅ := by
  cases irq <;> rfl

theorem notify_clears {irq : Irq} {s : KernelState} (hs : Serving irq s) :
    Prog.Upholds Typed (fun _ _ => True) (fun _ _ => True)
      (fun own s' => own = ∅ ∧ s'.inService = ∅) ∅ notifyEndOfInterrupt s := by
  intro s' htyped
  have hs' := hs.quiet htyped.quiet
  refine ⟨trivial, ?_⟩
  dsimp only
  rw [if_pos hs'.1]
  apply Prog.Upholds.section_update
  · exact fun _ _ => trivial
  · exact Finset.notMem_empty _
  · trivial
  · intro t t' ht ht'
    refine ⟨rfl, ?_⟩
    have hserving : Serving irq t := hs'.quiet ht.quiet
    calc
      t'.inService = endOfInterrupt t.inService := ht'.quiet.inService
      _ = endOfInterrupt {irq} := by rw [hserving.2]
      _ = ∅ := endOfInterrupt_singleton irq

theorem handler_clears {irq : Irq} {body : Program} (hbody : Takes Set.univ ∅ body)
    {s : KernelState} (hs : Serving irq s) :
    Prog.Upholds Typed (fun _ _ => True) (fun _ _ => True)
      (fun own s' => own = ∅ ∧ s'.inService = ∅) ∅ (body.andThen notifyEndOfInterrupt) s := by
  apply Prog.Upholds.andThen Typed.refl
  apply Prog.Static.upholds (P := Serving irq) (B := Set.univ)
  · exact fun _ _ h htyped => h.quiet htyped.quiet
  · exact fun _ _ h hq => h.quiet hq
  · exact fun _ _ _ _ => trivial
  · exact fun _ _ _ _ => trivial
  · exact fun _ h => notify_clears h
  · exact le_refl _
  · exact hbody
  · exact fun _ _ => trivial
  · exact hs

theorem rely_keepsClear (policy : KernelState → Irq → Bool) :
    Rely (kernelSystem policy) Typed KeepsClear (fun _ _ _ => True)
      (fun _ s => s.inService = ∅) AfterInitialized where
  refl := fun _ h => h
  trans := fun _ _ _ h h' hs => h' (h hs)
  env_refl := Typed.refl
  env_trans := Typed.trans
  env_sub := by
    intro s s' htyped hs
    rw [htyped.quiet.inService]
    exact hs
  environment := fun scancode _ => ⟨[scancode], rfl⟩
  handler := by
    intro H s irq hclear _ hinit
    obtain ⟨body, hbody, heq⟩ := takes_handlerBody irq
    have hserving : Serving irq ((kernelSystem policy).deliver irq s) := by
      refine ⟨hinit, ?_⟩
      change insert irq s.inService = {irq}
      rw [hclear, insert_empty_eq]
    change Prog.Upholds _ _ _ _ ∅ (interruptHandler irq) _
    rw [heq]
    refine (handler_clears hbody hserving).mono fun own s' h => ?_
    exact ⟨h.1, fun _ => h.2⟩

/-! ## The boot context -/

theorem inOrder_bootState (parameters : BootParameters) :
    InOrder Typed KeepsClear (fun _ _ _ => True) (fun _ s => s.inService = ∅)
      (bootState parameters) := by
  change Prog.Upholds KeepsClear (fun _ _ => True) (fun _ s => s.inService = ∅) (fun _ _ => True) ∅
    (bootInitialize parameters) .initial
  apply Prog.Static.upholds (P := fun s => s.inService = ∅) (B := Set.univ) (G := KeepsInService)
  · exact fun _ _ hs hclear => hclear hs
  · intro s s' hs hkeeps
    rw [hkeeps]
    exact hs
  · exact fun _ _ _ _ => trivial
  · exact fun _ _ _ hs => hs
  · exact fun _ _ => trivial
  · exact le_refl _
  · exact static_bootInitialize parameters
  · exact fun _ _ => trivial
  · rfl

/-- In a run whose interrupts all find `INITIALIZED` set, no line is in service
whenever no handler is executing. -/
theorem interrupts_acknowledged (parameters : BootParameters) (labels : List (Label Irq UInt8))
    (hlate : Runs.Along (step (kernelSystem unblocked))
      (AllowedLabel (kernelSystem unblocked) AfterInitialized) (bootState parameters) labels)
    (hidle : (Runs.exec (step (kernelSystem unblocked)) (bootState parameters) labels).handler
      = none) :
    (Runs.exec (step (kernelSystem unblocked)) (bootState parameters) labels).shared.inService
      = ∅ := by
  have hinOrder := (rely_keepsClear unblocked).invariant (inOrder_bootState parameters) hlate
  exact hinOrder.main_inv (rely_keepsClear unblocked).refl hidle

def running (n : Nat) : List (Label Irq UInt8) := List.replicate n .run

/-- The first tick right after `INITIALIZED` is set, and its handler up to its return. -/
def tickAfterInit : List (Label Irq UInt8) := running 8 ++ [.interrupt .timer] ++ running 11

theorem interrupts_acknowledged_tickAfterInit :
    (Runs.exec (step (kernelSystem unblocked)) (bootState quietBoot) tickAfterInit).shared.ticks
        = 1 ∧
      (Runs.exec (step (kernelSystem unblocked)) (bootState quietBoot)
        tickAfterInit).shared.inService = ∅ := by
  exact ⟨by decide, interrupts_acknowledged quietBoot tickAfterInit (by decide) (by decide)⟩

/-- The first tick one step earlier: interrupts are enabled, `INITIALIZED` is clear. -/
def tickBeforeInit : List (Label Irq UInt8) := running 7 ++ [.interrupt .timer] ++ running 7

/-- The handler of that tick has returned and the timer is still in service. -/
theorem tickBeforeInit_unacknowledged :
    (Runs.exec (step (kernelSystem unblocked)) (bootState quietBoot) tickBeforeInit).handler.isNone
        = true ∧
      (Runs.exec (step (kernelSystem unblocked)) (bootState quietBoot)
        tickBeforeInit).shared.inService = {.timer} := by
  decide

end AetherOs.Kernel
