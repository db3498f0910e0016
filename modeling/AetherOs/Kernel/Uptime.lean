import AetherOs.Kernel.Footprints
import AetherOs.Support.Assurance
import AetherOs.Task.RoundRobin
/-!
# Keeping time

Once the boot context is idle the state of the clock and of the task table is
what the delivered timer interrupts made of it: each one counts a tick, moves
the table on by one task and logs every hundredth tick.  Keys in between leave
both alone.  A tick that would overflow the counter panics and never returns.
-/

namespace AetherOs.Kernel

open AetherOs.Support AetherOs.Support.Text AetherOs.Support.Word
open AetherOs.Support.Interrupts AetherOs.Task AetherOs.Drivers.Keyboard

/-! ## The clock -/

structure Clock where
  ticks : Nat
  scheduler : Scheduler
  currentTaskId : Nat

def KernelState.clock (s : KernelState) : Clock := ⟨s.ticks, s.scheduler, s.currentTaskId⟩

/-- The log entry of the tick that follows `ticks` others. -/
def tickText (ticks : Nat) : Str :=
  if (ticks + 1) % 100 = 0 then
    "AetherOS: uptime ticks=".toList ++ decimal (ticks + 1) ++ ['\n']
  else []

def uptimeLog (ticks n : Nat) : Str := (List.range n).flatMap fun k => tickText (ticks + k)

theorem uptimeLog_add (ticks n m : Nat) :
    uptimeLog ticks (n + m) = uptimeLog ticks n ++ uptimeLog (ticks + n) m := by
  simp [uptimeLog, List.range_add, List.flatMap_map, Nat.add_assoc]

def rotated (scheduler : Scheduler) (n : Nat) : Scheduler :=
  Runs.exec Scheduler.apply scheduler (List.replicate n .runNext)

theorem rotated_add (scheduler : Scheduler) (n m : Nat) :
    rotated scheduler (n + m) = rotated (rotated scheduler n) m := by
  rw [rotated, List.replicate_add, Runs.exec_append]
  rfl

/-- What the interrupts `irqs`, delivered and served in this order, have done. -/
structure Elapsed (irqs : List Irq) (s s' : KernelState) : Prop where
  ticks : s'.ticks = s.ticks + irqs.count .timer
  /-- the last tick of the counter never returns -/
  inRange : .timer ∈ irqs → s'.ticks < wordLimit
  scheduler : s'.scheduler = rotated s.scheduler (irqs.count .timer)
  currentTaskId : s'.currentTaskId =
    if .timer ∈ irqs then s'.scheduler.currentTaskId else s.currentTaskId
  log : .keyboard ∉ irqs → s'.serial = s.serial ++ uptimeLog s.ticks irqs.length

theorem Elapsed.append {irqs irqs' : List Irq} {s s' s'' : KernelState} (h : Elapsed irqs s s')
    (h' : Elapsed irqs' s' s'') : Elapsed (irqs ++ irqs') s s'' := by
  have hcount : ∀ irqs : List Irq, .keyboard ∉ irqs → irqs.count .timer = irqs.length := by
    intro irqs hkeys
    rw [List.count_eq_length]
    intro irq hmem
    cases irq with
    | timer => rfl
    | keyboard => exact absurd hmem hkeys
  have hticks : s''.ticks = s.ticks + (irqs ++ irqs').count .timer := by
    rw [h'.ticks, h.ticks, List.count_append, Nat.add_assoc]
  refine ⟨hticks, ?_, ?_, ?_, ?_⟩
  · intro hmem
    by_cases hlater : .timer ∈ irqs'
    · exact h'.inRange hlater
    · have hsame := h'.ticks
      rw [List.count_eq_zero.mpr hlater, Nat.add_zero] at hsame
      rw [hsame]
      exact h.inRange ((List.mem_append.mp hmem).resolve_right hlater)
  · rw [h'.scheduler, h.scheduler, ← rotated_add, List.count_append]
  · have hcurrent' := h'.currentTaskId
    have hcurrent := h.currentTaskId
    by_cases hlater : .timer ∈ irqs'
    · rw [if_pos hlater] at hcurrent'
      rw [if_pos (List.mem_append_right irqs hlater), hcurrent']
    · have hsame : s''.scheduler = s'.scheduler := by
        rw [h'.scheduler, List.count_eq_zero.mpr hlater]
        rfl
      rw [if_neg hlater] at hcurrent'
      simp only [List.mem_append, hlater, or_false]
      rw [hcurrent', hcurrent, hsame]
  · intro hkeys
    have hkeys₁ : .keyboard ∉ irqs := fun hmem => hkeys (List.mem_append_left _ hmem)
    have hkeys₂ : .keyboard ∉ irqs' := fun hmem => hkeys (List.mem_append_right _ hmem)
    rw [h'.log hkeys₂, h.log hkeys₁, h.ticks, hcount irqs hkeys₁, List.append_assoc,
      ← uptimeLog_add, List.length_append]

/-! ## The keyboard -/

def KeepsClock (s s' : KernelState) : Prop := s'.clock = s.clock

instance admitsEdits_keepsClock : AdmitsEdits KeepsClock := by
  refine ⟨fun h => ?_⟩
  rw [h.others]
  rfl

theorem keeps_keyboardHandler : Keeps Set.univ KeepsClock ∅ (interruptHandler .keyboard) := by
  have hnotify : Keeps Set.univ KeepsClock ∅ notifyEndOfInterrupt := by
    refine static_notify (fun s s' h => ?_) (free_univ _)
    rw [h]
    rfl
  have hread : Keeps Set.univ KeepsClock ∅ onInterrupt := by
    refine Prog.Static.inspect (fun _ => rfl) fun s => ?_
    split
    · exact ⟨fun _ => rfl, fun s => takes_decode_onKey (fun _ => trivial) _⟩
    · rfl
  exact hread.andThen hnotify

abbrev Serves (p : Program) (P Q : KernelState → Prop) : Prop :=
  p.Leads Typed (fun _ => True) P Q

theorem serves_keyboardHandler (s : KernelState) :
    Serves (interruptHandler .keyboard) (fun s' => s'.clock = s.clock) (Elapsed [.keyboard] s) := by
  intro s' hs'
  have hkeeps : (interruptHandler .keyboard).Assures Typed (fun _ => True)
      (fun s' => s'.clock = s.clock) s' := by
    refine Prog.Assures.of_updates (G := KeepsClock) ?_ ?_ ?_ keeps_keyboardHandler.updates hs'
    · rintro t _ ht ⟨extra, rfl⟩
      exact ht
    · exact fun t t' ht ht' => Eq.trans ht' ht
    · exact fun _ _ => trivial
  refine hkeeps.mono fun t ht => ?_
  have hticks : t.ticks = s.ticks := congrArg Clock.ticks ht
  have hscheduler : t.scheduler = s.scheduler := congrArg Clock.scheduler ht
  have hcurrent : t.currentTaskId = s.currentTaskId := congrArg Clock.currentTaskId ht
  refine ⟨hticks, ?_, hscheduler, hcurrent, ?_⟩
  · intro hmem
    simp at hmem
  · intro hkeys
    simp at hkeys

/-! ## The timer -/

structure At (clock : Clock) (log : Str) (s : KernelState) : Prop where
  clock : s.clock = clock
  log : s.serial = log

variable {clock clock' : Clock} {log log' : Str}

theorem At.typed {s s' : KernelState} (h : At clock log s) (hs : Typed s s') : At clock log s' := by
  obtain ⟨extra, rfl⟩ := hs
  exact ⟨h.clock, h.log⟩

theorem serves_done : Serves .done (At clock log) (At clock log) :=
  fun _ hs _ hs' => ⟨trivial, hs.typed hs'⟩

theorem serves_update {f : KernelState → KernelState}
    (h : ∀ s, At clock log s → At clock' log' (f s)) :
    Serves (.update f) (At clock log) (At clock' log') := by
  apply Prog.Leads.update
  · exact fun s s' hs hs' => hs.typed hs'
  · exact fun _ _ => trivial
  · exact serves_done
  · exact h

theorem serves_withLock {m : Mutex} {p : Program} (h : Serves p (At clock log) (At clock' log')) :
    Serves (.withLock m p) (At clock log) (At clock' log') :=
  Prog.Leads.withLock Typed.refl serves_done h

theorem serves_println (line : Str) :
    Serves (println line) (At clock log) (At clock (log ++ (line ++ ['\n']))) := by
  apply serves_withLock
  apply serves_update
  intro s hs
  refine ⟨hs.clock, ?_⟩
  change s.serial ++ (line ++ ['\n']) = _
  rw [hs.log]

theorem serves_schedulerTick :
    Serves schedulerTick (At clock log)
      (At ⟨clock.ticks, clock.scheduler.runNext, clock.scheduler.runNext.currentTaskId⟩ log) := by
  have hrun : Serves (.update fun s => { s with scheduler := s.scheduler.runNext }) (At clock log)
      (At { clock with scheduler := clock.scheduler.runNext } log) := by
    refine serves_update fun s hs => ⟨?_, hs.log⟩
    rw [← hs.clock]
    rfl
  have hstore : Serves (.update fun s => { s with currentTaskId := s.scheduler.currentTaskId })
      (At { clock with scheduler := clock.scheduler.runNext } log)
      (At ⟨clock.ticks, clock.scheduler.runNext, clock.scheduler.runNext.currentTaskId⟩ log) := by
    refine serves_update fun s hs => ⟨?_, hs.log⟩
    have hscheduler : s.scheduler = clock.scheduler.runNext := congrArg Clock.scheduler hs.clock
    have hticks : s.ticks = clock.ticks := congrArg Clock.ticks hs.clock
    change Clock.mk s.ticks s.scheduler s.scheduler.currentTaskId = _
    rw [hscheduler, hticks]
  apply serves_withLock
  exact hrun.seq_cons Typed.refl (hstore.seq_cons Typed.refl serves_done)

theorem serves_notify : Serves notifyEndOfInterrupt (At clock log) (At clock log) := by
  intro s hs s' htyped
  have hs' := hs.typed htyped
  refine ⟨trivial, ?_⟩
  dsimp only
  split_ifs
  · refine serves_withLock (serves_update ?_) s' hs'
    exact fun t ht => ⟨ht.clock, ht.log⟩
  · exact serves_done s' hs'

theorem serves_panic (reason : Panic) (P Q : KernelState → Prop) : Serves (panic reason) P Q := by
  have hprints : ∀ (texts : List Str) (s : KernelState),
      (Prog.seq (texts.map print ++ [.halt])).Assures Typed (fun _ => True) Q s := by
    intro texts
    induction texts with
    | nil => exact fun _ _ _ => trivial
    | cons text texts ih => exact fun s t _ => ⟨trivial, ih _⟩
  intro s _
  exact hprints [_, _, _] s

def afterTick (clock : Clock) : Clock :=
  ⟨clock.ticks + 1, clock.scheduler.runNext, clock.scheduler.runNext.currentTaskId⟩

theorem serves_onTick :
    Serves onTick (At clock log) fun s =>
      At (afterTick clock) (log ++ tickText clock.ticks) s ∧ clock.ticks + 1 < wordLimit := by
  intro s hs s' htyped
  have hs' := hs.typed htyped
  have hticks : s'.ticks = clock.ticks := congrArg Clock.ticks hs'.clock
  have hcounted : clock.ticks + 1 < wordLimit →
      At ⟨clock.ticks + 1, clock.scheduler, clock.currentTaskId⟩ log
        { s' with ticks := (clock.ticks + 1) % wordLimit } := by
    intro hlimit
    refine ⟨?_, hs'.log⟩
    rw [Nat.mod_eq_of_lt hlimit, ← hs'.clock]
    rfl
  refine ⟨trivial, ?_⟩
  dsimp only
  rw [hticks]
  split_ifs with hlimit hlog
  · -- every hundredth tick is logged
    have htext : tickText clock.ticks =
        "AetherOS: uptime ticks=".toList ++ decimal (clock.ticks + 1) ++ ['\n'] := if_pos hlog
    rw [htext]
    have hlogged : Serves (schedulerTick.andThen
        (println ("AetherOS: uptime ticks=".toList ++ decimal (clock.ticks + 1))))
        (At ⟨clock.ticks + 1, clock.scheduler, clock.currentTaskId⟩ log)
        (At (afterTick clock) _) :=
      serves_schedulerTick.andThen Typed.refl (serves_println _)
    exact (hlogged _ (hcounted hlimit)).mono fun t ht => ⟨ht, hlimit⟩
  · have htext : tickText clock.ticks = [] := if_neg hlog
    rw [htext, List.append_nil]
    have hquiet : Serves (schedulerTick.andThen .done)
        (At ⟨clock.ticks + 1, clock.scheduler, clock.currentTaskId⟩ log)
        (At (afterTick clock) log) :=
      serves_schedulerTick.andThen Typed.refl serves_done
    exact (hquiet _ (hcounted hlimit)).mono fun t ht => ⟨ht, hlimit⟩
  · exact serves_panic .overflow (fun _ => True) _ _ trivial

theorem serves_timerHandler (s : KernelState) :
    Serves (interruptHandler .timer) (At s.clock s.serial) (Elapsed [.timer] s) := by
  have hnotify : Serves notifyEndOfInterrupt
      (fun t => At (afterTick s.clock) (s.serial ++ tickText s.ticks) t ∧ s.ticks + 1 < wordLimit)
      (fun t => At (afterTick s.clock) (s.serial ++ tickText s.ticks) t ∧
        s.ticks + 1 < wordLimit) :=
    fun t ht => (serves_notify t ht.1).mono fun t' ht' => ⟨ht', ht.2⟩
  have hhandler := serves_onTick.andThen Typed.refl hnotify
  intro t ht
  refine (hhandler t ht).mono fun t' ht' => ?_
  obtain ⟨⟨hclock, hlog⟩, hlimit⟩ := ht'
  have hticks : t'.ticks = s.ticks + 1 := congrArg Clock.ticks hclock
  have hscheduler : t'.scheduler = s.scheduler.runNext := congrArg Clock.scheduler hclock
  have hcurrent : t'.currentTaskId = s.scheduler.runNext.currentTaskId :=
    congrArg Clock.currentTaskId hclock
  refine ⟨hticks, fun _ => ?_, hscheduler, ?_, fun _ => ?_⟩
  · rw [hticks]
    exact hlimit
  · rw [if_pos List.mem_cons_self, hscheduler, hcurrent]
  · rw [hlog]
    simp [uptimeLog]

/-! ## Every run -/

theorem elapsed_service (policy : KernelState → Irq → Bool) :
    Service (kernelSystem policy) Typed Elapsed where
  env_refl := Typed.refl
  env_trans := Typed.trans
  environment := fun scancode _ => ⟨[scancode], rfl⟩
  idle := by
    rintro s _ ⟨extra, rfl⟩
    refine ⟨rfl, fun hmem => absurd hmem List.not_mem_nil, rfl, rfl, fun _ => ?_⟩
    simp [uptimeLog]
  append := fun _ _ _ _ _ h h' => h.append h'
  handler := by
    intro s irq _
    cases irq with
    | timer => exact serves_timerHandler s _ ⟨rfl, rfl⟩
    | keyboard => exact serves_keyboardHandler s _ rfl

/-- From any state in which the boot context is idle: after every further run,
whenever no handler is running, the tick counter has advanced by the number of
timer interrupts delivered, without wrapping, and the task table by as many
turns; the current slot has gone round accordingly, and without keys in between
the log has one line for every hundredth tick and nothing else. -/
theorem ticks_count_timer_interrupts (policy : KernelState → Irq → Bool)
    (st : State KernelState Mutex) (hidle : st.main.prog = .done) (hrest : st.handler = none)
    (labels : List (Label Irq UInt8))
    (hend : (Runs.exec (step (kernelSystem policy)) st labels).handler = none) :
    let irqs := delivered (kernelSystem policy) st labels
    let s' := (Runs.exec (step (kernelSystem policy)) st labels).shared
    Elapsed irqs st.shared s' ∧
      ∀ c, st.shared.scheduler.current = some c →
        s'.scheduler.current = some ((c + irqs.count .timer) % st.shared.scheduler.len) := by
  intro irqs s'
  have hstart : Served Typed Elapsed st.shared [] st := by
    unfold Served
    rw [hrest]
    exact (elapsed_service policy).idle _ _ (Typed.refl _)
  have hserved := (elapsed_service policy).run hidle hstart labels
  unfold Served at hserved
  rw [hend] at hserved
  have helapsed : Elapsed irqs st.shared s' := hserved
  refine ⟨helapsed, fun c hc => ?_⟩
  rw [helapsed.scheduler]
  exact Scheduler.exec_replicate_runNext hc _

def idleState : State KernelState Mutex where
  shared := { KernelState.initial with
    interruptFlag := true, picInitialized := true, ticks := 99, scheduler := (Scheduler.new.add
      (.new 0 "idle".toList)).add (.new 1 "init".toList) |>.runNext }
  main := ⟨.done, ∅⟩
  handler := none

def oneTick : List (Label Irq UInt8) := .interrupt .timer :: List.replicate 13 .run

theorem ticks_count_timer_interrupts_logged :
    let st' := Runs.exec (step (kernelSystem unblocked)) idleState oneTick
    st'.handler.isNone = true ∧ st'.shared.ticks = 100 ∧
      st'.shared.scheduler.current = some 1 ∧
      st'.shared.serial = "AetherOS: uptime ticks=100\n".toList := by
  intro st'
  have hnone : st'.handler.isNone = true := by decide +kernel
  have hcurrent : idleState.shared.scheduler.current = some 0 := by decide +kernel
  have hone : delivered (kernelSystem unblocked) idleState oneTick = [.timer] := by decide +kernel
  obtain ⟨helapsed, hslot⟩ := ticks_count_timer_interrupts unblocked idleState rfl rfl oneTick
    (Option.isNone_iff_eq_none.mp hnone)
  rw [hone] at helapsed hslot
  refine ⟨hnone, helapsed.ticks, hslot 0 hcurrent, ?_⟩
  rw [helapsed.log (by decide)]
  decide +kernel

end AetherOs.Kernel
