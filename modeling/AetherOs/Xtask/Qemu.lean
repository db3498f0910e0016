import AetherOs.Xtask.Limine
import AetherOs.Xtask.SendKeys
/-!
# Running the kernel under QEMU

`verify_qemu_boot` and `verify_qemu_shell` of `tools/xtask/src/main.rs`, from
the point where QEMU has been spawned.  The model reads the outcomes of the
operations from a list: what a file held, whether the monitor could be reached,
when QEMU exited.  The state keeps the outcomes that have been used, and what
they say about the child process.
-/

namespace AetherOs.Xtask

open AetherOs.Support AetherOs.Support.Text

inductive ChildState where
  | running
  | exited
  /-- killed, and waited for -/
  | reaped
  deriving DecidableEq, Repr

inductive FileRead (α : Type) where
  | absent
  | unreadable
  | contents (value : α)

inductive Connection where
  | connected
  /-- the flag says whether the time for connecting is over -/
  | refused (expired : Bool)

/-- The outcome of an operation, or the exit of QEMU. -/
inductive Event where
  | childExits
  | readLog (log : FileRead Str)
  | poll (ok : Bool)
  | readStderr (stderr : Option Str)
  | clock (expired : Bool)
  | kill (ok : Bool)
  | wait (ok : Bool)
  | connect (outcome : Connection)
  | send (ok : Bool)
  | readScreenshot (file : FileRead Bytes)

def Event.effect (child : ChildState) : Event → ChildState
  | .childExits => if child = .running then .exited else child
  | .wait true => .reaped
  | _ => child

def childAfter (events : List Event) : ChildState := events.foldl Event.effect .running

structure World where
  past : List Event
  future : List Event

def World.child (w : World) : ChildState := childAfter w.past

/-- Which loop was waiting: that of `verify_qemu_boot` or `wait_for_log_marker`. -/
inductive Waiting where
  | bootSuccess
  | logMarker
  deriving DecidableEq, Repr

inductive QemuError where
  | readLog
  | poll
  | readStderr
  /-- QEMU exited before the marker was seen -/
  | exited (waiting : Waiting) (marker tail stderr : Str)
  | timedOut (waiting : Waiting) (marker tail : Str)
  | inspect
  | kill
  | wait
  | connect
  | unsupportedKey (key : UnsupportedKey)
  | send
  | screenshotMissing
  | screenshotUnreadable
  | screenshotSmall (size : Nat)
  | screenshotNotPpm

abbrev Check := Attempt World QemuError

/-- The next outcome; QEMU may exit before it. -/
def takeOutcome (past : List Event) : List Event → Option (Except QemuError Event × World)
  | [] => none
  | .childExits :: future => takeOutcome (past ++ [.childExits]) future
  | event :: future => some (.ok event, ⟨past ++ [event], future⟩)

def nextOutcome : Check Event := fun w => takeOutcome w.past w.future

/-! ## The serial log -/

def readLog {α : Type} (absent : α) (use : Str → α) : Check α := do
  let event ← nextOutcome
  match event with
  | .readLog .absent => pure absent
  | .readLog .unreadable => .fail .readLog
  | .readLog (.contents log) => pure (use log)
  | _ => .stuck

def containsMarker (marker : Str) : Check Bool := readLog false fun log => marker <:+: log

/-- What `str::lines` does to a line that ends with a line feed. -/
def stripReturn (line : Str) : Str := if line.getLast? = some '\r' then line.dropLast else line

/-- `str::lines`; the text behind the last line feed keeps a carriage return. -/
def lines (text : Str) : List Str :=
  let parts := text.splitOn '\n'
  let ended := parts.dropLast.map stripReturn
  if parts.getLast? = some [] then ended else ended ++ parts.getLast?.toList

def tailLines (maxLines : Nat) : Check Str :=
  readLog "<serial log not created>".toList fun log =>
    ['\n'].intercalate ((lines log).drop ((lines log).length - maxLines))

/-! ## The child process -/

/-- `Child::try_wait`, as whether the child has exited. -/
def tryWait (error : QemuError) : Check Bool := do
  let event ← nextOutcome
  match event with
  | .poll true => do
      let w ← Attempt.current
      pure (w.child ≠ .running)
  | .poll false => .fail error
  | _ => .stuck

def readChildStderr : Check Str := do
  let event ← nextOutcome
  match event with
  | .readStderr (some stderr) => pure stderr
  | .readStderr none => .fail .readStderr
  | _ => .stuck

def killChild : Check Unit := do
  let event ← nextOutcome
  match event with
  | .kill ok => Attempt.expect ok .kill
  | _ => .stuck

def waitChild : Check Unit := do
  let event ← nextOutcome
  match event with
  | .wait ok => Attempt.expect ok .wait
  | _ => .stuck

def terminateChild : Check Unit := do
  let exited ← tryWait .inspect
  if exited then pure ()
  else
    killChild
    waitChild

/-! ## Waiting -/

/-- `started.elapsed() >= timeout` -/
def clockExpired : Check Bool := do
  let event ← nextOutcome
  match event with
  | .clock expired => pure expired
  | _ => .stuck

/-- The loop of `verify_qemu_boot` and of `wait_for_log_marker`, which differ in
what they do when the marker is there and in the texts of their errors. -/
def pollLog (waiting : Waiting) (found : Check Unit) (marker : Str) : Nat → Check Unit
  | 0 => .stuck
  | fuel + 1 => do
      let seen ← containsMarker marker
      if seen then found
      else
        let exited ← tryWait .poll
        if exited then
          let stderr ← readChildStderr
          let tail ← tailLines 20
          .fail (.exited waiting marker tail stderr)
        else
          let expired ← clockExpired
          if expired then
            let tail ← tailLines 20
            terminateChild
            .fail (.timedOut waiting marker tail)
          else pollLog waiting found marker fuel

def verifyQemuBoot (successMarker : Str) (fuel : Nat) : Check Unit :=
  pollLog .bootSuccess terminateChild successMarker fuel

def waitForLogMarker (marker : Str) (fuel : Nat) : Check Unit :=
  pollLog .logMarker (pure ()) marker fuel

/-! ## The monitor -/

def connectMonitor : Nat → Check Unit
  | 0 => .stuck
  | fuel + 1 => do
      let event ← nextOutcome
      match event with
      | .connect .connected => pure ()
      | .connect (.refused expired) =>
          if expired then .fail .connect else connectMonitor fuel
      | _ => .stuck

def sendMonitorCommand : Check Unit := do
  let event ← nextOutcome
  match event with
  | .send ok => Attempt.expect ok .send
  | _ => .stuck

def sendLines : List Str → Check Unit
  | [] => pure ()
  | _ :: rest => do
      sendMonitorCommand
      sendLines rest

/-- The lines of `send_shell_command`, until one cannot be sent. -/
def typeShellCommand (command : Str) : Check Unit := do
  sendLines (sendShellCommand command).1
  match (sendShellCommand command).2 with
  | .ok () => pure ()
  | .error key => .fail (.unsupportedKey key)

def validatePpm : FileRead Bytes → Except QemuError Unit
  | .absent => .error .screenshotMissing
  | .unreadable => .error .screenshotUnreadable
  | .contents bytes =>
      if bytes.length < 16 then .error (.screenshotSmall bytes.length)
      else if [0x50, 0x36] <+: bytes then .ok ()
      else .error .screenshotNotPpm

def validatePpmScreenshot : Check Unit := do
  let event ← nextOutcome
  match event with
  | .readScreenshot file =>
      match validatePpm file with
      | .ok () => pure ()
      | .error error => .fail error
  | _ => .stuck

def verifyQemuShell (successMarker : Str) (fuel : Nat) : Check Unit := do
  waitForLogMarker successMarker fuel
  waitForLogMarker "AetherOS shell ready".toList fuel
  connectMonitor fuel
  typeShellCommand "help".toList
  typeShellCommand "info".toList
  typeShellCommand "ls".toList
  sendMonitorCommand
  waitForLogMarker "Show this command list".toList fuel
  waitForLogMarker "AetherOS academic kernel".toList fuel
  waitForLogMarker "/README.TXT".toList fuel
  validatePpmScreenshot
  terminateChild

/-! ## Outcomes that matter -/

/-- A failing poll, kill or wait of the child itself. -/
def Event.excused : Event → Bool
  | .poll ok => !ok
  | .kill ok => !ok
  | .wait ok => !ok
  | _ => false

/-- A failure that the functions return at once, without looking after the child. -/
def Event.unguarded : Event → Bool
  | .readLog .unreadable => true
  | .connect (.refused expired) => expired
  | .send ok => !ok
  | .readScreenshot file => !(validatePpm file).isOk
  | _ => false

def Guarded (events : List Event) : Prop :=
  ∀ before event after, events = before ++ event :: after → event.unguarded = true →
    childAfter before ≠ .running

theorem effect_ne_running {child : ChildState} (h : child ≠ .running) (event : Event) :
    event.effect child ≠ .running := by
  unfold Event.effect
  split
  · rwa [if_neg h]
  · decide
  · exact h

theorem effect_of_unguarded {event : Event} (h : event.unguarded = true) (child : ChildState) :
    event.effect child = child := by
  cases event with
  | childExits => cases h
  | wait ok => cases h
  | _ => rfl

theorem childAfter_concat (events : List Event) (event : Event) :
    childAfter (events ++ [event]) = event.effect (childAfter events) := by
  rw [childAfter, List.foldl_append]
  rfl

theorem guarded_nil : Guarded [] := by
  intro before event after h
  cases before <;> cases h

theorem guarded_concat {events : List Event} {event : Event} :
    Guarded (events ++ [event]) ↔
      Guarded events ∧ (event.unguarded = true → childAfter events ≠ .running) := by
  constructor
  · intro h
    refine ⟨fun before event' after heq => ?_, h events event [] rfl⟩
    apply h before event' (after ++ [event])
    rw [heq, List.append_assoc, List.cons_append]
  · rintro ⟨hevents, hlast⟩ before event' after heq
    rcases List.eq_nil_or_concat' after with rfl | ⟨rest, last, rfl⟩
    · obtain ⟨rfl, hsame⟩ := List.append_inj' heq rfl
      cases hsame
      exact hlast
    · rw [← List.cons_append, ← List.append_assoc] at heq
      exact hevents before event' rest (List.append_inj' heq rfl).1

/-! ## One outcome -/

/-- Nothing has gone wrong so far; with `gone`, the child has ended. -/
structure Fine (events : List Event) (gone : Bool) (w : World) : Prop where
  trace : w.past ++ w.future = events
  guarded : Guarded w.past
  child : gone = true → w.child ≠ .running

structure Arrived (events : List Event) (gone : Bool) (event : Event) (w : World) : Prop where
  trace : w.past ++ w.future = events
  before : ∃ before, w.past = before ++ [event] ∧ Guarded before ∧
    (gone = true → childAfter before ≠ .running)

structure Failed (events : List Event) (w : World) : Prop where
  trace : w.past ++ w.future = events
  settled : (∀ event ∈ w.past, event.excused = false) →
    (w.child ≠ .running ↔ Guarded w.past)

variable {events : List Event} {gone : Bool} {event : Event} {w : World}

theorem Arrived.fine (h : Arrived events gone event w) (hsafe : event.unguarded = false) :
    Fine events gone w := by
  obtain ⟨before, hpast, hguarded, hchild⟩ := h.before
  refine ⟨h.trace, ?_, fun hgone => ?_⟩
  · rw [hpast, guarded_concat, hsafe]
    exact ⟨hguarded, fun himpossible => by cases himpossible⟩
  · rw [World.child, hpast, childAfter_concat]
    exact effect_ne_running (hchild hgone) event

theorem Arrived.unguarded (h : Arrived events gone event w) (hfails : event.unguarded = true) :
    Failed events w := by
  obtain ⟨before, hpast, hguarded, -⟩ := h.before
  refine ⟨h.trace, fun _ => ?_⟩
  rw [World.child, hpast, childAfter_concat, effect_of_unguarded hfails, guarded_concat]
  exact ⟨fun hchild => ⟨hguarded, fun _ => hchild⟩, fun hall => hall.2 hfails⟩

theorem Arrived.excused (h : Arrived events gone event w) (hfails : event.excused = true) :
    Failed events w := by
  obtain ⟨before, hpast, -⟩ := h.before
  refine ⟨h.trace, fun hnone => ?_⟩
  have hevent := hnone event (by rw [hpast]; simp)
  rw [hfails] at hevent
  cases hevent

theorem Fine.failed (h : Fine events true w) : Failed events w :=
  ⟨h.trace, fun _ => ⟨fun _ => h.guarded, fun _ => h.child rfl⟩⟩

theorem takeOutcome_spec {past future : List Event} {w' : World} {r : Except QemuError Event}
    (h : Fine events gone ⟨past, future⟩) (hrun : takeOutcome past future = some (r, w')) :
    ∃ event, r = .ok event ∧ Arrived events gone event w' := by
  induction future generalizing past with
  | nil => cases hrun
  | cons event future ih =>
      have harrived : Arrived events gone event ⟨past ++ [event], future⟩ := by
        refine ⟨?_, past, rfl, h.guarded, h.child⟩
        rw [← h.trace]
        simp
      cases event with
      | childExits => exact ih (harrived.fine rfl) hrun
      | _ =>
          cases hrun
          exact ⟨_, rfl, harrived⟩

theorem ensures_nextOutcome :
    Attempt.Ensures (Fine events gone) nextOutcome (fun event => Arrived events gone event)
      (Failed events) := by
  intro w h
  constructor
  · intro event w' hrun
    obtain ⟨event', heq, harrived⟩ := takeOutcome_spec h hrun
    cases heq
    exact harrived
  · intro e w' hrun
    obtain ⟨event', heq, -⟩ := takeOutcome_spec h hrun
    cases heq

/-! ## Operations -/

theorem ensures_readLog {α : Type} (absent : α) (use : Str → α) :
    Attempt.Ensures (Fine events gone) (readLog absent use) (fun _ => Fine events gone)
      (Failed events) := by
  unfold readLog
  refine .bind ensures_nextOutcome fun event => ?_
  split
  · exact .pure fun _ h => h.fine rfl
  · exact .fail fun _ h => h.unguarded rfl
  · exact .pure fun _ h => h.fine rfl
  · exact .stuck

/-- A poll that succeeds tells whether the child has ended. -/
theorem ensures_tryWait (error : QemuError) :
    Attempt.Ensures (Fine events gone) (tryWait error) (fun exited => Fine events exited)
      (Failed events) := by
  unfold tryWait
  refine .bind ensures_nextOutcome fun event => ?_
  split
  · refine .current_bind fun w => .pure ?_
    rintro _ ⟨rfl, h⟩
    have hfine := h.fine rfl
    exact ⟨hfine.trace, hfine.guarded, of_decide_eq_true⟩
  · exact .fail fun _ h => h.excused rfl
  · exact .stuck

theorem ensures_readChildStderr :
    Attempt.Ensures (Fine events true) readChildStderr (fun _ => Fine events true)
      (Failed events) := by
  unfold readChildStderr
  refine .bind ensures_nextOutcome fun event => ?_
  split
  · exact .pure fun _ h => h.fine rfl
  · exact .fail fun _ h => (h.fine rfl).failed
  · exact .stuck

theorem ensures_killChild :
    Attempt.Ensures (Fine events gone) killChild (fun _ => Fine events gone) (Failed events) := by
  unfold killChild
  refine .bind ensures_nextOutcome fun event => ?_
  split
  · next ok =>
      cases ok with
      | true => exact .pure fun _ h => h.fine rfl
      | false => exact .fail fun _ h => h.excused rfl
  · exact .stuck

theorem ensures_waitChild :
    Attempt.Ensures (Fine events gone) waitChild (fun _ => Fine events true) (Failed events) := by
  unfold waitChild
  refine .bind ensures_nextOutcome fun event => ?_
  split
  · next ok =>
      cases ok with
      | true =>
          apply Attempt.Ensures.pure
          intro w h
          have hfine := h.fine rfl
          obtain ⟨before, hpast, -⟩ := h.before
          refine ⟨hfine.trace, hfine.guarded, fun _ => ?_⟩
          rw [World.child, hpast, childAfter_concat]
          exact fun hrunning => by cases hrunning
      | false => exact .fail fun _ h => h.excused rfl
  · exact .stuck

theorem ensures_terminateChild :
    Attempt.Ensures (Fine events gone) terminateChild (fun _ => Fine events true)
      (Failed events) := by
  unfold terminateChild
  refine .bind (ensures_tryWait .inspect) fun exited => ?_
  cases exited with
  | true => exact .pure fun _ h => h
  | false => exact .bind ensures_killChild fun _ => ensures_waitChild

theorem ensures_clockExpired :
    Attempt.Ensures (Fine events gone) clockExpired (fun _ => Fine events gone)
      (Failed events) := by
  unfold clockExpired
  refine .bind ensures_nextOutcome fun event => ?_
  split
  · exact .pure fun _ h => h.fine rfl
  · exact .stuck

/-- Every way out of the loop looks after the child, except a log that cannot be read. -/
theorem ensures_pollLog {waiting : Waiting} {found : Check Unit} {marker : Str}
    {Q : Unit → World → Prop}
    (hfound : Attempt.Ensures (Fine events false) found Q (Failed events)) (fuel : Nat) :
    Attempt.Ensures (Fine events false) (pollLog waiting found marker fuel) Q (Failed events) := by
  induction fuel with
  | zero => exact .stuck
  | succ fuel ih =>
      unfold pollLog
      refine .bind (ensures_readLog _ _) fun seen => ?_
      cases seen with
      | true => exact hfound
      | false =>
          refine .bind (ensures_tryWait .poll) fun exited => ?_
          cases exited with
          | true =>
              refine .bind ensures_readChildStderr fun stderr => ?_
              refine .bind (ensures_readLog _ _) fun tail => ?_
              exact .fail fun _ h => h.failed
          | false =>
              refine .bind ensures_clockExpired fun expired => ?_
              cases expired with
              | true =>
                  refine .bind (ensures_readLog _ _) fun tail => ?_
                  exact .bind ensures_terminateChild fun _ => .fail fun _ h => h.failed
              | false => exact ih

theorem ensures_waitForLogMarker (marker : Str) (fuel : Nat) :
    Attempt.Ensures (Fine events false) (waitForLogMarker marker fuel)
      (fun _ => Fine events false) (Failed events) :=
  ensures_pollLog (.pure fun _ h => h) fuel

theorem ensures_connectMonitor (fuel : Nat) :
    Attempt.Ensures (Fine events gone) (connectMonitor fuel) (fun _ => Fine events gone)
      (Failed events) := by
  induction fuel with
  | zero => exact .stuck
  | succ fuel ih =>
      unfold connectMonitor
      refine .bind ensures_nextOutcome fun event => ?_
      split
      · exact .pure fun _ h => h.fine rfl
      · next expired =>
          cases expired with
          | true => exact .fail fun _ h => h.unguarded rfl
          | false => exact ih.weaken (fun _ h => h.fine rfl) (fun _ _ h => h) fun _ h => h
      · exact .stuck

theorem ensures_sendMonitorCommand :
    Attempt.Ensures (Fine events gone) sendMonitorCommand (fun _ => Fine events gone)
      (Failed events) := by
  unfold sendMonitorCommand
  refine .bind ensures_nextOutcome fun event => ?_
  split
  · next ok =>
      cases ok with
      | true => exact .pure fun _ h => h.fine rfl
      | false => exact .fail fun _ h => h.unguarded rfl
  · exact .stuck

theorem ensures_sendLines (lines : List Str) :
    Attempt.Ensures (Fine events gone) (sendLines lines) (fun _ => Fine events gone)
      (Failed events) := by
  induction lines with
  | nil => exact .pure fun _ h => h
  | cons line rest ih => exact .bind ensures_sendMonitorCommand fun _ => ih

/-- The commands of the script have only keys that can be sent. -/
theorem ensures_typeShellCommand {command : Str} (hkeys : (sendShellCommand command).2 = .ok ()) :
    Attempt.Ensures (Fine events gone) (typeShellCommand command) (fun _ => Fine events gone)
      (Failed events) := by
  unfold typeShellCommand
  rw [hkeys]
  exact .bind (ensures_sendLines _) fun _ => .pure fun _ h => h

theorem ensures_validatePpmScreenshot :
    Attempt.Ensures (Fine events gone) validatePpmScreenshot (fun _ => Fine events gone)
      (Failed events) := by
  unfold validatePpmScreenshot
  refine .bind ensures_nextOutcome fun event => ?_
  split
  · next file =>
      cases hfile : validatePpm file with
      | ok =>
          refine .pure fun _ h => h.fine ?_
          simp [Event.unguarded, hfile, Except.isOk, Except.toBool]
      | error error =>
          refine .fail fun _ h => h.unguarded ?_
          simp [Event.unguarded, hfile, Except.isOk, Except.toBool]
  · exact .stuck

/-! ## The two checks -/

theorem ensures_verifyQemuBoot (successMarker : Str) (fuel : Nat) :
    Attempt.Ensures (Fine events false) (verifyQemuBoot successMarker fuel)
      (fun _ => Fine events true) (Failed events) :=
  ensures_pollLog ensures_terminateChild fuel

theorem ensures_verifyQemuShell (successMarker : Str) (fuel : Nat) :
    Attempt.Ensures (Fine events false) (verifyQemuShell successMarker fuel)
      (fun _ => Fine events true) (Failed events) := by
  have hwait : ∀ marker, Attempt.Ensures (Fine events false) (waitForLogMarker marker fuel)
      (fun _ => Fine events false) (Failed events) :=
    fun marker => ensures_waitForLogMarker marker fuel
  unfold verifyQemuShell
  refine .bind (hwait _) fun _ => .bind (hwait _) fun _ => ?_
  refine .bind (ensures_connectMonitor fuel) fun _ => ?_
  refine .bind (ensures_typeShellCommand (by decide)) fun _ => ?_
  refine .bind (ensures_typeShellCommand (by decide)) fun _ => ?_
  refine .bind (ensures_typeShellCommand (by decide)) fun _ => ?_
  refine .bind ensures_sendMonitorCommand fun _ => ?_
  refine .bind (hwait _) fun _ => .bind (hwait _) fun _ => .bind (hwait _) fun _ => ?_
  exact .bind ensures_validatePpmScreenshot fun _ => ensures_terminateChild

theorem settled_iff {m : Check Unit} {r : Except QemuError Unit}
    (h : Attempt.Ensures (Fine events false) m (fun _ => Fine events true) (Failed events))
    (hrun : m ⟨[], events⟩ = some (r, w)) (hend : w.future = [])
    (hexcused : ∀ event ∈ events, event.excused = false) :
    w.child ≠ .running ↔ Guarded events := by
  have hends := h ⟨[], events⟩ ⟨rfl, guarded_nil, fun himpossible => by cases himpossible⟩
  cases r with
  | ok =>
      have hfine := hends.1 () w hrun
      have hpast : w.past = events := by simpa [hend] using hfine.trace
      exact ⟨fun _ => hpast ▸ hfine.guarded, fun _ => hfine.child rfl⟩
  | error e =>
      have hfailed := hends.2 e w hrun
      have hpast : w.past = events := by simpa [hend] using hfailed.trace
      rw [← hpast] at hexcused ⊢
      exact hfailed.settled hexcused

/-- Both checks return with QEMU ended exactly when no unguarded operation fails
while it is running. -/
theorem child_ended_iff_guarded (successMarker : Str) (fuel : Nat) {events : List Event}
    {r : Except QemuError Unit} {w : World} (hend : w.future = [])
    (hexcused : ∀ event ∈ events, event.excused = false) :
    (verifyQemuBoot successMarker fuel ⟨[], events⟩ = some (r, w) →
      (w.child ≠ .running ↔ Guarded events)) ∧
    (verifyQemuShell successMarker fuel ⟨[], events⟩ = some (r, w) →
      (w.child ≠ .running ↔ Guarded events)) := by
  constructor
  · intro hrun
    exact settled_iff (ensures_verifyQemuBoot successMarker fuel) hrun hend hexcused
  · intro hrun
    exact settled_iff (ensures_verifyQemuShell successMarker fuel) hrun hend hexcused

def bootMarker : Str := "AetherOS: kernel initialized".toList

def quickBoot : List Event :=
  [.readLog (.contents bootMarker), .poll true, .kill true, .wait true]

theorem child_ended_iff_guarded_quick :
    ∃ w, verifyQemuBoot bootMarker 1 ⟨[], quickBoot⟩ = some (.ok (), w) ∧
      (w.child ≠ .running ↔ Guarded quickBoot) := by
  refine ⟨⟨quickBoot, []⟩, rfl, ?_⟩
  exact (child_ended_iff_guarded bootMarker 1 rfl (by simp [quickBoot, Event.excused])).1 rfl

/-- QEMU is up and the shell is ready, but the monitor port cannot be reached. -/
def monitorUnreachable : List Event :=
  [.readLog (.contents bootMarker), .readLog (.contents "AetherOS shell ready".toList),
    .connect (.refused true)]

theorem monitorUnreachable_leaves_child :
    (∀ event ∈ monitorUnreachable, event.excused = false) ∧
      ∃ w, verifyQemuShell bootMarker 1 ⟨[], monitorUnreachable⟩ = some (.error .connect, w) ∧
        w.child = .running := by
  refine ⟨by simp [monitorUnreachable, Event.excused], ⟨monitorUnreachable, []⟩, rfl, rfl⟩

end AetherOs.Xtask
