import AetherOs.Drivers.Serial
import AetherOs.Kernel.Entry
import AetherOs.Xtask.Qemu
/-!
# What a boot check says about the kernel

The kernel's log goes through the serial driver and the chip into a file, which
`xtask` reads while it grows and searches for markers.  The file holds what the
chip has sent so far, with carriage returns, and is read as UTF-8.
-/

namespace AetherOs.Xtask

open AetherOs.Support AetherOs.Support.Text AetherOs.Boot AetherOs.Kernel
open AetherOs.Drivers AetherOs.Drivers.Serial

/-! ## The log in the file -/

theorem wireBytes_singleton {c : Char} (h : c.toNat < 128) :
    wireBytes [c] = asBytes (crlf [c]) := by
  have hbyte : asBytes [c] = [UInt8.ofNat c.toNat] := by
    have hascii : Ascii [c] := by simpa [Ascii] using h
    rw [asBytes_of_ascii hascii]
    rfl
  by_cases hc : c = '\n'
  · rw [hc]
    decide
  · have hne : UInt8.ofNat c.toNat ≠ 0x0A := by
      intro heq
      apply hc
      apply Char.ext
      apply UInt32.toNat_inj.mp
      have hval := congrArg UInt8.toNat heq
      rw [UInt8.toNat_ofNat_of_lt' (lt_trans h (by decide))] at hval
      exact hval
    rw [wireBytes, hbyte, List.flatMap_singleton, if_neg hne, crlf, List.flatMap_singleton,
      if_neg hc, hbyte]

theorem wireBytes_of_ascii {text : Str} (h : Ascii text) :
    wireBytes text = asBytes (crlf text) := by
  induction text with
  | nil => rfl
  | cons c text ih =>
      have hc := wireBytes_singleton (h c List.mem_cons_self)
      have htext := ih fun c' hc' => h c' (List.mem_cons_of_mem c hc')
      rw [← List.singleton_append, wireBytes_append, crlf_append, hc, htext]
      simp [asBytes]

theorem ascii_crlf {text : Str} (h : Ascii text) : Ascii (crlf text) := by
  intro c hc
  obtain ⟨c', hc', hmem⟩ := List.mem_flatMap.mp hc
  split_ifs at hmem
  · simp only [List.mem_cons, List.not_mem_nil, or_false] at hmem
    rcases hmem with rfl | rfl <;> decide
  · rw [List.mem_singleton.mp hmem]
    exact h c' hc'

/-- A file cut off anywhere in ASCII text still holds a prefix of the text. -/
theorem exists_prefix_of_ascii {text : Str} (h : Ascii text) {bytes : List UInt8}
    (hbytes : bytes <+: asBytes text) : ∃ shown, shown <+: text ∧ bytes = asBytes shown := by
  have hshown : Ascii (text.take bytes.length) := fun c hc => h c (List.mem_of_mem_take hc)
  refine ⟨text.take bytes.length, List.take_prefix _ _, ?_⟩
  rw [asBytes_of_ascii hshown, List.map_take, ← asBytes_of_ascii h]
  exact List.prefix_iff_eq_take.mp hbytes

theorem ascii_of_legible {text : Str} (h : Legible text) : Ascii text := by
  intro c hc
  rcases h c hc with hprintable | rfl | rfl
  · obtain ⟨-, hle⟩ := hprintable
    omega
  · decide
  · decide

theorem notMem_of_legible {text : Str} (h : Legible text) : '\r' ∉ text := by
  intro hmem
  have hcases := h '\r' hmem
  revert hcases
  decide

/-! ## Lines of the file -/

theorem stripReturn_of_notMem {line : Str} (h : '\r' ∉ line) : stripReturn line = line := by
  unfold stripReturn
  rw [if_neg]
  exact fun hlast => h (List.mem_of_getLast? hlast)

theorem stripReturn_concat (line : Str) : stripReturn (line ++ ['\r']) = line := by
  simp [stripReturn]

theorem lines_append_cons {line : Str} (h : '\n' ∉ line) (rest : Str) :
    lines (line ++ '\n' :: rest) = stripReturn line :: lines rest := by
  have hne := List.splitOn_ne_nil '\n' rest
  have hlast : (line :: rest.splitOn '\n').getLast? = (rest.splitOn '\n').getLast? :=
    List.getLast?_cons_of_ne_nil hne
  unfold lines
  dsimp only
  rw [List.splitOn_append_cons_self_of_not_mem h, hlast, List.dropLast_cons_of_ne_nil hne,
    List.map_cons]
  split_ifs <;> rfl

theorem lines_crlf {text : Str} (h : '\r' ∉ text) : lines (crlf text) = lines text := by
  revert h
  refine line_cases (P := fun text => '\r' ∉ text → lines (crlf text) = lines text) ?_ ?_ text
  · intro line hline _
    rw [crlf_line hline]
  · intro line rest hline ih h
    simp only [List.mem_append, List.mem_cons, not_or] at h
    have hreturned : '\n' ∉ line ++ ['\r'] := by simp [hline]
    rw [crlf_append_cons hline, lines_append_cons hreturned, stripReturn_concat, ih h.2.2,
      lines_append_cons hline, stripReturn_of_notMem h.1]

/-! ## Reading the file -/

def Silent (start : Uart) : Prop := start.wire = [] ∧ start.queue = []

/-- The file may hold `bytes` when the kernel has written `log`. -/
def Received (start : Uart) (log : Str) (bytes : List UInt8) : Prop :=
  ∃ labels : List SerialLabel,
    logText (Runs.exec (Ports.step uartDevice writeStr) (powerOn start) labels).calls = log ∧
      (Runs.exec (Ports.step uartDevice writeStr) (powerOn start) labels).device.wire = bytes

theorem Received.sent {start : Uart} (hsilent : Silent start) {log : Str} {bytes : List UInt8}
    (h : Received start log bytes) : bytes <+: wireBytes log := by
  obtain ⟨labels, rfl, rfl⟩ := h
  obtain ⟨stale, hstale, hcut⟩ := (inOrder_run start labels).inv Drains.refl
  rw [hsilent.2, List.sublist_nil] at hstale
  rw [hsilent.1, hstale] at hcut
  exact hcut

def resetUart : Uart := ⟨⟨0, 0, 0, 0x0C, 0, false⟩, [], none, [], []⟩

theorem received_all {start : Uart} (hsilent : Silent start) (log : Str) :
    Received start log (wireBytes log) := by
  obtain ⟨first, uart, -, hfirst, -⟩ : CanReach (powerOn start) .done := canReach_done trivial
  have hwaits : WaitsForRoom (Ports.step uartDevice writeStr
      ⟨uart, .done, []⟩ (.call log)).driver := waitsForRoom_writeStr log
  obtain ⟨second, final, -, hsecond, hqueue⟩ := canReach_done hwaits
  have hrun : Runs.exec (Ports.step uartDevice writeStr) (powerOn start)
      (first ++ .call log :: second) = ⟨final, .done, [log]⟩ := by
    rw [Runs.exec_append, hfirst, Runs.exec_cons]
    exact hsecond
  have horder := inOrder_run start (first ++ .call log :: second)
  rw [hrun] at horder
  obtain ⟨-, stale, hstale, hbytes⟩ := horder.rest Drains.refl rfl
  have hlog : logText [log] = log := by simp [logText]
  refine ⟨first ++ .call log :: second, by rw [hrun, hlog], ?_⟩
  rw [hsilent.2, List.sublist_nil] at hstale
  rw [hsilent.1, hstale, hlog] at hbytes
  rw [hrun]
  simpa [hqueue] using hbytes

/-- The text that `read_to_string` finds in such a file. -/
theorem exists_read {log : Str} (hlog : Legible log) {bytes : List UInt8}
    (h : bytes <+: wireBytes log) : ∃ shown, fromUtf8 bytes = some shown ∧ shown <+: crlf log := by
  have hascii := ascii_of_legible hlog
  rw [wireBytes_of_ascii hascii] at h
  obtain ⟨shown, hshown, rfl⟩ := exists_prefix_of_ascii (ascii_crlf hascii) h
  exact ⟨shown, fromUtf8_asBytes shown, hshown⟩

def quietLoader : Loader := ⟨true, ⟨some 0, some [], none⟩, 4096⟩

def plainBoot : List (Interrupts.Label Irq UInt8) := List.replicate 70 .run

theorem silent_resetUart : Silent resetUart := ⟨rfl, rfl⟩

/-- The first line of the file. -/
example : (lines (kernelLog quietLoader unblocked [])).head? =
    some "AetherOS: boot [entry] kernel entry reached".toList := by decide +kernel

/-! ## Waiting for a marker -/

def Sticky (P : World → Prop) : Prop :=
  ∀ past event future, P ⟨past, event :: future⟩ → P ⟨past ++ [event], future⟩

def Seen (marker : Str) (w : World) : Prop :=
  ∃ log, Event.readLog (.contents log) ∈ w.past ∧ marker <:+: log

theorem sticky_seen (marker : Str) : Sticky (Seen marker) := by
  rintro past event future ⟨log, hmem, hmarker⟩
  exact ⟨log, List.mem_append_left _ hmem, hmarker⟩

def Within (events : List Event) (w : World) : Prop := w.past ++ w.future = events

theorem sticky_within (events : List Event) : Sticky (Within events) := by
  intro past event future h
  rw [Within, List.append_assoc]
  exact h

theorem Sticky.and {P P' : World → Prop} (h : Sticky P) (h' : Sticky P') :
    Sticky fun w => P w ∧ P' w :=
  fun past event future hw => ⟨h past event future hw.1, h' past event future hw.2⟩

abbrev Stays {α : Type} (P : World → Prop) (m : Check α) : Prop :=
  Attempt.Ensures P m (fun _ => P) fun _ => True

variable {P : World → Prop}

theorem takeOutcome_sticky (hP : Sticky P) {past future : List Event} {w : World}
    {r : Except QemuError Event} (h : P ⟨past, future⟩)
    (hrun : takeOutcome past future = some (r, w)) :
    P w ∧ ∀ event, r = .ok event → event ∈ w.past := by
  induction future generalizing past with
  | nil => cases hrun
  | cons event future ih =>
      have hnext := hP past event future h
      cases event with
      | childExits => exact ih hnext hrun
      | _ =>
          cases hrun
          refine ⟨hnext, fun event hevent => ?_⟩
          cases hevent
          exact List.mem_append_right _ List.mem_cons_self

theorem stays_nextOutcome (hP : Sticky P) :
    Attempt.Ensures P nextOutcome (fun event w => P w ∧ event ∈ w.past) fun _ => True := by
  intro w hw
  refine ⟨fun event w' hrun => ?_, fun _ _ _ => trivial⟩
  obtain ⟨hP', hmem⟩ := takeOutcome_sticky hP hw hrun
  exact ⟨hP', hmem event rfl⟩

theorem stays_containsMarker (hP : Sticky P) (marker : Str) :
    Attempt.Ensures P (containsMarker marker) (fun seen w => P w ∧ (seen = true → Seen marker w))
      fun _ => True := by
  refine .bind (stays_nextOutcome hP) fun event => ?_
  split
  · exact .pure fun _ h => ⟨h.1, fun himpossible => by cases himpossible⟩
  · exact .fail fun _ _ => trivial
  · next log =>
      refine .pure fun w h => ⟨h.1, fun hseen => ⟨log, h.2, of_decide_eq_true hseen⟩⟩
  · exact .stuck

theorem stays_tryWait (hP : Sticky P) (error : QemuError) : Stays P (tryWait error) := by
  refine .bind (stays_nextOutcome hP) fun event => ?_
  split
  · refine .current_bind fun w => .pure ?_
    rintro _ ⟨rfl, h⟩
    exact h.1
  · exact .fail fun _ _ => trivial
  · exact .stuck

theorem stays_expect (ok : Bool) (error : QemuError) {event : Event} :
    Attempt.Ensures (fun w => P w ∧ event ∈ w.past) (Attempt.expect ok error) (fun _ => P)
      fun _ => True := by
  cases ok with
  | true => exact .pure fun _ h => h.1
  | false => exact .fail fun _ _ => trivial

theorem stays_terminateChild (hP : Sticky P) : Stays P terminateChild := by
  have hkill : Stays P killChild := by
    refine .bind (stays_nextOutcome hP) fun event => ?_
    split
    · exact stays_expect _ _
    · exact .stuck
  have hwait : Stays P waitChild := by
    refine .bind (stays_nextOutcome hP) fun event => ?_
    split
    · exact stays_expect _ _
    · exact .stuck
  refine .bind (stays_tryWait hP _) fun exited => ?_
  cases exited with
  | true => exact .pure fun _ h => h
  | false => exact .bind hkill fun _ => hwait

theorem stays_clockExpired (hP : Sticky P) : Stays P clockExpired := by
  refine .bind (stays_nextOutcome hP) fun event => ?_
  split
  · exact .pure fun _ h => h.1
  · exact .stuck

theorem ensures_any {α : Type} (m : Check α) :
    Attempt.Ensures P m (fun _ _ => True) fun _ => True :=
  fun _ _ => ⟨fun _ _ _ => trivial, fun _ _ _ => trivial⟩

/-- The loop ends well only after a log with the marker has been read. -/
theorem ensures_pollLog_seen (hP : Sticky P) {waiting : Waiting} {found : Check Unit} {marker : Str}
    {Q : Unit → World → Prop}
    (hfound : Attempt.Ensures (fun w => P w ∧ Seen marker w) found Q fun _ => True) (fuel : Nat) :
    Attempt.Ensures P (pollLog waiting found marker fuel) Q fun _ => True := by
  induction fuel with
  | zero => exact .stuck
  | succ fuel ih =>
      unfold pollLog
      refine .bind (stays_containsMarker hP marker) fun seen => ?_
      cases seen with
      | true => exact hfound.weaken (fun w h => ⟨h.1, h.2 rfl⟩) (fun _ _ h => h) fun _ h => h
      | false =>
          refine Attempt.Ensures.weaken ?_ (fun w h => h.1) (fun _ _ h => h) fun _ h => h
          refine .bind (stays_tryWait hP .poll) fun exited => ?_
          cases exited with
          | true =>
              -- both ways out are errors
              exact .bind (ensures_any _) fun _ => .bind (ensures_any _) fun _ =>
                .fail fun _ _ => trivial
          | false =>
              refine .bind (stays_clockExpired hP) fun expired => ?_
              cases expired with
              | true =>
                  exact .bind (ensures_any _) fun _ => .bind (ensures_any _) fun _ =>
                    .fail fun _ _ => trivial
              | false => exact ih

theorem ensures_verifyQemuBoot_seen (hP : Sticky P) (successMarker : Str) (fuel : Nat) :
    Attempt.Ensures P (verifyQemuBoot successMarker fuel)
      (fun _ w => P w ∧ Seen successMarker w) fun _ => True :=
  ensures_pollLog_seen hP (stays_terminateChild (hP.and (sticky_seen successMarker))) fuel

theorem stays_waitForLogMarker (hP : Sticky P) (marker : Str) (fuel : Nat) :
    Stays P (waitForLogMarker marker fuel) :=
  ensures_pollLog_seen hP (.pure fun _ h => h.1) fuel

theorem stays_connectMonitor (hP : Sticky P) (fuel : Nat) : Stays P (connectMonitor fuel) := by
  induction fuel with
  | zero => exact .stuck
  | succ fuel ih =>
      refine .bind (stays_nextOutcome hP) fun event => ?_
      split
      · exact .pure fun _ h => h.1
      · split_ifs
        · exact .fail fun _ _ => trivial
        · exact ih.weaken (fun _ h => h.1) (fun _ _ h => h) fun _ h => h
      · exact .stuck

theorem stays_sendMonitorCommand (hP : Sticky P) : Stays P sendMonitorCommand := by
  refine .bind (stays_nextOutcome hP) fun event => ?_
  split
  · exact stays_expect _ _
  · exact .stuck

theorem stays_typeShellCommand (hP : Sticky P) (command : Str) :
    Stays P (typeShellCommand command) := by
  have hlines : ∀ texts, Stays P (sendLines texts) := by
    intro texts
    induction texts with
    | nil => exact .pure fun _ h => h
    | cons text texts ih => exact .bind (stays_sendMonitorCommand hP) fun _ => ih
  refine .bind (hlines _) fun _ => ?_
  split
  · exact .pure fun _ h => h
  · exact .fail fun _ _ => trivial

theorem stays_validatePpmScreenshot (hP : Sticky P) : Stays P validatePpmScreenshot := by
  refine .bind (stays_nextOutcome hP) fun event => ?_
  split
  · split
    · exact .pure fun _ h => h.1
    · exact .fail fun _ _ => trivial
  · exact .stuck

theorem ensures_verifyQemuShell_seen (hP : Sticky P) (successMarker : Str) (fuel : Nat) :
    Attempt.Ensures P (verifyQemuShell successMarker fuel)
      (fun _ w => P w ∧ Seen successMarker w) fun _ => True := by
  have hfirst : Attempt.Ensures P (waitForLogMarker successMarker fuel)
      (fun _ w => P w ∧ Seen successMarker w) fun _ => True :=
    ensures_pollLog_seen hP (.pure fun _ h => h) fuel
  replace hP := hP.and (sticky_seen successMarker)
  unfold verifyQemuShell
  refine .bind hfirst fun _ => ?_
  refine .bind (stays_waitForLogMarker hP _ _) fun _ => ?_
  refine .bind (stays_connectMonitor hP _) fun _ => ?_
  refine .bind (stays_typeShellCommand hP _) fun _ => ?_
  refine .bind (stays_typeShellCommand hP _) fun _ => ?_
  refine .bind (stays_typeShellCommand hP _) fun _ => ?_
  refine .bind (stays_sendMonitorCommand hP) fun _ => ?_
  refine .bind (stays_waitForLogMarker hP _ _) fun _ => ?_
  refine .bind (stays_waitForLogMarker hP _ _) fun _ => ?_
  refine .bind (stays_waitForLogMarker hP _ _) fun _ => ?_
  exact .bind (stays_validatePpmScreenshot hP) fun _ => stays_terminateChild hP

/-! ## The check as a whole -/

/-- The default of `boot_success_marker` is what the kernel prints. -/
theorem bootMarker_eq : bootMarker = initializedMarker := rfl

theorem notMem_bootMarker : '\n' ∉ bootMarker ∧ '\r' ∉ bootMarker := by
  rw [bootMarker_eq, initializedMarker_eq]
  decide

/-- Every log that the check reads is one of the run, as far as it has been sent;
while `enter` runs it is the log of no steps, of which little has been sent. -/
def Watches (loader : Loader) (policy : KernelState → Irq → Bool)
    (labels : List (Interrupts.Label Irq UInt8)) (start : Uart) (events : List Event) : Prop :=
  ∀ log, Event.readLog (.contents log) ∈ events →
    ∃ n bytes, Received start (kernelLog loader policy (labels.take n)) bytes ∧
      fromUtf8 bytes = some log

def promptEvents (log : Str) : List Event :=
  [.readLog (.contents (crlf log)), .poll true, .kill true, .wait true]

theorem verifyQemuBoot_promptEvents {log : Str} (h : bootMarker <:+: crlf log) (fuel : Nat) :
    verifyQemuBoot bootMarker (fuel + 1) ⟨[], promptEvents log⟩ =
      some (.ok (), ⟨promptEvents log, []⟩) := by
  have hseen : containsMarker bootMarker ⟨[], promptEvents log⟩ =
      some (.ok true,
        ⟨[.readLog (.contents (crlf log))], [.poll true, .kill true, .wait true]⟩) := by
    change some (Except.ok (decide (bootMarker <:+: crlf log)), _) = _
    rw [decide_eq_true h]
    rfl
  unfold verifyQemuBoot pollLog
  rw [Attempt.bind_ok hseen]
  rfl

end AetherOs.Xtask
