import AetherOs.Support.Ports
import AetherOs.Support.Text
import Mathlib.Data.List.Infix
/-!
# The serial port

`SerialPort` of `kernel/src/arch/x86_64/serial.rs` in front of a 16550: a
transmit FIFO of sixteen bytes behind the holding register, a shift register
that takes one byte at a time from it, and the divisor latch that hides the
first two ports while the access bit of the line control register is set.  A
byte that finds the FIFO full is lost.  The chip shifts bytes out when it
pleases.

`Uart` starts in any state, as the firmware left it.
-/

namespace AetherOs.Drivers.Serial

open AetherOs.Support AetherOs.Support.Text AetherOs.Support.Ports

/-! ## The chip -/

inductive Port where
  | data
  | interruptEnable
  | fifoControl
  | lineControl
  | modemControl
  | lineStatus
  deriving DecidableEq, Repr

structure Registers where
  interruptEnable : UInt8
  lineControl : UInt8
  modemControl : UInt8
  divisorLow : UInt8
  divisorHigh : UInt8
  fifoEnabled : Bool
  deriving DecidableEq, Repr

namespace Registers

def divisorAccess (registers : Registers) : Bool := registers.lineControl &&& 0x80 ≠ 0

def loopback (registers : Registers) : Bool := registers.modemControl &&& 0x10 ≠ 0

def write (port : Port) (value : UInt8) (registers : Registers) : Registers :=
  match port with
  | .data =>
      if registers.divisorAccess then { registers with divisorLow := value } else registers
  | .interruptEnable =>
      if registers.divisorAccess then { registers with divisorHigh := value }
      else { registers with interruptEnable := value &&& 0x0F }
  | .fifoControl => { registers with fifoEnabled := value &&& 0x01 ≠ 0 }
  | .lineControl => { registers with lineControl := value }
  | .modemControl => { registers with modemControl := value }
  | .lineStatus => registers

end Registers

structure Uart where
  registers : Registers
  transmitFifo : List UInt8
  shiftRegister : Option UInt8
  receiveFifo : List UInt8
  /-- the bytes that have left on the line -/
  wire : List UInt8
  deriving DecidableEq, Repr

namespace Uart

def queue (uart : Uart) : List UInt8 := uart.shiftRegister.toList ++ uart.transmitFifo

/-- The FIFO after a byte was written; without FIFO it replaces the one that waits. -/
def transmit (uart : Uart) (byte : UInt8) : List UInt8 :=
  if uart.registers.fifoEnabled then
    if uart.transmitFifo.length < 16 then uart.transmitFifo ++ [byte] else uart.transmitFifo
  else [byte]

/-- Whether a write to the FIFO control register empties a FIFO: its reset bit
counts only together with the enable bit, and switching the FIFOs on or off
empties both. -/
def clears (uart : Uart) (value reset : UInt8) : Bool :=
  let enabled : Bool := value &&& 0x01 ≠ 0
  enabled ≠ uart.registers.fifoEnabled || (enabled && value &&& reset ≠ 0)

def transmitFifoAfter (uart : Uart) (port : Port) (value : UInt8) : List UInt8 :=
  match port with
  | .data => if uart.registers.divisorAccess then uart.transmitFifo else uart.transmit value
  | .fifoControl => if uart.clears value 0x04 then [] else uart.transmitFifo
  | _ => uart.transmitFifo

def receiveFifoAfter (uart : Uart) (port : Port) (value : UInt8) : List UInt8 :=
  match port with
  | .fifoControl => if uart.clears value 0x02 then [] else uart.receiveFifo
  | _ => uart.receiveFifo

def write (port : Port) (value : UInt8) (uart : Uart) : Uart :=
  { uart with
    registers := uart.registers.write port value
    transmitFifo := uart.transmitFifoAfter port value
    receiveFifo := uart.receiveFifoAfter port value }

/-- The status bits that the receiver and the transmitter set. -/
def status (uart : Uart) : UInt8 :=
  (if uart.receiveFifo = [] then 0 else 0x01) |||
    (if uart.transmitFifo = [] then 0x20 else 0) |||
    (if uart.queue = [] then 0x40 else 0)

/-- The driver reads the line status only. -/
def read (port : Port) (uart : Uart) : UInt8 :=
  match port with
  | .lineStatus => uart.status
  | .data => uart.receiveFifo.headD 0
  | .interruptEnable => uart.registers.interruptEnable
  | .fifoControl => 0
  | .lineControl => uart.registers.lineControl
  | .modemControl => uart.registers.modemControl

end Uart

/-- What the chip does on its own: take a byte into the shift register, finish
sending it, receive one. -/
inductive Move where
  | load
  | send
  | receive (byte : UInt8)
  deriving DecidableEq, Repr

def Uart.move (move : Move) (uart : Uart) : Uart :=
  match move with
  | .load =>
      match uart.shiftRegister, uart.transmitFifo with
      | none, byte :: rest => { uart with shiftRegister := some byte, transmitFifo := rest }
      | _, _ => uart
  | .send =>
      match uart.shiftRegister with
      | none => uart
      | some byte =>
          if uart.registers.loopback then
            { uart with shiftRegister := none, receiveFifo := uart.receiveFifo ++ [byte] }
          else { uart with shiftRegister := none, wire := uart.wire ++ [byte] }
  | .receive byte => { uart with receiveFifo := uart.receiveFifo ++ [byte] }

def uartDevice : Device Port Uart Move := ⟨Uart.write, Uart.read, Uart.move⟩

/-! ## The driver -/

def initWrites : List (Port × UInt8) := [
  (.interruptEnable, 0x00),
  (.lineControl, 0x80),
  (.data, 0x03),
  (.interruptEnable, 0x00),
  (.lineControl, 0x03),
  (.fifoControl, 0xC7),
  (.modemControl, 0x0B) ]

def init : Driver Port := .writes initWrites

/-- `LINE_STATUS_TRANSMITTER_EMPTY` is set. -/
def canTransmit (status : UInt8) : Bool := status &&& 0x20 ≠ 0

def writeRawByte (byte : UInt8) : Driver Port :=
  .await .lineStatus canTransmit (.write .data byte .done)

def writeByte (byte : UInt8) : Driver Port :=
  if byte = 0x0A then (writeRawByte 0x0D).andThen (writeRawByte byte) else writeRawByte byte

/-- `SerialPort::write_str`, as one call of `write_fmt` makes it under the mutex. -/
def writeStr (text : Str) : Driver Port := .seq ((asBytes text).map writeByte)

def wireBytes (text : Str) : List UInt8 :=
  (asBytes text).flatMap fun byte => if byte = 0x0A then [0x0D, byte] else [byte]

/-! ## What the chip does to the queue -/

structure Drains (uart uart' : Uart) : Prop where
  registers : uart'.registers = uart.registers
  fifo : uart'.transmitFifo <:+ uart.transmitFifo
  queue : ∃ gone, uart.queue = gone ++ uart'.queue ∧
    uart'.wire = uart.wire ++ if uart.registers.loopback then [] else gone

theorem Drains.refl (uart : Uart) : Drains uart uart :=
  ⟨rfl, List.suffix_refl _, [], rfl, by simp⟩

theorem Drains.trans (uart uart' uart'' : Uart) (h : Drains uart uart')
    (h' : Drains uart' uart'') : Drains uart uart'' := by
  obtain ⟨gone, hqueue, hwire⟩ := h.queue
  obtain ⟨gone', hqueue', hwire'⟩ := h'.queue
  refine ⟨h'.registers.trans h.registers, h'.fifo.trans h.fifo, gone ++ gone', ?_, ?_⟩
  · rw [hqueue, hqueue', List.append_assoc]
  · rw [hwire', hwire, h.registers]
    split_ifs
    · simp
    · rw [List.append_assoc]

theorem drains_move (move : Move) (uart : Uart) : Drains uart (uart.move move) := by
  cases move with
  | receive byte => exact ⟨rfl, List.suffix_refl _, [], rfl, by simp [Uart.move]⟩
  | load =>
      unfold Uart.move
      dsimp only
      split
      · next byte rest hshift hfifo =>
          refine ⟨rfl, ?_, [], ?_, by simp⟩
          · rw [hfifo]
            exact List.suffix_cons byte rest
          · simp [Uart.queue, hshift, hfifo]
      · exact Drains.refl uart
  | send =>
      unfold Uart.move
      dsimp only
      split
      · exact Drains.refl uart
      · next byte hshift =>
          split_ifs with hloop
          · exact ⟨rfl, List.suffix_refl _, [byte], by simp [Uart.queue, hshift], by simp [hloop]⟩
          · exact ⟨rfl, List.suffix_refl _, [byte], by simp [Uart.queue, hshift], by simp [hloop]⟩

theorem canTransmit_status {uart : Uart} :
    canTransmit uart.status = true ↔ uart.transmitFifo = [] := by
  unfold canTransmit Uart.status
  by_cases hreceive : uart.receiveFifo = [] <;> by_cases hfifo : uart.transmitFifo = [] <;>
    by_cases hqueue : uart.queue = [] <;> simp [hreceive, hfifo, hqueue] <;> decide

/-! ## Starting up -/

/-- The registers after `init`: 38400 baud, eight data bits, FIFOs on.  The first
write to the interrupt enable register misses it if the firmware left the
divisor latch open. -/
def settled (registers : Registers) : Registers where
  interruptEnable := if registers.divisorAccess then registers.interruptEnable else 0
  lineControl := 0x03
  modemControl := 0x0B
  divisorLow := 0x03
  divisorHigh := 0x00
  fifoEnabled := true

theorem divisorAccess_settled (registers : Registers) :
    (settled registers).divisorAccess = false := by
  change decide ((0x03 : UInt8) &&& 0x80 ≠ 0) = false
  decide

theorem loopback_settled (registers : Registers) : (settled registers).loopback = false := by
  change decide ((0x0B : UInt8) &&& 0x10 ≠ 0) = false
  decide

def Registers.writeAll (registers : Registers) (accesses : List (Port × UInt8)) : Registers :=
  accesses.foldl (fun registers access => registers.write access.1 access.2) registers

theorem divisorAccess_open {registers : Registers} (h : registers.lineControl = 0x80) :
    registers.divisorAccess = true := by
  rw [Registers.divisorAccess, h]
  decide

theorem writeAll_initWrites (registers : Registers) :
    registers.writeAll initWrites = settled registers := by
  have henabled : (0xC7 : UInt8) &&& 0x01 ≠ 0 := by decide
  by_cases haccess : registers.divisorAccess = true
  · simp [Registers.writeAll, initWrites, Registers.write, settled, haccess, divisorAccess_open,
      henabled]
  · simp [Registers.writeAll, initWrites, Registers.write, settled, haccess, divisorAccess_open,
      henabled]

/-- What the firmware left in the queue has been sent, is still there or was
dropped; nothing else was added to it. -/
def Leftover (start uart : Uart) : Prop :=
  ∃ stale, uart.wire = start.wire ++ stale ∧ (stale ++ uart.queue).Sublist start.queue

theorem Leftover.drains {start uart uart' : Uart} (h : Leftover start uart)
    (hdrains : Drains uart uart') : Leftover start uart' := by
  obtain ⟨stale, hwire, hsub⟩ := h
  obtain ⟨gone, hqueue, hwire'⟩ := hdrains.queue
  rw [hqueue] at hsub
  refine ⟨stale ++ if uart.registers.loopback then [] else gone, ?_, ?_⟩
  · rw [hwire', hwire, List.append_assoc]
  · refine List.Sublist.trans ?_ hsub
    rw [List.append_assoc]
    apply List.Sublist.append_left
    split_ifs
    · exact List.sublist_append_right _ _
    · exact List.Sublist.refl _

theorem Leftover.write {start uart : Uart} (h : Leftover start uart) {port : Port} {value : UInt8}
    (hport : port = .data → uart.registers.divisorAccess = true) :
    Leftover start (uart.write port value) := by
  obtain ⟨stale, hwire, hsub⟩ := h
  refine ⟨stale, hwire, List.Sublist.trans (List.Sublist.append_left ?_ stale) hsub⟩
  apply List.Sublist.append_left
  change (uart.transmitFifoAfter port value).Sublist uart.transmitFifo
  cases port with
  | data => rw [Uart.transmitFifoAfter, if_pos (hport rfl)]
  | fifoControl =>
      rw [Uart.transmitFifoAfter]
      split_ifs
      · exact List.nil_sublist _
      · exact List.Sublist.refl _
  | _ => exact List.Sublist.refl _

/-- Between the writes of `init`: the registers will be settled after those that
are left, and the divisor latch is open when the divisor comes. -/
structure Starting (start : Uart) (rest : List (Port × UInt8)) (uart : Uart) : Prop where
  suffix : rest <:+ initWrites
  registers : uart.registers.writeAll rest = settled start.registers
  leftover : Leftover start uart
  latch : rest.head?.map Prod.fst = some .data → uart.registers.divisorAccess = true

theorem Starting.write {start uart : Uart} {port : Port} {value : UInt8}
    {rest : List (Port × UInt8)} (h : Starting start ((port, value) :: rest) uart) :
    Starting start rest (uart.write port value) where
  suffix := (List.suffix_cons _ _).trans h.suffix
  registers := h.registers
  leftover := h.leftover.write fun hport => h.latch (by rw [hport]; rfl)
  latch := by
    -- the only write of the divisor follows the one that opens the latch
    intro hnext
    have hcases : ∀ tail, tail <:+ initWrites → (tail.tail.head?.map Prod.fst = some .data) →
        tail.head? = some (.lineControl, 0x80) := by
      intro tail htail
      rw [← List.mem_tails] at htail
      revert tail
      decide
    have hhead := hcases _ h.suffix hnext
    cases hhead
    exact divisorAccess_open rfl

/-! ## The log on the wire -/

def logText (calls : List Str) : Str := calls.flatten

/-- The wire has carried bytes of the firmware and then some of the log. -/
def Carries (start : Uart) (calls : List Str) (uart : Uart) : Prop :=
  ∃ stale, stale.Sublist start.queue ∧
    uart.wire <+: start.wire ++ (stale ++ wireBytes (logText calls))

/-- The registers are settled, and what is on the wire, in the queue and still to
be written is the log. -/
structure Sending (start : Uart) (total pending : List UInt8) (uart : Uart) : Prop where
  registers : uart.registers = settled start.registers
  bytes : ∃ stale, stale.Sublist start.queue ∧
    uart.wire ++ (uart.queue ++ pending) = start.wire ++ (stale ++ total)

variable {start uart uart' : Uart} {total pending : List UInt8}

theorem Sending.drains (h : Sending start total pending uart) (hdrains : Drains uart uart') :
    Sending start total pending uart' := by
  obtain ⟨stale, hstale, hbytes⟩ := h.bytes
  obtain ⟨gone, hqueue, hwire⟩ := hdrains.queue
  have hline : uart.registers.loopback = false := by
    rw [h.registers, loopback_settled]
  refine ⟨hdrains.registers.trans h.registers, stale, hstale, ?_⟩
  rw [← hbytes, hqueue, hwire, hline]
  simp

theorem Sending.carries {calls : List Str} (h : Sending start total pending uart)
    (htotal : total = wireBytes (logText calls)) : Carries start calls uart := by
  obtain ⟨stale, hstale, hbytes⟩ := h.bytes
  exact ⟨stale, hstale, uart.queue ++ pending, by rw [hbytes, htotal]⟩

theorem Sending.write {byte : UInt8} (h : Sending start total (byte :: pending) uart)
    (hempty : uart.transmitFifo = []) : Sending start total pending (uart.write .data byte) := by
  obtain ⟨stale, hstale, hbytes⟩ := h.bytes
  have hclosed : uart.registers.divisorAccess = false := by
    rw [h.registers, divisorAccess_settled]
  have henabled : uart.registers.fifoEnabled = true := by
    rw [h.registers]
    rfl
  have hfifo : uart.transmitFifoAfter .data byte = [byte] := by
    simp [Uart.transmitFifoAfter, hclosed, Uart.transmit, henabled, hempty]
  have hregisters : uart.registers.write .data byte = uart.registers := by
    simp [Registers.write, hclosed]
  refine ⟨hregisters.trans h.registers, stale, hstale, ?_⟩
  rw [← hbytes]
  simp [Uart.write, Uart.queue, hfifo, hempty]

/-- Every call of the driver finds the chip as `init` left it. -/
abbrev ConductsCall (start : Uart) (calls : List Str) (Q : Uart → Prop) :
    Driver Port → Uart → Prop :=
  Conducts uartDevice Drains (Carries start calls) Q

theorem conducts_writeRawByte {calls : List Str} {byte : UInt8}
    (htotal : total = wireBytes (logText calls)) (h : Sending start total (byte :: pending) uart) :
    ConductsCall start calls (Sending start total pending) (writeRawByte byte) uart := by
  intro u₁ h₁
  refine ⟨(h.drains h₁).carries htotal, fun hready u₂ h₂ => ?_⟩
  have hsending := (h.drains h₁).drains h₂
  have hempty : u₂.transmitFifo = [] := by
    have hfifo := h₂.fifo
    rw [canTransmit_status.mp hready] at hfifo
    exact List.eq_nil_of_suffix_nil hfifo
  refine ⟨hsending.carries htotal, fun u₃ h₃ => ?_⟩
  have hsent := (hsending.write hempty).drains h₃
  exact ⟨hsent.carries htotal, hsent⟩

theorem conducts_writeByte {calls : List Str} {byte : UInt8}
    (htotal : total = wireBytes (logText calls))
    (h : Sending start total ((if byte = 0x0A then [0x0D, byte] else [byte]) ++ pending) uart) :
    ConductsCall start calls (Sending start total pending) (writeByte byte) uart := by
  unfold writeByte
  split_ifs at h ⊢
  · apply Conducts.andThen Drains.refl
    have hfirst := conducts_writeRawByte htotal h
    exact hfirst.mono fun u hu => conducts_writeRawByte htotal hu
  · exact conducts_writeRawByte htotal h

theorem conducts_writeBytes {calls : List Str} {bytes : List UInt8}
    (htotal : total = wireBytes (logText calls))
    (h : Sending start total
      (bytes.flatMap fun byte => if byte = 0x0A then [0x0D, byte] else [byte]) uart) :
    ConductsCall start calls (Sending start total []) (.seq (bytes.map writeByte)) uart := by
  induction bytes generalizing uart with
  | nil => exact fun u hu => ⟨(h.drains hu).carries htotal, h.drains hu⟩
  | cons byte bytes ih =>
      apply Conducts.andThen Drains.refl
      exact (conducts_writeByte htotal h).mono fun u hu => ih hu

theorem wireBytes_append (text text' : Str) :
    wireBytes (text ++ text') = wireBytes text ++ wireBytes text' := by
  simp [wireBytes, asBytes]

def AtRest (start : Uart) (calls : List Str) (uart : Uart) : Prop :=
  Sending start (wireBytes (logText calls)) [] uart

theorem serialService (start : Uart) :
    Service uartDevice writeStr Drains (Carries start) (AtRest start) where
  refl := Drains.refl
  trans := Drains.trans
  move := drains_move
  call := by
    intro calls text uart h
    obtain ⟨hregisters, stale, hstale, hbytes⟩ := h
    apply conducts_writeBytes rfl
    refine ⟨hregisters, stale, hstale, ?_⟩
    change uart.wire ++ (uart.queue ++ wireBytes text) = _
    have hlog : logText (calls ++ [text]) = logText calls ++ text := by simp [logText]
    rw [List.append_nil] at hbytes
    rw [hlog, wireBytes_append, ← List.append_assoc, hbytes, List.append_assoc, List.append_assoc]

theorem Starting.drains {rest : List (Port × UInt8)} (h : Starting start rest uart)
    (hdrains : Drains uart uart') : Starting start rest uart' := by
  refine ⟨h.suffix, ?_, h.leftover.drains hdrains, ?_⟩
  · rw [hdrains.registers]
    exact h.registers
  · rw [hdrains.registers]
    exact h.latch

theorem Leftover.carries (h : Leftover start uart) : Carries start [] uart := by
  obtain ⟨stale, hwire, hsub⟩ := h
  refine ⟨stale, (List.sublist_append_left stale uart.queue).trans hsub, ?_⟩
  rw [hwire]
  exact (List.prefix_append_right_inj start.wire).mpr (List.prefix_append stale _)

theorem Starting.atRest (h : Starting start [] uart) : AtRest start [] uart := by
  obtain ⟨stale, hwire, hsub⟩ := h.leftover
  refine ⟨h.registers, stale ++ uart.queue, hsub, ?_⟩
  simp [hwire, logText, wireBytes, asBytes]

theorem conducts_init (start : Uart) :
    ConductsCall start [] (AtRest start []) init start := by
  have hstarting : Starting start initWrites start := by
    refine ⟨List.suffix_refl _, writeAll_initWrites _, ⟨[], by simp, List.Sublist.refl _⟩, ?_⟩
    intro hhead
    cases hhead
  refine Conducts.writes (P := Starting start) ?_ ?_ ?_ ?_ hstarting
  · exact fun rest uart uart' hdrains h => h.drains hdrains
  · exact fun port value rest uart h => h.write
  · exact fun rest uart h => h.leftover.carries
  · exact fun uart h => h.atRest

/-! ## Calls end -/

def WaitsForRoom : Driver Port → Prop
  | .done => True
  | .write _ _ k => WaitsForRoom k
  | .read _ k => ∀ value, WaitsForRoom (k value)
  | .await port ready k => port = .lineStatus ∧ ready = canTransmit ∧ WaitsForRoom k

theorem WaitsForRoom.andThen {p q : Driver Port} (hp : WaitsForRoom p) (hq : WaitsForRoom q) :
    WaitsForRoom (p.andThen q) := by
  induction p with
  | done => exact hq
  | write port value k ih => exact ih hp
  | read port k ih => exact fun value => ih value (hp value)
  | await port ready k ih => exact ⟨hp.1, hp.2.1, ih hp.2.2⟩

theorem waitsForRoom_writeByte (byte : UInt8) : WaitsForRoom (writeByte byte) := by
  have hraw : ∀ byte, WaitsForRoom (writeRawByte byte) := fun _ => ⟨rfl, rfl, trivial⟩
  unfold writeByte
  split_ifs
  · exact (hraw _).andThen (hraw _)
  · exact hraw _

theorem waitsForRoom_writeStr (text : Str) : WaitsForRoom (writeStr text) := by
  unfold writeStr
  induction asBytes text with
  | nil => trivial
  | cons byte bytes ih => exact (waitsForRoom_writeByte byte).andThen ih

abbrev SerialLabel : Type := Label Str Move

/-- The steps of a machine that is given no further call. -/
def Ongoing (labels : List SerialLabel) : Prop := ∀ text, .call text ∉ labels

theorem queue_load_send (uart : Uart) : ((uart.move .load).move .send).queue = uart.queue.tail := by
  have hsend : ∀ u : Uart, ∀ byte, u.shiftRegister = some byte →
      (u.move .send).queue = u.transmitFifo := by
    intro u byte hshift
    simp only [Uart.move, hshift]
    split_ifs <;> simp [Uart.queue]
  cases hshift : uart.shiftRegister with
  | some byte =>
      have hload : uart.move .load = uart := by simp only [Uart.move, hshift]
      rw [hload, hsend uart byte hshift]
      simp [Uart.queue, hshift]
  | none =>
      cases hfifo : uart.transmitFifo with
      | nil => simp [Uart.move, Uart.queue, hshift, hfifo]
      | cons byte rest =>
          have hload : uart.move .load =
              { uart with shiftRegister := some byte, transmitFifo := rest } := by
            simp only [Uart.move, hshift, hfifo]
          rw [hload, hsend _ byte rfl]
          simp [Uart.queue, hshift, hfifo]

/-- The machine can come to the rest `driver` of the call with an empty queue. -/
def CanReach (st : State Port Uart Str) (driver : Driver Port) : Prop :=
  ∃ (labels : List SerialLabel) (uart : Uart), Ongoing labels ∧
    Runs.exec (step uartDevice writeStr) st labels = ⟨uart, driver, st.calls⟩ ∧ uart.queue = []

/-- Left to itself the chip empties its queue. -/
theorem canReach_drained (st : State Port Uart Str) : CanReach st st.driver := by
  generalize hlen : st.device.queue.length = n
  induction n generalizing st with
  | zero => exact ⟨[], st.device, by simp [Ongoing], rfl, List.eq_nil_of_length_eq_zero hlen⟩
  | succ n ih =>
      have hqueue := queue_load_send st.device
      obtain ⟨labels, uart, hongoing, hend⟩ :=
        ih { st with device := (st.device.move .load).move .send } (by
          change ((st.device.move .load).move .send).queue.length = n
          rw [hqueue, List.length_tail, hlen]
          rfl)
      refine ⟨.device .load :: .device .send :: labels, uart, ?_, hend⟩
      intro text hmem
      simp only [List.mem_cons, reduceCtorEq, false_or] at hmem
      exact hongoing text hmem

theorem Ongoing.append {labels labels' : List SerialLabel} (h : Ongoing labels)
    (h' : Ongoing labels') : Ongoing (labels ++ labels') := by
  intro text hmem
  rcases List.mem_append.mp hmem with hold | hnew
  · exact h text hold
  · exact h' text hnew

theorem ongoing_access : Ongoing [.access] := by
  intro text hmem
  simp at hmem

theorem CanReach.access {st : State Port Uart Str} {driver : Driver Port}
    (h : CanReach (step uartDevice writeStr st .access) driver) : CanReach st driver := by
  obtain ⟨labels, uart, hongoing, hend⟩ := h
  refine ⟨[Label.access] ++ labels, uart, ongoing_access.append hongoing, ?_⟩
  exact hend

theorem step_await {uart : Uart} (h : uart.queue = []) (k : Driver Port) (calls : List Str) :
    step uartDevice writeStr ⟨uart, .await .lineStatus canTransmit k, calls⟩ .access =
      ⟨uart, k, calls⟩ := by
  have hready : canTransmit (uartDevice.read .lineStatus uart) = true := by
    change canTransmit uart.status = true
    rw [canTransmit_status]
    exact (List.append_eq_nil_iff.mp h).2
  simp [step, access, hready]

/-- A call comes to its end when the chip goes on sending. -/
theorem canReach_done {st : State Port Uart Str} (h : WaitsForRoom st.driver) :
    CanReach st .done := by
  obtain ⟨uart, driver, calls⟩ := st
  induction driver generalizing uart with
  | done => exact canReach_drained _
  | write port value k ih => exact CanReach.access (ih _ h)
  | read port k ih => exact CanReach.access (ih _ _ (h _))
  | await port ready k ih =>
      obtain ⟨rfl, rfl, hk⟩ := h
      obtain ⟨first, mid, hfirst, hmid, hqueue⟩ :=
        canReach_drained ⟨uart, .await .lineStatus canTransmit k, calls⟩
      have hrest : CanReach ⟨mid, .await .lineStatus canTransmit k, calls⟩ .done := by
        apply CanReach.access
        rw [step_await hqueue]
        exact ih mid hk
      obtain ⟨labels, final, hongoing, hend, hempty⟩ := hrest
      refine ⟨first ++ labels, final, hfirst.append hongoing, ?_, hempty⟩
      rw [Runs.exec_append, hmid]
      exact hend

theorem waitsForRoom_step {st : State Port Uart Str} (h : WaitsForRoom st.driver)
    (label : SerialLabel) : WaitsForRoom (step uartDevice writeStr st label).driver := by
  obtain ⟨uart, driver, calls⟩ := st
  cases label with
  | device e => exact h
  | call text =>
      simp only [step]
      split_ifs
      · exact waitsForRoom_writeStr text
      · exact h
  | access =>
      cases driver with
      | done => exact h
      | write port value k => exact h
      | read port k => exact h _
      | await port ready k =>
          simp only [step, access]
          split_ifs
          · exact h.2.2
          · exact h

/-! ## Every schedule -/

def powerOn (start : Uart) : State Port Uart Str := ⟨start, init, []⟩

theorem inOrder_run (start : Uart) (labels : List SerialLabel) :
    InOrder uartDevice Drains (Carries start) (AtRest start)
      (Runs.exec (step uartDevice writeStr) (powerOn start) labels) := by
  have hstart : InOrder uartDevice Drains (Carries start) (AtRest start) (powerOn start) :=
    conducts_init start
  exact (serialService start).invariant hstart labels

theorem waitsForRoom_run (start : Uart) (labels : List SerialLabel) :
    WaitsForRoom (Runs.exec (step uartDevice writeStr) (powerOn start) labels).driver :=
  Runs.exec_invariant (P := fun st : State Port Uart Str => WaitsForRoom st.driver)
    (fun _ label h => waitsForRoom_step h label) (s := powerOn start) trivial labels

/-- Whatever state the firmware left the chip in, and however the chip's sending
interleaves with the driver: the wire carries leftover bytes of the firmware and
then the log, its line ends as carriage return and line feed, with no byte lost,
repeated or out of order; and every call can be brought to its end. -/
theorem wire_carries_log (start : Uart) (labels : List SerialLabel) :
    let st := Runs.exec (step uartDevice writeStr) (powerOn start) labels
    Carries start st.calls st.device ∧
      (st.driver = .done → st.device.registers = settled start.registers ∧
        ∃ stale, stale.Sublist start.queue ∧ st.device.wire ++ st.device.queue =
          start.wire ++ (stale ++ wireBytes (logText st.calls))) ∧
      CanReach st .done := by
  intro st
  have horder : InOrder uartDevice Drains (Carries start) (AtRest start) st :=
    inOrder_run start labels
  refine ⟨horder.inv Drains.refl, fun hdone => ?_, canReach_done (waitsForRoom_run start labels)⟩
  obtain ⟨hregisters, stale, hstale, hbytes⟩ := horder.rest Drains.refl hdone
  rw [List.append_nil] at hbytes
  exact ⟨hregisters, stale, hstale, hbytes⟩

end AetherOs.Drivers.Serial
