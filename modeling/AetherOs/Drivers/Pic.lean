import AetherOs.Support.Ports
import Mathlib.Data.Finset.Basic
/-!
# The interrupt controllers

`ChainedPics` of `kernel/src/arch/x86_64/interrupts.rs` in front of two 8259
chips, the second one behind line 2 of the first.  A chip is set up by a command
and three or four bytes to its data port, which otherwise holds the mask.  A
request is forwarded if its line is not masked and no line of the same or a
higher priority is in service; the smaller line has the higher priority.

Lines are edges that the chip remembers until it is asked for the vector, so that
no request is withdrawn and no vector is spurious.  The rotating modes, which the
driver does not use, are left out.
-/

namespace AetherOs.Drivers.Pic

open AetherOs.Support AetherOs.Support.Ports

/-! ## One chip -/

/-- What the next byte to the data port means. -/
inductive Stage where
  | ready
  | offset
  | wiring
  | mode
  deriving DecidableEq, Repr

abbrev Line := Fin 8

structure Registers where
  stage : Stage
  /-- from the first command word: no second chip, a mode byte will follow -/
  single : Bool
  modeFollows : Bool
  offset : UInt8
  wiring : UInt8
  mode : UInt8
  mask : UInt8
  inService : Finset Line
  deriving DecidableEq

def highest (p : Line → Bool) : Option Line := (List.finRange 8).find? p

namespace Registers

def masked (r : Registers) (line : Line) : Bool := r.mask.toNat.testBit line

/-- A non-specific end of interrupt. -/
def endHighest (r : Registers) : Registers :=
  match highest (· ∈ r.inService) with
  | none => r
  | some line => { r with inService := r.inService.erase line }

def writeCommand (value : UInt8) (r : Registers) : Registers :=
  if value &&& 0x10 ≠ 0 then
    { r with
      stage := .offset
      single := value &&& 0x02 ≠ 0
      modeFollows := value &&& 0x01 ≠ 0
      mode := 0
      mask := 0
      inService := ∅ }
  else if value &&& 0x08 ≠ 0 then r
  else if value &&& 0xE0 = 0x20 then r.endHighest
  else if value &&& 0xE0 = 0x60 then
    { r with inService := r.inService.erase (Fin.ofNat 8 value.toNat) }
  else r

def stageAfterWiring (r : Registers) : Stage := if r.modeFollows then .mode else .ready

def writeData (value : UInt8) (r : Registers) : Registers :=
  match r.stage with
  | .ready => { r with mask := value }
  | .offset =>
      { r with
        offset := value &&& 0xF8
        stage := if r.single then r.stageAfterWiring else .wiring }
  | .wiring => { r with wiring := value, stage := r.stageAfterWiring }
  | .mode => { r with mode := value, stage := .ready }

def admits (r : Registers) (line : Line) : Bool :=
  !r.masked line && decide (∀ k ∈ r.inService, line < k)

end Registers

structure Chip where
  registers : Registers
  requested : Finset Line
  deriving DecidableEq

namespace Chip

def writeCommand (value : UInt8) (chip : Chip) : Chip where
  registers := chip.registers.writeCommand value
  requested := if value &&& 0x10 ≠ 0 then ∅ else chip.requested

def writeData (value : UInt8) (chip : Chip) : Chip :=
  { chip with registers := chip.registers.writeData value }

def raise (line : Line) (chip : Chip) : Chip :=
  { chip with requested := insert line chip.requested }

/-- The request that the chip forwards, `extra` being asserted by another chip. -/
def pending (chip : Chip) (extra : Finset Line) : Option Line :=
  highest fun line => decide (line ∈ chip.requested ∪ extra) && chip.registers.admits line

def acknowledge (line : Line) (chip : Chip) : Chip where
  registers := { chip.registers with inService := insert line chip.registers.inService }
  requested := chip.requested.erase line

end Chip

/-! ## The pair -/

structure Pair where
  master : Chip
  slave : Chip
  /-- the vectors given to the processor -/
  vectors : List UInt8
  deriving DecidableEq

/-- The ports, and the bus cycle by which the processor takes an interrupt. -/
inductive Port where
  | command1
  | data1
  | command2
  | data2
  | acknowledge
  deriving DecidableEq, Repr

namespace Pair

def cascade : Line := 2

/-- A device raises one of the sixteen lines; nothing else is wired to the cascade. -/
def raise (line : Fin 16) (pics : Pair) : Pair :=
  if h : line.val < 8 then
    if (⟨line, h⟩ : Line) = cascade then pics
    else { pics with master := pics.master.raise ⟨line, h⟩ }
  else { pics with slave := pics.slave.raise ⟨line - 8, by omega⟩ }

/-- What the first chip forwards to the processor. -/
def pending (pics : Pair) : Option Line :=
  pics.master.pending (if (pics.slave.pending ∅).isSome then {cascade} else ∅)

def acknowledge (pics : Pair) : Pair :=
  match pics.pending with
  | none => pics
  | some line =>
      match if line = cascade then pics.slave.pending ∅ else none with
      | none =>
          { pics with
            master := pics.master.acknowledge line
            vectors := pics.vectors ++ [pics.master.registers.offset + UInt8.ofNat line] }
      | some line' =>
          { master := pics.master.acknowledge line
            slave := pics.slave.acknowledge line'
            vectors := pics.vectors ++ [pics.slave.registers.offset + UInt8.ofNat line'] }

def write (port : Port) (value : UInt8) (pics : Pair) : Pair :=
  match port with
  | .command1 => { pics with master := pics.master.writeCommand value }
  | .data1 => { pics with master := pics.master.writeData value }
  | .command2 => { pics with slave := pics.slave.writeCommand value }
  | .data2 => { pics with slave := pics.slave.writeData value }
  | .acknowledge => pics.acknowledge

/-- The driver reads the masks only. -/
def read (port : Port) (pics : Pair) : UInt8 :=
  match port with
  | .data1 => pics.master.registers.mask
  | .data2 => pics.slave.registers.mask
  | .command1 | .command2 | .acknowledge => 0

end Pair

def picDevice : Device Port Pair (Fin 16) := ⟨Pair.write, Pair.read, Pair.raise⟩

/-! ## The driver -/

def pic1Offset : UInt8 := 32

def pic2Offset : UInt8 := pic1Offset + 8

def initializeWrites (savedMask1 savedMask2 : UInt8) : List (Port × UInt8) := [
  (.command1, 0x11),
  (.data1, pic1Offset),
  (.data1, 4),
  (.data1, 0x01),
  (.data1, savedMask1 &&& ~~~0x03),
  (.command2, 0x11),
  (.data2, pic2Offset),
  (.data2, 2),
  (.data2, 0x01),
  (.data2, savedMask2 &&& ~~~0x03) ]

/-- `ChainedPics::initialize` -/
def initializePics : Driver Port :=
  .read .data1 fun savedMask1 => .read .data2 fun savedMask2 =>
    .writes (initializeWrites savedMask1 savedMask2)

def notifyEndOfInterrupt (interruptId : UInt8) : Driver Port :=
  .writes ((if pic2Offset ≤ interruptId then [(.command2, 0x20)] else []) ++ [(.command1, 0x20)])

/-- What the processor does with the controllers once they are set up. -/
inductive Call where
  | acknowledge
  | endOfInterrupt (interruptId : UInt8)
  deriving DecidableEq, Repr

def perform : Call → Driver Port
  | .acknowledge => .write .acknowledge 0 .done
  | .endOfInterrupt interruptId => notifyEndOfInterrupt interruptId

/-! ## Setting up -/

/-- Both chips as `initialize` leaves them, for masks found before. -/
def settledMaster (savedMask : UInt8) : Registers where
  stage := .ready
  single := false
  modeFollows := true
  offset := 32
  wiring := 4
  mode := 1
  mask := savedMask &&& 0xFC
  inService := ∅

def settledSlave (savedMask : UInt8) : Registers where
  stage := .ready
  single := false
  modeFollows := true
  offset := 40
  wiring := 2
  mode := 1
  mask := savedMask &&& 0xFC
  inService := ∅

structure Raises (pics pics' : Pair) : Prop where
  master : pics'.master.registers = pics.master.registers
  slave : pics'.slave.registers = pics.slave.registers
  vectors : pics'.vectors = pics.vectors
  requested : pics.master.requested ⊆ pics'.master.requested ∧
    pics.slave.requested ⊆ pics'.slave.requested

theorem Raises.refl (pics : Pair) : Raises pics pics :=
  ⟨rfl, rfl, rfl, Finset.Subset.refl _, Finset.Subset.refl _⟩

theorem Raises.trans (pics pics' pics'' : Pair) (h : Raises pics pics') (h' : Raises pics' pics'') :
    Raises pics pics'' :=
  ⟨h'.master.trans h.master, h'.slave.trans h.slave, h'.vectors.trans h.vectors,
    h.requested.1.trans h'.requested.1, h.requested.2.trans h'.requested.2⟩

theorem raises_raise (line : Fin 16) (pics : Pair) : Raises pics (pics.raise line) := by
  unfold Pair.raise
  split_ifs
  · exact Raises.refl pics
  · exact ⟨rfl, rfl, rfl, Finset.subset_insert _ _, Finset.Subset.refl _⟩
  · exact ⟨rfl, rfl, rfl, Finset.Subset.refl _, Finset.subset_insert _ _⟩

def writePair (port : Port) (value : UInt8) (pair : Registers × Registers) :
    Registers × Registers :=
  match port with
  | .command1 => (pair.1.writeCommand value, pair.2)
  | .data1 => (pair.1.writeData value, pair.2)
  | .command2 => (pair.1, pair.2.writeCommand value)
  | .data2 => (pair.1, pair.2.writeData value)
  | .acknowledge => pair

def writeAll (accesses : List (Port × UInt8)) (pair : Registers × Registers) :
    Registers × Registers :=
  accesses.foldl (fun pair access => writePair access.1 access.2 pair) pair

theorem writeCommand_setup (r : Registers) :
    r.writeCommand 0x11 = { r with
      stage := .offset, single := false, modeFollows := true, mode := 0, mask := 0,
      inService := ∅ } := by
  have hsetup : (0x11 : UInt8) &&& 0x10 ≠ 0 := by decide
  unfold Registers.writeCommand
  rw [if_pos hsetup]
  rfl

theorem writeAll_initializeWrites (savedMask1 savedMask2 : UInt8) (pair : Registers × Registers) :
    writeAll (initializeWrites savedMask1 savedMask2) pair =
      (settledMaster savedMask1, settledSlave savedMask2) := by
  simp only [writeAll, initializeWrites, List.foldl_cons, List.foldl_nil, writePair,
    writeCommand_setup]
  rfl

structure Settling (start : Pair) (rest : List (Port × UInt8)) (pics : Pair) : Prop where
  ports : ∀ access ∈ rest, access.1 ≠ .acknowledge
  registers : writeAll rest (pics.master.registers, pics.slave.registers) =
    (settledMaster start.master.registers.mask, settledSlave start.slave.registers.mask)
  vectors : pics.vectors = start.vectors

theorem Settling.raises {start pics pics' : Pair} {rest : List (Port × UInt8)}
    (h : Settling start rest pics) (hraises : Raises pics pics') : Settling start rest pics' := by
  refine ⟨h.ports, ?_, hraises.vectors.trans h.vectors⟩
  rw [hraises.master, hraises.slave]
  exact h.registers

theorem Settling.write {start pics : Pair} {port : Port} {value : UInt8}
    {rest : List (Port × UInt8)} (h : Settling start ((port, value) :: rest) pics) :
    Settling start rest (pics.write port value) := by
  have hports : ∀ access ∈ rest, access.1 ≠ .acknowledge :=
    fun access hmem => h.ports access (List.mem_cons_of_mem _ hmem)
  have hport := h.ports (port, value) List.mem_cons_self
  cases port with
  | acknowledge => exact absurd rfl hport
  | _ => exact ⟨hports, h.registers, h.vectors⟩

/-- The chips are set up, whatever has been requested since. -/
structure Initialized (start pics : Pair) : Prop where
  master : pics.master.registers = settledMaster start.master.registers.mask
  slave : pics.slave.registers = settledSlave start.slave.registers.mask
  vectors : pics.vectors = start.vectors

theorem conducts_initializePics {I : Pair → Prop} (start : Pair)
    (hI : ∀ pics, pics.vectors = start.vectors → I pics) :
    Conducts picDevice Raises I (Initialized start) initializePics start := by
  intro pics₁ h₁
  refine ⟨hI pics₁ h₁.vectors, fun pics₂ h₂ => ?_⟩
  have hvectors : pics₂.vectors = start.vectors := h₂.vectors.trans h₁.vectors
  refine ⟨hI pics₂ hvectors, ?_⟩
  have hmask1 : picDevice.read .data1 pics₁ = start.master.registers.mask := by
    change pics₁.master.registers.mask = _
    rw [h₁.master]
  have hmask2 : picDevice.read .data2 pics₂ = start.slave.registers.mask := by
    change pics₂.slave.registers.mask = _
    rw [h₂.slave, h₁.slave]
  rw [hmask1, hmask2]
  refine Conducts.writes (P := Settling start) ?_ ?_ ?_ ?_ ?_
  · exact fun rest pics pics' hraises h => h.raises hraises
  · exact fun port value rest pics h => h.write
  · exact fun rest pics h => hI pics h.vectors
  · intro pics h
    have hregisters := Prod.ext_iff.mp h.registers
    exact ⟨hregisters.1, hregisters.2, h.vectors⟩
  · refine ⟨?_, writeAll_initializeWrites _ _ _, hvectors⟩
    simp [initializeWrites]

end AetherOs.Drivers.Pic
