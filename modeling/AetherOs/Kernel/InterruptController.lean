import AetherOs.Drivers.Pic
import AetherOs.Kernel.Init
/-!
# The controllers behind the in-service bits

The model of the kernel keeps a set of lines in service, delivers a line that
`unblocked` lets through and clears one with `endOfInterrupt`.  Here the two
chips that `interrupts::init` has set up are shown to do just that, as long as
the firmware had masked the lines that the kernel has no handler for.
-/

namespace AetherOs.Kernel

open AetherOs.Support AetherOs.Support.Ports AetherOs.Drivers AetherOs.Drivers.Pic

/-! ## The controller of the model -/

structure Controller where
  requested : Finset Irq
  inService : Finset Irq
  /-- the interrupts delivered so far -/
  taken : List Irq

namespace Controller

def idle : Controller := ⟨∅, ∅, []⟩

/-- Whether a line may be delivered now, as the kernel's machine has it. -/
def admits (c : Controller) (irq : Irq) : Bool :=
  decide (irq ∈ c.requested) && unblocked { KernelState.initial with inService := c.inService } irq

def next (c : Controller) : Option Irq :=
  if c.admits .timer then some .timer
  else if c.admits .keyboard then some .keyboard
  else none

inductive Step where
  | raise (irq : Irq)
  | perform (call : Call)

def take (c : Controller) (irq : Irq) : Controller where
  requested := c.requested.erase irq
  inService := insert irq c.inService
  taken := c.taken ++ [irq]

def step (c : Controller) : Step → Controller
  | .raise irq => { c with requested := insert irq c.requested }
  | .perform .acknowledge => (c.next.map c.take).getD c
  | .perform (.endOfInterrupt _) => { c with inService := endOfInterrupt c.inService }

end Controller

def Controller.Step.call : Controller.Step → Option Call
  | .raise _ => none
  | .perform call => some call

def lineOf : Irq → Line
  | .timer => ⟨0, by decide⟩
  | .keyboard => ⟨1, by decide⟩

def vectorOf : Irq → UInt8
  | .timer => 32
  | .keyboard => 33

theorem lineOf_inj {irq irq' : Irq} : lineOf irq = lineOf irq' ↔ irq = irq' := by
  cases irq <;> cases irq' <;> decide

def linesOf (irqs : Finset Irq) : Finset Line := irqs.image lineOf

@[simp] theorem mem_linesOf {irqs : Finset Irq} {irq : Irq} :
    lineOf irq ∈ linesOf irqs ↔ irq ∈ irqs := by
  simp [linesOf, lineOf_inj]

theorem linesOf_insert (irqs : Finset Irq) (irq : Irq) :
    linesOf (insert irq irqs) = insert (lineOf irq) (linesOf irqs) :=
  Finset.image_insert _ _ _

theorem linesOf_erase (irqs : Finset Irq) (irq : Irq) :
    linesOf (irqs.erase irq) = (linesOf irqs).erase (lineOf irq) :=
  Finset.image_erase (fun _ _ h => lineOf_inj.mp h) _ _

/-! ## The chips in a run of the kernel -/

structure Simulates (slaveMask : UInt8) (c : Controller) (pics : Pair) : Prop where
  master : pics.master.registers = { settledMaster 0xFC with inService := linesOf c.inService }
  slave : pics.slave.registers = settledSlave slaveMask
  requested : ∀ irq, lineOf irq ∈ pics.master.requested ↔ irq ∈ c.requested
  vectors : pics.vectors = c.taken.map vectorOf

variable {slaveMask : UInt8} {c : Controller} {pics pics' : Pair}

theorem highest_of_low {p : Line → Bool} (h : ∀ line : Line, 2 ≤ line.val → p line = false) :
    highest p = if p (lineOf .timer) then some (lineOf .timer)
      else if p (lineOf .keyboard) then some (lineOf .keyboard) else none := by
  have hlines : List.finRange 8 = [lineOf .timer, lineOf .keyboard, 2, 3, 4, 5, 6, 7] := by decide
  unfold highest
  rw [hlines]
  cases htimer : p (lineOf .timer) <;> cases hkeyboard : p (lineOf .keyboard) <;>
    simp [List.find?, htimer, hkeyboard, h 2 (by decide), h 3 (by decide), h 4 (by decide),
      h 5 (by decide), h 6 (by decide), h 7 (by decide)]

theorem masked_iff {r : Registers} (h : r.mask = 0xFC) (line : Line) :
    r.masked line = decide (2 ≤ line.val) := by
  unfold Registers.masked
  rw [h]
  revert line
  decide

theorem forall_linesOf {irqs : Finset Irq} {P : Line → Prop} :
    (∀ line ∈ linesOf irqs, P line) ↔ ∀ irq ∈ irqs, P (lineOf irq) := by
  simp [linesOf]

/-- The chip forwards a line exactly when the kernel's machine may deliver it. -/
theorem admits_lineOf {r : Registers} (hmask : r.mask = 0xFC)
    (hservice : r.inService = linesOf c.inService) (irq : Irq) :
    r.admits (lineOf irq) =
      unblocked { KernelState.initial with inService := c.inService } irq := by
  have hopen : r.masked (lineOf irq) = false := by
    rw [masked_iff hmask]
    cases irq <;> rfl
  unfold Registers.admits
  rw [hopen, hservice, Bool.not_false, Bool.true_and]
  cases irq with
  | timer =>
      apply decide_eq_decide.mpr
      rw [forall_linesOf]
      constructor
      · exact fun h hmem => absurd (h .timer hmem) (by decide)
      · intro h irq hmem
        cases irq with
        | timer => exact absurd hmem h
        | keyboard => decide
  | keyboard =>
      apply decide_eq_decide.mpr
      rw [forall_linesOf]
      constructor
      · exact fun h => ⟨fun hmem => absurd (h .timer hmem) (by decide),
          fun hmem => absurd (h .keyboard hmem) (by decide)⟩
      · intro h irq hmem
        cases irq with
        | timer => exact absurd hmem h.1
        | keyboard => exact absurd hmem h.2

theorem Simulates.mask (h : Simulates slaveMask c pics) : pics.master.registers.mask = 0xFC := by
  rw [h.master]
  rfl

theorem Simulates.inService (h : Simulates slaveMask c pics) :
    pics.master.registers.inService = linesOf c.inService := by
  rw [h.master]

/-- Requests of the second chip do not get through. -/
theorem Simulates.pending_master (h : Simulates slaveMask c pics) {extra : Finset Line}
    (hextra : extra ⊆ {Pair.cascade}) : pics.master.pending extra = c.next.map lineOf := by
  have hhigh : ∀ line : Line, 2 ≤ line.val → pics.master.registers.admits line = false := by
    intro line hline
    unfold Registers.admits
    rw [masked_iff h.mask, decide_eq_true hline]
    rfl
  have hrequest : ∀ irq, (decide (lineOf irq ∈ pics.master.requested ∪ extra) &&
      pics.master.registers.admits (lineOf irq)) = c.admits irq := by
    intro irq
    have hnot : lineOf irq ∉ extra := by
      intro hmem
      have hline := Finset.mem_singleton.mp (hextra hmem)
      revert hline
      cases irq <;> decide
    unfold Controller.admits
    rw [admits_lineOf h.mask h.inService]
    congr 1
    apply decide_eq_decide.mpr
    rw [Finset.mem_union, or_iff_left hnot]
    exact h.requested irq
  unfold Chip.pending
  rw [highest_of_low fun line hline => by rw [hhigh line hline, Bool.and_false], hrequest,
    hrequest]
  unfold Controller.next
  split_ifs <;> rfl

theorem Simulates.pending (h : Simulates slaveMask c pics) :
    pics.pending = c.next.map lineOf := by
  apply h.pending_master
  split_ifs
  · exact Finset.Subset.refl _
  · exact Finset.empty_subset _

/-! ## What is done to the chips -/

theorem Simulates.acknowledge (h : Simulates slaveMask c pics) :
    Simulates slaveMask (c.step (.perform .acknowledge)) pics.acknowledge := by
  have hpending := h.pending
  cases hnext : c.next with
  | none =>
      rw [hnext, Option.map_none] at hpending
      have hstays : pics.acknowledge = pics := by
        unfold Pair.acknowledge
        rw [hpending]
      have hsame : c.step (.perform .acknowledge) = c := by
        simp only [Controller.step, hnext, Option.map_none, Option.getD_none]
      rw [hstays, hsame]
      exact h
  | some irq =>
      rw [hnext, Option.map_some] at hpending
      have hline : lineOf irq ≠ Pair.cascade := by cases irq <;> decide
      have htaken : pics.acknowledge = { pics with
          master := pics.master.acknowledge (lineOf irq)
          vectors := pics.vectors ++
            [pics.master.registers.offset + UInt8.ofNat (lineOf irq).val] } := by
        unfold Pair.acknowledge
        rw [hpending]
        simp only [if_neg hline]
      have hstep : c.step (.perform .acknowledge) = c.take irq := by
        simp only [Controller.step, hnext, Option.map_some, Option.getD_some]
      rw [htaken, hstep]
      refine ⟨?_, h.slave, ?_, ?_⟩
      · change { pics.master.registers with
          inService := insert (lineOf irq) pics.master.registers.inService } = _
        rw [h.master, Controller.take, linesOf_insert]
      · intro irq'
        change lineOf irq' ∈ pics.master.requested.erase (lineOf irq) ↔ irq' ∈ c.requested.erase irq
        rw [Finset.mem_erase, Finset.mem_erase, h.requested, ne_eq, lineOf_inj]
      · have hvector : pics.master.registers.offset + UInt8.ofNat (lineOf irq).val =
            vectorOf irq := by
          have hoffset : pics.master.registers.offset = 32 := by
            rw [h.master]
            rfl
          rw [hoffset]
          cases irq <;> decide
        change pics.vectors ++ [_] = (c.taken ++ [irq]).map vectorOf
        rw [h.vectors, hvector, List.map_append]
        rfl

theorem writeCommand_end (r : Registers) : r.writeCommand 0x20 = r.endHighest := by
  have hsetup : ¬ (0x20 : UInt8) &&& 0x10 ≠ 0 := by decide
  have hread : ¬ (0x20 : UInt8) &&& 0x08 ≠ 0 := by decide
  have hend : (0x20 : UInt8) &&& 0xE0 = 0x20 := by decide
  unfold Registers.writeCommand
  rw [if_neg hsetup, if_neg hread, if_pos hend]

theorem endHighest_linesOf {r : Registers} (h : r.inService = linesOf c.inService) :
    r.endHighest = { r with inService := linesOf (endOfInterrupt c.inService) } := by
  have hlow : ∀ line : Line, 2 ≤ line.val → decide (line ∈ linesOf c.inService) = false := by
    intro line hline
    apply decide_eq_false
    intro hmem
    revert hline
    revert line
    rw [forall_linesOf]
    intro irq _
    cases irq <;> decide
  have hfirst := highest_of_low hlow
  simp only [decide_eq_true_eq, mem_linesOf] at hfirst
  unfold Registers.endHighest endOfInterrupt
  rw [h]
  by_cases htimer : .timer ∈ c.inService
  · rw [if_pos htimer] at hfirst ⊢
    simp only [hfirst, linesOf_erase]
  · rw [if_neg htimer] at hfirst ⊢
    by_cases hkeyboard : .keyboard ∈ c.inService
    · rw [if_pos hkeyboard] at hfirst
      simp only [hfirst, linesOf_erase]
    · rw [if_neg hkeyboard] at hfirst
      simp only [hfirst]
      rw [Finset.erase_eq_of_notMem hkeyboard, ← h]

theorem Simulates.command1 (h : Simulates slaveMask c pics) (interruptId : UInt8) :
    Simulates slaveMask (c.step (.perform (.endOfInterrupt interruptId)))
      (pics.write .command1 0x20) := by
  refine ⟨?_, h.slave, h.requested, h.vectors⟩
  change pics.master.registers.writeCommand 0x20 = _
  rw [writeCommand_end, endHighest_linesOf h.inService, h.master]
  rfl

theorem Simulates.command2 (h : Simulates slaveMask c pics) :
    Simulates slaveMask c (pics.write .command2 0x20) := by
  refine ⟨h.master, ?_, h.requested, h.vectors⟩
  have hempty : (settledSlave slaveMask).inService = linesOf Controller.idle.inService := rfl
  change pics.slave.registers.writeCommand 0x20 = _
  rw [writeCommand_end, h.slave, endHighest_linesOf hempty]
  rfl

/-- The model raises the lines that are requested now and were not before. -/
theorem Simulates.raises (h : Simulates slaveMask c pics) (hraises : Raises pics pics') :
    ∃ steps : List Controller.Step, steps.filterMap Controller.Step.call = [] ∧
      Simulates slaveMask (Runs.exec Controller.step c steps) pics' := by
  have hraise : ∀ (c : Controller) (irq : Irq), ∃ steps : List Controller.Step,
      steps.filterMap Controller.Step.call = [] ∧
      Runs.exec Controller.step c steps =
        ⟨if lineOf irq ∈ pics'.master.requested then insert irq c.requested else c.requested,
          c.inService, c.taken⟩ := by
    intro c irq
    by_cases hmem : lineOf irq ∈ pics'.master.requested
    · exact ⟨[.raise irq], rfl, by rw [if_pos hmem]; rfl⟩
    · exact ⟨[], rfl, by rw [if_neg hmem]; rfl⟩
  obtain ⟨first, hfirstCalls, hfirst⟩ := hraise c .timer
  obtain ⟨second, hsecondCalls, hsecond⟩ := hraise (Runs.exec Controller.step c first) .keyboard
  refine ⟨first ++ second, ?_, ?_⟩
  · rw [List.filterMap_append, hfirstCalls, hsecondCalls]
    rfl
  · rw [Runs.exec_append, hsecond, hfirst]
    refine ⟨hraises.master.trans h.master, hraises.slave.trans h.slave, fun irq => ?_,
      hraises.vectors.trans h.vectors⟩
    have hkept : irq ∈ c.requested → lineOf irq ∈ pics'.master.requested :=
      fun hmem => hraises.requested.1 ((h.requested irq).mpr hmem)
    cases irq with
    | timer => split_ifs <;> simp_all
    | keyboard => split_ifs <;> simp_all

/-! ## Every run -/

/-- The chips are where some steps of the model lead, with these calls among them. -/
def Tracked (slaveMask : UInt8) (calls : List Call) (pics : Pair) : Prop :=
  ∃ steps : List Controller.Step, steps.filterMap Controller.Step.call = calls ∧
    Simulates slaveMask (Runs.exec Controller.step .idle steps) pics

variable {calls : List Call}

theorem Tracked.raises (h : Tracked slaveMask calls pics) (hraises : Raises pics pics') :
    Tracked slaveMask calls pics' := by
  obtain ⟨steps, rfl, hsim⟩ := h
  obtain ⟨more, hmore, hsim'⟩ := hsim.raises hraises
  refine ⟨steps ++ more, ?_, ?_⟩
  · rw [List.filterMap_append, hmore, List.append_nil]
  · rw [Runs.exec_append]
    exact hsim'

theorem Tracked.perform {call : Call} (h : Tracked slaveMask calls pics)
    (hstep : ∀ c, Simulates slaveMask c pics → Simulates slaveMask (c.step (.perform call)) pics') :
    Tracked slaveMask (calls ++ [call]) pics' := by
  obtain ⟨steps, rfl, hsim⟩ := h
  refine ⟨steps ++ [.perform call], ?_, ?_⟩
  · rw [List.filterMap_append]
    rfl
  · rw [Runs.exec_append]
    exact hstep _ hsim

def Vectored (pics : Pair) : Prop := ∀ vector ∈ pics.vectors, ∃ irq, vector = vectorOf irq

theorem Tracked.vectored (h : Tracked slaveMask calls pics) : Vectored pics := by
  obtain ⟨steps, -, hsim⟩ := h
  intro vector hmem
  rw [hsim.vectors] at hmem
  obtain ⟨irq, -, rfl⟩ := List.mem_map.mp hmem
  exact ⟨irq, rfl⟩

theorem conducts_done (h : Tracked slaveMask calls pics) :
    Conducts picDevice Raises Vectored (Tracked slaveMask calls) .done pics :=
  fun _ hraises => ⟨(h.raises hraises).vectored, h.raises hraises⟩

theorem conducts_perform (h : Tracked slaveMask calls pics) (call : Call) :
    Conducts picDevice Raises Vectored (Tracked slaveMask (calls ++ [call])) (perform call)
      pics := by
  cases call with
  | acknowledge =>
      intro pics₁ h₁
      refine ⟨(h.raises h₁).vectored, conducts_done ?_⟩
      exact (h.raises h₁).perform fun c hsim => hsim.acknowledge
  | endOfInterrupt interruptId =>
      have hmaster : ∀ {pics : Pair}, Tracked slaveMask calls pics → Conducts picDevice Raises
          Vectored (Tracked slaveMask (calls ++ [.endOfInterrupt interruptId]))
          (.writes [(.command1, 0x20)]) pics := by
        intro pics h pics₁ h₁
        refine ⟨(h.raises h₁).vectored, conducts_done ?_⟩
        exact (h.raises h₁).perform fun c hsim => hsim.command1 interruptId
      change Conducts _ _ _ _ (Pic.notifyEndOfInterrupt interruptId) pics
      unfold Pic.notifyEndOfInterrupt
      split_ifs
      · intro pics₁ h₁
        refine ⟨(h.raises h₁).vectored, hmaster ?_⟩
        obtain ⟨steps, hcalls, hsim⟩ := h.raises h₁
        exact ⟨steps, hcalls, hsim.command2⟩
      · exact hmaster h

theorem pic_service (slaveMask : UInt8) :
    Service picDevice perform Raises (fun _ => Vectored) (Tracked slaveMask) where
  refl := Raises.refl
  trans := Raises.trans
  move := raises_raise
  call := fun _ call _ h => conducts_perform h call

theorem tracked_of_initialized {start : Pair} (h : Initialized start pics)
    (hfresh : start.vectors = [])
    (hmask : start.master.registers.mask &&& 0xFC = 0xFC) :
    Tracked start.slave.registers.mask [] pics := by
  have hquiet : Simulates start.slave.registers.mask .idle
      { pics with master := { pics.master with requested := ∅ } } := by
    refine ⟨?_, h.slave, fun irq => by simp [Controller.idle],
      h.vectors.trans hfresh⟩
    change pics.master.registers = _
    rw [h.master, settledMaster, hmask]
    rfl
  have hstart : Tracked start.slave.registers.mask []
      { pics with master := { pics.master with requested := ∅ } } := ⟨[], rfl, hquiet⟩
  exact hstart.raises ⟨rfl, rfl, rfl, Finset.empty_subset _, Finset.Subset.refl _⟩

def picStart (start : Pair) : Ports.State Port Pair Call := ⟨start, initializePics, []⟩

theorem inOrder_pics (start : Pair) (hfresh : start.vectors = [])
    (hmask : start.master.registers.mask &&& 0xFC = 0xFC)
    (labels : List (Ports.Label Call (Fin 16))) :
    InOrder picDevice Raises (fun _ => Vectored) (Tracked start.slave.registers.mask)
      (Runs.exec (Ports.step picDevice perform) (picStart start) labels) := by
  have hnone : ∀ pics : Pair, pics.vectors = start.vectors → Vectored pics := by
    intro pics hvectors vector hmem
    rw [hvectors, hfresh] at hmem
    exact absurd hmem List.not_mem_nil
  have hstart : InOrder picDevice Raises (fun _ => Vectored) (Tracked start.slave.registers.mask)
      (picStart start) :=
    (conducts_initializePics start hnone).mono fun _ h => tracked_of_initialized h hfresh hmask
  exact (pic_service start.slave.registers.mask).invariant hstart labels

/-- From any state that the firmware left the chips in, if only the lines of the
timer and the keyboard may be open afterwards, and however requests interleave
with the accesses: the processor is given the vectors of `InterruptIndex` only,
and between calls the chips are where the controller of the model, given the
same calls, comes with some requests in between. -/
theorem pics_refine_in_service (start : Pair) (hfresh : start.vectors = [])
    (hmask : start.master.registers.mask &&& 0xFC = 0xFC)
    (labels : List (Ports.Label Call (Fin 16))) :
    let st := Runs.exec (Ports.step picDevice perform) (picStart start) labels
    Vectored st.device ∧
      (st.driver = .done → Tracked start.slave.registers.mask st.calls st.device) := by
  intro st
  have horder := inOrder_pics start hfresh hmask labels
  exact ⟨horder.inv Raises.refl, fun hdone => horder.rest Raises.refl hdone⟩

/-- Everything masked, as the boot loader hands the chips over. -/
def maskedPics : Pair where
  master := ⟨{ settledMaster 0xFF with mask := 0xFF }, ∅⟩
  slave := ⟨{ settledSlave 0xFF with mask := 0xFF }, ∅⟩
  vectors := []

def setUp : List (Ports.Label Call (Fin 16)) := List.replicate 12 .access

theorem pics_refine_in_service_tick :
    let st := Runs.exec (Ports.step picDevice perform) (picStart maskedPics)
      (setUp ++ [.device 0, .call .acknowledge, .access])
    st.device.vectors = [vectorOf .timer] ∧ Vectored st.device :=
  ⟨by decide +kernel, (pics_refine_in_service maskedPics rfl (by decide) _).1⟩

/-! ## Vectors without a gate -/

/-- The vectors that `build_idt` sets a handler for. -/
def gates : List UInt8 := [3, 8, 13, 14, 32, 33]

theorem exec_setUp (start : Pair) :
    Runs.exec (Ports.step picDevice perform) (picStart start) setUp =
      ⟨⟨⟨settledMaster start.master.registers.mask, ∅⟩,
        ⟨settledSlave start.slave.registers.mask, ∅⟩, start.vectors⟩, .done, []⟩ :=
  rfl

theorem highest_of_unique {p : Line → Bool} {line : Line} (h : p line = true)
    (hunique : ∀ k, p k = true → k = line) : highest p = some line := by
  unfold highest
  cases hfind : (List.finRange 8).find? p with
  | none => exact absurd h (List.find?_eq_none.mp hfind line (List.mem_finRange line))
  | some k => rw [hunique k (List.find?_some hfind)]

theorem pending_of_single {chip : Chip} {extra : Finset Line} {line : Line}
    (h : chip.requested ∪ extra = {line}) (hadmits : chip.registers.admits line = true) :
    chip.pending extra = some line := by
  unfold Chip.pending
  rw [h]
  apply highest_of_unique
  · simp [hadmits]
  · intro k hk
    rw [Bool.and_eq_true, decide_eq_true_eq, Finset.mem_singleton] at hk
    exact hk.1

theorem admits_of_unmasked {r : Registers} {line : Line} (hmask : r.masked line = false)
    (hservice : r.inService = ∅) : r.admits line = true := by
  simp [Registers.admits, hmask, hservice]

theorem exists_open_line {mask : UInt8} (h : mask &&& 0xFC ≠ 0xFC) :
    ∃ line : Line, 2 ≤ line.val ∧ (mask &&& 0xFC).toNat.testBit line = false := by
  have hall : ∀ n < 256, (UInt8.ofNat n) &&& 0xFC ≠ 0xFC → ∃ line : Line, 2 ≤ line.val ∧
      ((UInt8.ofNat n) &&& 0xFC).toNat.testBit line = false := by decide +kernel
  have hmask := hall mask.toNat mask.toNat_lt
  rw [UInt8.ofNat_toNat] at hmask
  exact hmask h

def readyPics (start : Pair) : Pair :=
  ⟨⟨settledMaster start.master.registers.mask, ∅⟩, ⟨settledSlave start.slave.registers.mask, ∅⟩,
    start.vectors⟩

theorem exec_request (start : Pair) (line : Fin 16) :
    (Runs.exec (Ports.step picDevice perform) (picStart start)
      (setUp ++ [.device line, .call .acknowledge, .access])).device =
      ((readyPics start).raise line).acknowledge := by
  rw [Runs.exec_append, exec_setUp]
  rfl

theorem acknowledge_master {start : Pair} {line : Line} (hline : line ≠ Pair.cascade)
    (hopen : (settledMaster start.master.registers.mask).masked line = false) :
    ((readyPics start).raise ⟨line, by omega⟩).acknowledge.vectors =
      start.vectors ++ [32 + UInt8.ofNat line] := by
  have hraise : (readyPics start).raise ⟨line, by omega⟩ =
      { readyPics start with master := (readyPics start).master.raise line } := by
    unfold Pair.raise
    rw [dif_pos line.isLt, if_neg hline]
  have hslave : (readyPics start).slave.pending ∅ = none := by
    simp [readyPics, Chip.pending, highest]
  have hpending : Pair.pending
      { readyPics start with master := (readyPics start).master.raise line } = some line := by
    unfold Pair.pending
    dsimp only
    rw [hslave]
    exact pending_of_single rfl (admits_of_unmasked hopen rfl)
  unfold Pair.acknowledge
  rw [hraise, hpending]
  simp only [if_neg hline]
  rfl

theorem acknowledge_slave {start : Pair}
    (hopen : (settledMaster start.master.registers.mask).masked Pair.cascade = false) :
    ((readyPics start).raise 8).acknowledge.vectors = start.vectors ++ [40] := by
  have hraise : (readyPics start).raise 8 =
      { readyPics start with slave := (readyPics start).slave.raise 0 } := rfl
  have hfirst : (settledSlave start.slave.registers.mask).masked 0 = false := by
    have hall : ∀ n < 256, ((UInt8.ofNat n) &&& 0xFC).toNat.testBit 0 = false := by decide +kernel
    have hmask := hall start.slave.registers.mask.toNat start.slave.registers.mask.toNat_lt
    rw [UInt8.ofNat_toNat] at hmask
    exact hmask
  have hslave : ((readyPics start).slave.raise 0).pending ∅ = some 0 :=
    pending_of_single rfl (admits_of_unmasked hfirst rfl)
  have hpending : Pair.pending
      { readyPics start with slave := (readyPics start).slave.raise 0 } = some Pair.cascade := by
    unfold Pair.pending
    dsimp only
    rw [hslave]
    exact pending_of_single rfl (admits_of_unmasked hopen rfl)
  unfold Pair.acknowledge
  rw [hraise, hpending]
  simp only [hslave]
  rfl

/-- The boot loader's masks decide: every vector that the chips can ever raise
has a gate exactly if lines 2 to 7 of the first chip were masked.  Line 2 counts
because `initialize` opens two lines of the second chip, which has no gates.
Spurious vectors, raised for a request that is withdrawn before its acknowledge,
are left out: a request of these chips is latched until then. -/
theorem vectors_gated_iff (start : Pair) (hfresh : start.vectors = []) :
    (∀ labels, ∀ vector ∈ (Runs.exec (Ports.step picDevice perform) (picStart start)
      labels).device.vectors, vector ∈ gates) ↔ start.master.registers.mask &&& 0xFC = 0xFC := by
  constructor
  · intro h
    by_contra hopen
    obtain ⟨line, hline, hbit⟩ := exists_open_line hopen
    by_cases hcascade : line = Pair.cascade
    · -- the second chip gets through to the processor
      subst hcascade
      have hgate := h (setUp ++ [.device 8, .call .acknowledge, .access]) 40 (by
        rw [exec_request, acknowledge_slave hbit]
        simp)
      revert hgate
      decide
    · have hgate := h (setUp ++ [.device ⟨line, by omega⟩, .call .acknowledge, .access])
        (32 + UInt8.ofNat line) (by
          rw [exec_request, acknowledge_master hcascade hbit]
          simp)
      revert hgate
      clear hbit
      revert line
      decide +kernel
  · intro hmask labels vector hmem
    obtain ⟨irq, rfl⟩ := (inOrder_pics start hfresh hmask labels).inv Raises.refl vector hmem
    cases irq <;> decide

theorem vectors_gated_iff_masked :
    maskedPics.vectors = [] ∧ ∀ labels, ∀ vector ∈ (Runs.exec (Ports.step picDevice perform)
      (picStart maskedPics) labels).device.vectors, vector ∈ gates :=
  ⟨rfl, (vectors_gated_iff maskedPics rfl).mpr (by decide)⟩

end AetherOs.Kernel
