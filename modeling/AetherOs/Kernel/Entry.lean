import AetherOs.Kernel.BootStages
import AetherOs.Kernel.LockInvariants
import AetherOs.Support.Attempt
/-!
# Before the kernel proper

`kernel/src/arch/x86_64/boot.rs`.  `enter` runs alone: it initialises the serial
port, asks for the bootloader's responses and copies them, and logs each stage
it reaches.  What it writes are whole lines of legible text, without the marker
of a finished boot, in front of everything `core::init::initialize` logs.
-/

namespace AetherOs.Kernel

open AetherOs.Support AetherOs.Support.Text AetherOs.Support.Word AetherOs.Boot
open AetherOs.Support.Interrupts

inductive BootStage where
  | entry
  | revisionAccepted
  | revisionRejected
  | collectingBootInfo
  | hhdmReady
  | memoryMapReady
  | regionsMapped
  | framebufferReady
  | bootInfoReady
  | kernelInit
  deriving DecidableEq, Repr

def BootStage.label : BootStage → Str
  | .entry => "entry".toList
  | .revisionAccepted => "revision-accepted".toList
  | .revisionRejected => "revision-rejected".toList
  | .collectingBootInfo => "collecting-boot-info".toList
  | .hhdmReady => "hhdm-ready".toList
  | .memoryMapReady => "memory-map-ready".toList
  | .regionsMapped => "regions-mapped".toList
  | .framebufferReady => "framebuffer-ready".toList
  | .bootInfoReady => "boot-info-ready".toList
  | .kernelInit => "kernel-init".toList

/-- `BOOT_STAGE`, and the text written to the serial port. -/
structure Entry where
  stage : BootStage
  log : Str

def Entry.initial : Entry := ⟨.entry, []⟩

/-- An error where the source halts for ever. -/
abbrev EntryRoutine := Attempt Entry Unit

def markBootStage (stage : BootStage) : EntryRoutine Unit :=
  Attempt.update fun entry => { entry with stage := stage }

def writeText (text : Str) : EntryRoutine Unit :=
  Attempt.update fun entry => { entry with log := entry.log ++ text }

def logBootLine (message : Str) : EntryRoutine Unit := do
  let entry ← Attempt.current
  writeText ("AetherOS: boot [".toList ++ entry.stage.label ++ "] ".toList ++ message ++ ['\n'])

def logBootStage (message : Str) : EntryRoutine Unit := logBootLine message

def logBootSummary (bootInfo : BootInfo) : EntryRoutine Unit :=
  logBootLine ("hhdm=".toList ++ hexadecimal bootInfo.hhdmOffset.toNat ++
    " memmap_entries=".toList ++ decimal bootInfo.memoryMapEntries ++
    " region_capacity=".toList ++ decimal maxMemoryRegions ++
    " framebuffer=".toList ++ (if bootInfo.framebuffer.isSome then "yes".toList else "no".toList))

/-- `expect` on a response, with the text of the panic handler. -/
def expectResponse {α : Type} (response : Option α) (message : Str) : EntryRoutine α :=
  match response with
  | some value => return value
  | none => do
      let entry ← Attempt.current
      let stage := "AetherOS panic stage: ".toList ++ entry.stage.label
      let reason := "AetherOS panic: ".toList ++ message
      writeText (stage ++ ['\n'] ++ reason ++ ['\n'])
      writeText (stage ++ ['\n'])
      writeText (reason ++ ['\n'])
      Attempt.fail ()

/-- `collect_boot_info` with what it logs; `Boot.collectBootInfo` is its record. -/
def collectBootInfoLogged (responses : LimineResponses) : EntryRoutine BootInfo := do
  markBootStage .collectingBootInfo
  logBootStage "collecting boot info".toList
  let hhdmOffset ← expectResponse responses.hhdmOffset
    "Limine did not provide an HHDM response".toList
  markBootStage .hhdmReady
  logBootStage "HHDM response collected".toList
  let entries ← expectResponse responses.memoryMap
    "Limine did not provide a memory map response".toList
  markBootStage .memoryMapReady
  logBootStage "memory map response collected".toList
  logBootLine ("normalizing ".toList ++ decimal (min entries.length maxMemoryRegions) ++
    " memory regions".toList)
  markBootStage .regionsMapped
  logBootStage "memory regions normalized".toList
  let framebuffer := (responses.framebuffers.bind List.head?).map LimineFramebuffer.toInfo
  markBootStage .framebufferReady
  logBootStage (if framebuffer.isSome then "framebuffer response collected".toList
    else "framebuffer unavailable".toList)
  return ⟨hhdmOffset, entries.length, framebuffer, normalizeRegions entries⟩

/-- `enter`, up to the call of `crate::run`. -/
def enter (revisionSupported : Bool) (responses : LimineResponses) : EntryRoutine BootInfo := do
  markBootStage .entry
  logBootStage "kernel entry reached".toList
  if !revisionSupported then
    markBootStage .revisionRejected
    writeText ("AetherOS: unsupported Limine base revision".toList ++ ['\n'])
    Attempt.fail ()
  markBootStage .revisionAccepted
  logBootStage "Limine base revision accepted".toList
  let bootInfo ← collectBootInfoLogged responses
  markBootStage .bootInfoReady
  logBootSummary bootInfo
  markBootStage .kernelInit
  logBootStage "transferring control to generic kernel init".toList
  return bootInfo

structure Loader where
  revisionSupported : Bool
  responses : LimineResponses
  heapSpace : Nat

def Loader.enter (loader : Loader) : Option (Except Unit BootInfo × Entry) :=
  Kernel.enter loader.revisionSupported loader.responses .initial

/-- Everything the kernel has written to the serial port when `core::init` and the
interrupts after it have taken the steps `labels`. -/
def kernelLog (loader : Loader) (policy : KernelState → Irq → Bool)
    (labels : List (Label Irq UInt8)) : Str :=
  match loader.enter with
  | some (.ok bootInfo, entry) =>
      entry.log ++ (Runs.exec (step (kernelSystem policy)) (bootState ⟨bootInfo, loader.heapSpace⟩)
        labels).shared.serial
  | some (.error _, entry) => entry.log
  | none => []

/-! ## What `enter` hands on -/

/-- The kernel proper is reached with an accepted revision and the boot information
of `collect_boot_info`, and in no other way. -/
theorem enter_ok_iff (loader : Loader) (bootInfo : BootInfo) :
    (∃ entry, loader.enter = some (.ok bootInfo, entry)) ↔
      loader.revisionSupported = true ∧ collectBootInfo loader.responses = .ok bootInfo := by
  obtain ⟨supported, ⟨hhdmOffset, memoryMap, framebuffers⟩, heapSpace⟩ := loader
  cases supported with
  | false =>
      constructor
      · rintro ⟨entry, h⟩
        cases h
      · rintro ⟨h, -⟩
        cases h
  | true =>
      cases hhdmOffset with
      | none =>
          constructor
          · rintro ⟨entry, h⟩
            cases h
          · rintro ⟨-, h⟩
            cases h
      | some hhdmOffset =>
          cases memoryMap with
          | none =>
              constructor
              · rintro ⟨entry, h⟩
                cases h
              · rintro ⟨-, h⟩
                cases h
          | some entries =>
              constructor
              · rintro ⟨entry, h⟩
                cases h
                exact ⟨rfl, rfl⟩
              · rintro ⟨-, h⟩
                cases h
                exact ⟨_, rfl⟩

/-! ## What `enter` logs -/

structure Plain (log : Str) : Prop where
  legible : Legible log
  early : Early log

theorem plain_nil : Plain [] := ⟨fun _ h => (by cases h), early_nil⟩

theorem Plain.append {log log' : Str} (h : Plain log) (h' : Plain log') : Plain (log ++ log') :=
  ⟨h.legible.append h'.legible, h.early.append h'.early⟩

theorem plain_line {line : Str} (h : Legible line) (h' : Unmarked line) : Plain (line ++ ['\n']) :=
  ⟨h.append (by decide), early_line h'⟩

/-- The marker has one colon, and goes on with another word than the lines of `enter`. -/
theorem unmarked_bootLine {rest : Str} (h : ':' ∉ rest) :
    Unmarked ("AetherOS: boot [".toList ++ rest) := by
  have hline : "AetherOS: boot [".toList ++ rest =
      "AetherOS".toList ++ ':' :: (" boot [".toList ++ rest) := rfl
  have hmarker : initializedMarker = "AetherOS".toList ++ ':' :: " kernel initialized".toList := rfl
  have hstart : ':' ∉ "AetherOS".toList := by decide
  have hrest : ':' ∉ " boot [".toList ++ rest := by simp [h]
  rintro ⟨before, after, heq⟩
  rw [hline, hmarker] at heq
  have hsplit : "AetherOS".toList ++ ':' :: (" boot [".toList ++ rest) =
      (before ++ "AetherOS".toList) ++ ':' :: (" kernel initialized".toList ++ after) := by
    rw [← heq]
    simp only [List.append_assoc, List.cons_append]
  obtain ⟨-, -, hafter⟩ := (List.append_cons_inj_of_notMem hstart hrest).mp hsplit
  simp at hafter

theorem legible_label (stage : BootStage) : Legible stage.label := by
  cases stage <;> exact legible_literal (by decide)

theorem colon_notMem_label (stage : BootStage) : ':' ∉ stage.label := by
  cases stage <;> exact notMem_literal (by decide)

theorem z_notMem_label (stage : BootStage) : 'z' ∉ stage.label := by
  cases stage <;> exact notMem_literal (by decide)

abbrev LogsPlainly {α : Type} (m : EntryRoutine α) : Prop :=
  Attempt.Ensures (fun entry => Plain entry.log) m (fun _ entry => Plain entry.log)
    fun entry => Plain entry.log

theorem logs_pure {α : Type} (value : α) : LogsPlainly (pure value) := .pure fun _ h => h

theorem logs_mark (stage : BootStage) : LogsPlainly (markBootStage stage) := .update fun _ h => h

theorem logs_text {text : Str} (h : Plain text) : LogsPlainly (writeText text) :=
  .update fun _ hlog => hlog.append h

theorem logs_current {α : Type} {f : Entry → EntryRoutine α} (h : ∀ entry, LogsPlainly (f entry)) :
    LogsPlainly (Attempt.current >>= f) :=
  .current_bind fun entry =>
    (h entry).weaken (fun _ hlog => hlog.2) (fun _ _ hlog => hlog) fun _ hlog => hlog

theorem logs_line {message : Str} (h : Legible message) (hcolon : ':' ∉ message) :
    LogsPlainly (logBootLine message) := by
  refine logs_current fun entry => logs_text (plain_line ?_ ?_)
  · exact Legible.append (Legible.append (Legible.append (legible_literal (by decide))
      (legible_label _)) (legible_literal (by decide))) h
  · rw [List.append_assoc, List.append_assoc]
    apply unmarked_bootLine
    simp only [List.mem_append, not_or]
    exact ⟨colon_notMem_label _, notMem_literal (by decide), hcolon⟩

theorem logs_expect {α : Type} (response : Option α) {characters : List Char}
    (hlegible : Legible characters) (hnone : 'z' ∉ characters) :
    LogsPlainly (expectResponse response (String.ofList characters).toList) := by
  have h := legible_literal hlegible
  have hz := notMem_literal hnone
  generalize (String.ofList characters).toList = message at h hz ⊢
  cases response with
  | some value => exact logs_pure value
  | none =>
      refine logs_current fun entry => ?_
      have hstage : Plain ("AetherOS panic stage: ".toList ++ entry.stage.label ++ ['\n']) := by
        refine plain_line (Legible.append (legible_literal (by decide)) (legible_label _)) ?_
        apply unmarked_of_notMem
        simp [z_notMem_label]
      have hreason : Plain ("AetherOS panic: ".toList ++ message ++ ['\n']) := by
        refine plain_line (Legible.append (legible_literal (by decide)) h) ?_
        apply unmarked_of_notMem
        simp [hz]
      have hboth := hstage.append hreason
      rw [← List.append_assoc] at hboth
      exact .bind (logs_text hboth) fun _ => .bind (logs_text hstage) fun _ =>
        .bind (logs_text hreason) fun _ => .fail fun _ hlog => hlog

theorem colon_notMem_decimal (n : Nat) : ':' ∉ decimal n := notMem_decimal (by decide) n

theorem colon_notMem_hexadecimal (n : Nat) : ':' ∉ hexadecimal n :=
  notMem_hexadecimal (by decide) (by decide) n

theorem logs_summary (bootInfo : BootInfo) : LogsPlainly (logBootSummary bootInfo) := by
  have hanswer : ∀ available : Bool,
      Legible (if available then "yes".toList else "no".toList) ∧
        ':' ∉ if available then "yes".toList else "no".toList := by
    decide
  apply logs_line
  · exact Legible.append (Legible.append (Legible.append (Legible.append (Legible.append
      (Legible.append (Legible.append (legible_literal (by decide)) (legible_hexadecimal _))
      (legible_literal (by decide))) (legible_decimal _)) (legible_literal (by decide)))
      (legible_decimal _)) (legible_literal (by decide))) (hanswer _).1
  · simp only [List.mem_append, not_or]
    refine ⟨⟨⟨⟨⟨⟨⟨?_, colon_notMem_hexadecimal _⟩, ?_⟩, colon_notMem_decimal _⟩, ?_⟩,
      colon_notMem_decimal _⟩, ?_⟩, (hanswer _).2⟩ <;> exact notMem_literal (by decide)

theorem logs_literal {characters : List Char} (h : Legible characters) (h' : ':' ∉ characters) :
    LogsPlainly (logBootStage (String.ofList characters).toList) :=
  logs_line (legible_literal h) (notMem_literal h')

theorem logs_collectBootInfo (responses : LimineResponses) :
    LogsPlainly (collectBootInfoLogged responses) := by
  unfold collectBootInfoLogged
  refine .bind (logs_mark _) fun _ => .bind (logs_literal (by decide) (by decide)) fun _ => ?_
  refine .bind (logs_expect _ (by decide) (by decide)) fun _ => ?_
  refine .bind (logs_mark _) fun _ => .bind (logs_literal (by decide) (by decide)) fun _ => ?_
  refine .bind (logs_expect _ (by decide) (by decide)) fun _ => ?_
  refine .bind (logs_mark _) fun _ => .bind (logs_literal (by decide) (by decide)) fun _ => ?_
  refine .bind (logs_line ?_ ?_) fun _ => ?_
  · exact Legible.append (Legible.append (legible_literal (by decide)) (legible_decimal _))
      (legible_literal (by decide))
  · simp [colon_notMem_decimal]
  refine .bind (logs_mark _) fun _ => .bind (logs_literal (by decide) (by decide)) fun _ => ?_
  refine .bind (logs_mark _) fun _ => .bind ?_ fun _ => logs_pure _
  split <;> exact logs_literal (by decide) (by decide)

theorem logs_enter (revisionSupported : Bool) (responses : LimineResponses) :
    LogsPlainly (enter revisionSupported responses) := by
  unfold enter
  refine .bind (logs_mark _) fun _ => .bind (logs_literal (by decide) (by decide)) fun _ => ?_
  cases revisionSupported with
  | false =>
      refine .bind (logs_mark _) fun _ => .bind (logs_text ?_) fun _ => ?_
      · exact plain_line (legible_literal (by decide)) (unmarked_literal (by decide))
      · -- nothing comes after the halt
        exact .bind (Q := fun _ _ => False) (.fail fun _ h => h) fun _ _ h => h.elim
  | true =>
      refine .bind (logs_mark _) fun _ => .bind (logs_literal (by decide) (by decide)) fun _ => ?_
      refine .bind (logs_collectBootInfo responses) fun bootInfo => ?_
      refine .bind (logs_mark _) fun _ => .bind (logs_summary bootInfo) fun _ => ?_
      refine .bind (logs_mark _) fun _ => .bind (logs_literal (by decide) (by decide)) fun _ => ?_
      exact logs_pure bootInfo

theorem plain_enter {loader : Loader} {result : Except Unit BootInfo} {entry : Entry}
    (h : loader.enter = some (result, entry)) : Plain entry.log := by
  have hends := logs_enter loader.revisionSupported loader.responses .initial plain_nil
  cases result with
  | ok bootInfo => exact hends.1 bootInfo entry h
  | error stop => exact hends.2 stop entry h

/-! ## The whole log -/

theorem legible_kernelLog (loader : Loader) (policy : KernelState → Irq → Bool)
    (labels : List (Label Irq UInt8)) : Legible (kernelLog loader policy labels) := by
  unfold kernelLog
  split
  · next bootInfo entry henter =>
      exact (plain_enter henter).legible.append (orderly_run _ policy labels).always
  · next stop entry henter => exact (plain_enter henter).legible
  · exact plain_nil.legible

/-- The marker in the log is one that the kernel proper has written. -/
theorem exists_boot_of_marker {loader : Loader} {policy : KernelState → Irq → Bool}
    {labels : List (Label Irq UInt8)}
    (h : initializedMarker <:+: kernelLog loader policy labels) :
    ∃ bootInfo, collectBootInfo loader.responses = .ok bootInfo ∧
      initializedMarker <:+: (Runs.exec (step (kernelSystem policy))
        (bootState ⟨bootInfo, loader.heapSpace⟩) labels).shared.serial := by
  unfold kernelLog at h
  split at h
  · next bootInfo entry henter =>
      have hresult := (enter_ok_iff loader bootInfo).mp ⟨entry, henter⟩
      exact ⟨bootInfo, hresult.2, (plain_enter henter).early.infix_append h⟩
  · next stop entry henter => exact absurd h (plain_enter henter).early.unmarked
  · exact absurd h early_nil.unmarked

end AetherOs.Kernel
