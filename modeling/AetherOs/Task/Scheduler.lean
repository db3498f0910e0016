import AetherOs.Support.Text
import AetherOs.Support.Word
import Mathlib.Logic.Function.Basic
/-!
# The task table

`kernel/src/task/`.  `Scheduler` is the value behind the `SCHEDULER` mutex: a
table of 16 slots, the number of slots in use and the slot of the current task.
A table index is in range by construction, as `tasks[current]` requires.
-/

namespace AetherOs.Task

open AetherOs.Support.Text

inductive AddressSpaceKind where
  | kernelOnly
  | kernelAndUser
  deriving DecidableEq, Repr

def AddressSpaceKind.label : AddressSpaceKind → Str
  | .kernelOnly => "kernel-only".toList
  | .kernelAndUser => "kernel-and-user".toList

structure AddressSpace where
  hhdmOffset : UInt64
  kind : AddressSpaceKind
  userRangeStart : UInt64
  userRangeEnd : UInt64
  deriving DecidableEq, Repr

def AddressSpace.new (hhdmOffset : UInt64) : AddressSpace := ⟨hhdmOffset, .kernelOnly, 0, 0⟩

def AddressSpace.withUserRange (hhdmOffset userRangeStart userRangeEnd : UInt64) : AddressSpace :=
  ⟨hhdmOffset, .kernelAndUser, userRangeStart, userRangeEnd⟩

inductive ProcessState where
  | ready
  | running
  | idle
  deriving DecidableEq, Repr

def ProcessState.label : ProcessState → Str
  | .ready => "ready".toList
  | .running => "running".toList
  | .idle => "idle".toList

inductive ExecutionMode where
  | kernel
  | user
  deriving DecidableEq, Repr

def ExecutionMode.label : ExecutionMode → Str
  | .kernel => "kernel".toList
  | .user => "user".toList

structure TaskContext where
  id : Nat
  timesliceTicks : Nat
  deriving DecidableEq, Repr

structure UserProgramImage where
  name : Str
  entryPoint : UInt64
  stackTop : UInt64
  imageSize : Nat
  deriving DecidableEq, Repr

structure Process where
  id : Nat
  name : Str
  context : TaskContext
  state : ProcessState
  executionMode : ExecutionMode
  addressSpace : AddressSpace
  image : Option UserProgramImage
  deriving DecidableEq, Repr

def Process.new (id : Nat) (name : Str) : Process where
  id := id
  name := name
  context := ⟨id, 0⟩
  state := .ready
  executionMode := .kernel
  addressSpace := .new 0
  image := none

def Process.newUserStub (id : Nat) (name : Str) (image : UserProgramImage)
    (hhdmOffset userRangeStart userRangeEnd : UInt64) : Process where
  id := id
  name := name
  context := ⟨id, 0⟩
  state := .ready
  executionMode := .user
  addressSpace := .withUserRange hhdmOffset userRangeStart userRangeEnd
  image := some image

inductive Process.Constructed : Process → Prop
  | new (id : Nat) (name : Str) : Constructed (.new id name)
  | newUserStub (id : Nat) (name : Str) (image : UserProgramImage)
      (hhdmOffset userRangeStart userRangeEnd : UInt64) :
      Constructed (.newUserStub id name image hhdmOffset userRangeStart userRangeEnd)

theorem Process.Constructed.state_eq {process : Process} (h : process.Constructed) :
    process.state = .ready := by
  cases h with
  | new => rfl
  | newUserStub => rfl

/-! ## The scheduler -/

def maxTasks : Nat := 16

structure Scheduler where
  tasks : Fin maxTasks → Option Process
  len : Nat
  current : Option Nat
  len_le : len ≤ maxTasks
  current_lt : ∀ index ∈ current, index < len

namespace Scheduler

def new : Scheduler where
  tasks := fun _ => none
  len := 0
  current := none
  len_le := Nat.zero_le _
  current_lt := fun _ h => by cases h

def add (scheduler : Scheduler) (process : Process) : Scheduler :=
  if h : scheduler.len < maxTasks then
    { scheduler with
      tasks := Function.update scheduler.tasks ⟨scheduler.len, h⟩ (some process)
      len := scheduler.len + 1
      len_le := h
      current_lt := fun index hindex => Nat.lt_succ_of_lt (scheduler.current_lt index hindex) }
  else scheduler

def setState (tasks : Fin maxTasks → Option Process) (index : Nat)
    (state : Process → ProcessState) : Fin maxTasks → Option Process :=
  fun i =>
    if i.val = index then (tasks i).map fun process => { process with state := state process }
    else tasks i

def stoppedState (process : Process) : ProcessState := if process.id = 0 then .idle else .ready

def nextIndex (scheduler : Scheduler) : Nat :=
  match scheduler.current with
  | some current => (current + 1) % scheduler.len
  | none => 0

def runNext (scheduler : Scheduler) : Scheduler :=
  if h : scheduler.len = 0 then scheduler
  else
    let stopped :=
      match scheduler.current with
      | some current => setState scheduler.tasks current stoppedState
      | none => scheduler.tasks
    { scheduler with
      tasks := setState stopped scheduler.nextIndex fun _ => .running
      current := some scheduler.nextIndex
      current_lt := by
        intro index hindex
        rw [Option.mem_some_iff] at hindex
        rw [← hindex, nextIndex]
        have hpos : 0 < scheduler.len := Nat.pos_of_ne_zero h
        split
        · exact Nat.mod_lt _ hpos
        · exact hpos }

def currentTask (scheduler : Scheduler) : Option Process :=
  match scheduler.current with
  | none => none
  | some index => if h : index < maxTasks then scheduler.tasks ⟨index, h⟩ else none

/-- `usize::MAX`, the identifier stored when there is no current task. -/
def noTask : Nat := 2 ^ 64 - 1

def currentTaskId (scheduler : Scheduler) : Nat :=
  match scheduler.currentTask with
  | some task => task.id
  | none => noTask

end Scheduler

def schedulingModel : Str := "cooperative round-robin demo".toList

end AetherOs.Task
