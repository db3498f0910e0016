import AetherOs.Kernel.Init
import AetherOs.Task.Table
/-!
# The task statics

`TASK_COUNT` and `CURRENT_TASK_ID` are atomics beside the table, written by
`initialize` and `tick` while they hold `SCHEDULER`.  Between two calls they
agree with the table, in whatever order the calls come.
-/

namespace AetherOs.Kernel

open AetherOs.Support AetherOs.Task

inductive TaskCall where
  | initializeTasks
  | tick
  deriving DecidableEq, Repr

def TaskCall.program : TaskCall → Program
  | .initializeTasks => taskInitialize
  | .tick => schedulerTick

def schedulerTaskCount (s : KernelState) : Nat := s.taskCount

def schedulerCurrentTaskId (s : KernelState) : Option Nat :=
  if s.currentTaskId = Scheduler.noTask then none else some s.currentTaskId

def TaskCall.ops : TaskCall → List Scheduler.Op
  | .initializeTasks =>
      [.add (.new 0 "idle".toList), .add (.new 1 "init".toList), .runNext]
  | .tick => [.runNext]

/-- The statics agree with the table, which is that after `ops`. -/
structure Mirrors (s : KernelState) (ops : List Scheduler.Op) : Prop where
  table : s.scheduler = Scheduler.after ops
  count : s.taskCount = s.scheduler.len
  current : s.currentTaskId = s.scheduler.currentTaskId

theorem mirrors_initial : Mirrors .initial [] := ⟨rfl, rfl, rfl⟩

theorem run_taskInitialize (s : KernelState) :
    taskInitialize.run s = some { s with
      scheduler := Runs.exec Scheduler.apply s.scheduler TaskCall.initializeTasks.ops
      taskCount := (Runs.exec Scheduler.apply s.scheduler TaskCall.initializeTasks.ops).len
      currentTaskId :=
        (Runs.exec Scheduler.apply s.scheduler TaskCall.initializeTasks.ops).currentTaskId } :=
  rfl

theorem run_schedulerTick (s : KernelState) :
    schedulerTick.run s = some { s with
      scheduler := s.scheduler.runNext
      currentTaskId := s.scheduler.runNext.currentTaskId } :=
  rfl

theorem Mirrors.call {s : KernelState} {ops : List Scheduler.Op} (h : Mirrors s ops)
    (call : TaskCall) : ∃ s', call.program.run s = some s' ∧ Mirrors s' (ops ++ call.ops) := by
  have htable :
      Runs.exec Scheduler.apply s.scheduler call.ops = Scheduler.after (ops ++ call.ops) := by
    rw [h.table, Scheduler.after, Scheduler.after, Runs.exec_append]
  cases call with
  | initializeTasks => exact ⟨_, run_taskInitialize s, htable, rfl, rfl⟩
  | tick =>
      exact ⟨_, run_schedulerTick s, htable, h.count.trans Scheduler.runNext_len.symm, rfl⟩

theorem Mirrors.calls {s : KernelState} {ops : List Scheduler.Op} (h : Mirrors s ops)
    (calls : List TaskCall) :
    ∃ s', Prog.runAll (calls.map TaskCall.program) s = some s' ∧
      Mirrors s' (ops ++ calls.flatMap TaskCall.ops) := by
  induction calls generalizing s ops with
  | nil => exact ⟨s, rfl, by rwa [List.flatMap_nil, List.append_nil]⟩
  | cons call calls ih =>
      obtain ⟨mid, hmid, hcall⟩ := h.call call
      obtain ⟨s', hs', hcalls⟩ := ih hcall
      refine ⟨s', ?_, ?_⟩
      · rw [List.map_cons, Prog.runAll_cons, hmid]
        exact hs'
      · rw [List.flatMap_cons, ← List.append_assoc]
        exact hcalls

theorem added_eq {calls : List TaskCall} {q : Process}
    (hq : q ∈ Scheduler.added (calls.flatMap TaskCall.ops)) :
    q = .new 0 "idle".toList ∨ q = .new 1 "init".toList := by
  obtain ⟨op, hop, hprocess⟩ := List.mem_filterMap.mp (List.mem_of_mem_take hq)
  obtain ⟨call, -, hcall⟩ := List.mem_flatMap.mp hop
  cases call with
  | initializeTasks =>
      simp only [TaskCall.ops, List.mem_cons, List.not_mem_nil, or_false] at hcall
      rcases hcall with rfl | rfl | rfl
      · exact Or.inl (Option.some.inj hprocess).symm
      · exact Or.inr (Option.some.inj hprocess).symm
      · cases hprocess
  | tick =>
      rw [List.mem_singleton.mp hcall] at hprocess
      cases hprocess

/-- The current task is one that `task::initialize` has added, in some state. -/
theorem currentTask_eq {calls : List TaskCall} {task : Process}
    (htask : (Scheduler.after (calls.flatMap TaskCall.ops)).currentTask = some task) :
    ∃ q : Process, (q = .new 0 "idle".toList ∨ q = .new 1 "init".toList) ∧
      task = { q with state := task.state } := by
  rw [Scheduler.currentTask] at htask
  split at htask
  · cases htask
  · split_ifs at htask
    obtain ⟨q, hq, heq, -⟩ := (Scheduler.tabled_after _).of_task htask
    exact ⟨q, added_eq (List.mem_of_getElem? hq), heq⟩

theorem Mirrors.currentTaskId_eq {s : KernelState} {calls : List TaskCall}
    (h : Mirrors s (calls.flatMap TaskCall.ops)) :
    schedulerCurrentTaskId s = s.scheduler.currentTask.map Process.id := by
  unfold schedulerCurrentTaskId
  rw [h.current, Scheduler.currentTaskId]
  cases htask : s.scheduler.currentTask with
  | none => rfl
  | some task =>
      have hsmall : task.id < 2 := by
        rw [h.table] at htask
        obtain ⟨q, hq, heq⟩ := currentTask_eq htask
        rw [heq]
        rcases hq with rfl | rfl
        · exact (by decide : (0 : Nat) < 2)
        · exact (by decide : (1 : Nat) < 2)
      have hne : task.id ≠ Scheduler.noTask := by
        have : (2 : Nat) < Scheduler.noTask := by decide
        omega
      rw [if_neg hne]
      rfl

/-- The table is well kept after any calls of `add` and `run_next`, with processes as
their constructors make them, and the statics agree with it after any calls of
`initialize` and `tick`. -/
theorem scheduler_table_and_statics :
    (∀ ops : List Scheduler.Op,
      (∀ process, .add process ∈ ops → process.state ≠ .running) → Scheduler.WellKept ops) ∧
    ∀ calls : List TaskCall, ∃ s,
      Prog.runAll (calls.map TaskCall.program) .initial = some s ∧
        schedulerTaskCount s = s.scheduler.len ∧
        schedulerCurrentTaskId s = s.scheduler.currentTask.map Process.id := by
  refine ⟨Scheduler.wellKept, fun calls => ?_⟩
  obtain ⟨s, hrun, hmirrors⟩ := mirrors_initial.calls calls
  exact ⟨s, hrun, hmirrors.count, hmirrors.currentTaskId_eq⟩

/-- Two processes, the first of which has run and stopped. -/
theorem scheduler_table_and_statics_two :
    Scheduler.WellKept
        [.add (.new 0 "idle".toList), .runNext, .add (.new 1 "init".toList), .runNext] ∧
      (Scheduler.after [.add (.new 0 "idle".toList), .runNext, .add (.new 1 "init".toList),
        .runNext]).current = some 1 := by
  refine ⟨scheduler_table_and_statics.1 _ ?_, by decide⟩
  intro process hmem
  simp only [List.mem_cons, Scheduler.Op.add.injEq, reduceCtorEq, List.not_mem_nil, or_false,
    false_or] at hmem
  have hmade : process.Constructed := by
    rcases hmem with rfl | rfl
    · exact .new 0 _
    · exact .new 1 _
  rw [hmade.state_eq]
  decide

end AetherOs.Kernel
