import AetherOs.Support.Runs
import AetherOs.Task.Scheduler
/-!
# What the task table holds

`Tabled` describes the table after any sequence of `add` and `run_next` calls
by two things that only the history knows: the processes that were added, in
their order, and the slots that have run.  Slot `i` holds the `i`-th process as
it was added, except for its state, which says whether it runs now, has run or
has not run yet.
-/

namespace AetherOs.Task

open AetherOs.Support

inductive Scheduler.Op where
  | add (process : Process)
  | runNext
  deriving DecidableEq, Repr

namespace Scheduler

def apply (scheduler : Scheduler) : Op → Scheduler
  | .add process => scheduler.add process
  | .runNext => scheduler.runNext

def after (ops : List Op) : Scheduler := Runs.exec apply new ops

def Op.process? : Op → Option Process
  | .add process => some process
  | .runNext => none

def added (ops : List Op) : List Process := (ops.filterMap Op.process?).take maxTasks

def HasRun (ops : List Op) (i : Nat) : Prop := ∃ n, (after (ops.take n)).current = some i

inductive Shows (current : Option Nat) (ran : Nat → Prop) (i : Nat) (q : Process) :
    ProcessState → Prop
  | runs (h : current = some i) : Shows current ran i q .running
  | stopped (h : current ≠ some i) (hran : ran i) : Shows current ran i q (stoppedState q)
  | waits (h : current ≠ some i) (hran : ¬ ran i) : Shows current ran i q q.state

structure Tabled (scheduler : Scheduler) (processes : List Process) (ran : Nat → Prop) :
    Prop where
  len_eq : scheduler.len = processes.length
  empty : ∀ i : Fin maxTasks, processes.length ≤ i.val → scheduler.tasks i = none
  slot : ∀ (i : Fin maxTasks) q, processes[i.val]? = some q →
    ∃ state, scheduler.tasks i = some { q with state := state } ∧
      Shows scheduler.current ran i q state
  ran_lt : ∀ i, ran i → i < processes.length
  current_ran : ∀ i, scheduler.current = some i → ran i

/-! ## One call -/

variable {scheduler : Scheduler} {processes : List Process} {ran : Nat → Prop}

theorem tabled_new : Tabled new [] (fun _ => False) where
  len_eq := rfl
  empty := fun _ _ => rfl
  slot := fun _ _ h => by cases h
  ran_lt := fun _ h => h.elim
  current_ran := fun _ h => by cases h

theorem add_of_full (hfull : ¬ scheduler.len < maxTasks) (process : Process) :
    scheduler.add process = scheduler := by
  rw [add, dif_neg hfull]

theorem add_current (scheduler : Scheduler) (process : Process) :
    (scheduler.add process).current = scheduler.current := by
  rw [add]
  split_ifs <;> rfl

theorem Tabled.add (h : Tabled scheduler processes ran) (hroom : scheduler.len < maxTasks)
    (process : Process) : Tabled (scheduler.add process) (processes ++ [process]) ran := by
  have hlen := h.len_eq
  have htasks : (scheduler.add process).tasks =
      Function.update scheduler.tasks ⟨scheduler.len, hroom⟩ (some process) := by
    simp only [Scheduler.add, dif_pos hroom]
  have hcurrent : (scheduler.add process).current = scheduler.current := by
    simp only [Scheduler.add, dif_pos hroom]
  constructor
  · have hadd : (scheduler.add process).len = scheduler.len + 1 := by
      simp only [Scheduler.add, dif_pos hroom]
    rw [hadd, hlen, List.length_append, List.length_singleton]
  · intro i hi
    rw [List.length_append, List.length_singleton] at hi
    rw [htasks, Function.update_of_ne, h.empty i (by omega)]
    rw [Ne, Fin.ext_iff]
    change ¬ i.val = scheduler.len
    omega
  · intro i q hq
    rw [htasks, hcurrent]
    by_cases hi : i.val = scheduler.len
    · -- the new slot: it is not the current one and has not run
      have hslot : i = ⟨scheduler.len, hroom⟩ := Fin.ext hi
      have hqp : q = process := by
        rw [hi, hlen, List.getElem?_concat_length] at hq
        exact (Option.some.inj hq).symm
      subst hqp
      refine ⟨q.state, ?_, .waits ?_ ?_⟩
      · rw [hslot, Function.update_self]
      · intro hcur
        have := h.ran_lt i (h.current_ran i hcur)
        omega
      · intro hran
        have := h.ran_lt i hran
        omega
    · have hold : processes[i.val]? = some q := by
        rw [List.getElem?_append] at hq
        split_ifs at hq with hlt
        · exact hq
        · have hzero : i.val - processes.length = 0 := by
            have := (List.getElem?_eq_some_iff.mp hq).1
            simp only [List.length_singleton] at this
            omega
          omega
      rw [Function.update_of_ne (fun heq => hi (congrArg Fin.val heq))]
      exact h.slot i q hold
  · intro i hran
    rw [List.length_append]
    exact Nat.lt_add_right _ (h.ran_lt i hran)
  · intro i hi
    rw [hcurrent] at hi
    exact h.current_ran i hi

theorem setState_of_eq {tasks : Fin maxTasks → Option Process} {i : Fin maxTasks} {index : Nat}
    {state : Process → ProcessState} (hi : i.val = index) {p : Process} (hp : tasks i = some p) :
    setState tasks index state i = some { p with state := state p } := by
  rw [setState, if_pos hi, hp]
  rfl

theorem setState_of_ne {tasks : Fin maxTasks → Option Process} {i : Fin maxTasks} {index : Nat}
    {state : Process → ProcessState} (hi : i.val ≠ index) :
    setState tasks index state i = tasks i := by
  rw [setState, if_neg hi]

theorem setState_eq_none {tasks : Fin maxTasks → Option Process} {i : Fin maxTasks} {index : Nat}
    {state : Process → ProcessState} (hi : tasks i = none) :
    setState tasks index state i = none := by
  rw [setState, hi]
  split_ifs <;> rfl

/-- The table after the first half of `run_next`: the current task has stopped. -/
def stopCurrent (scheduler : Scheduler) : Fin maxTasks → Option Process :=
  match scheduler.current with
  | some current => setState scheduler.tasks current stoppedState
  | none => scheduler.tasks

theorem runNext_of_empty (hzero : scheduler.len = 0) : scheduler.runNext = scheduler := by
  rw [runNext, dif_pos hzero]

theorem runNext_tasks (hne : scheduler.len ≠ 0) :
    scheduler.runNext.tasks =
      setState scheduler.stopCurrent scheduler.nextIndex fun _ => .running := by
  simp only [runNext, dif_neg hne]
  rfl

theorem runNext_current (hne : scheduler.len ≠ 0) :
    scheduler.runNext.current = some scheduler.nextIndex := by
  simp only [runNext, dif_neg hne]

theorem runNext_len : scheduler.runNext.len = scheduler.len := by
  rw [runNext]
  split_ifs <;> rfl

theorem nextIndex_lt (hne : scheduler.len ≠ 0) : scheduler.nextIndex < scheduler.len :=
  scheduler.runNext.current_lt _ (runNext_current hne) |>.trans_eq runNext_len

/-- What a slot shows once the current task has stopped. -/
theorem Tabled.stopCurrent (h : Tabled scheduler processes ran) {i : Fin maxTasks} {q : Process}
    (hq : processes[i.val]? = some q) :
    ∃ state, scheduler.stopCurrent i = some { q with state := state } ∧
      ((ran i ∧ state = stoppedState q) ∨ (¬ ran i ∧ state = q.state)) := by
  obtain ⟨state, htask, hshows⟩ := h.slot i q hq
  unfold Scheduler.stopCurrent
  cases hcur : scheduler.current with
  | none =>
      refine ⟨state, htask, ?_⟩
      cases hshows with
      | runs hc => rw [hcur] at hc; cases hc
      | stopped _ hran => exact Or.inl ⟨hran, rfl⟩
      | waits _ hran => exact Or.inr ⟨hran, rfl⟩
  | some current =>
      by_cases hi : i.val = current
      · refine ⟨stoppedState q, ?_, Or.inl ⟨h.current_ran i ?_, rfl⟩⟩
        · exact (setState_of_eq hi htask).trans rfl
        · rw [hcur, hi]
      · refine ⟨state, ?_, ?_⟩
        · exact (setState_of_ne hi).trans htask
        · cases hshows with
          | runs hc =>
              rw [hcur, Option.some.injEq] at hc
              exact absurd hc.symm hi
          | stopped _ hran => exact Or.inl ⟨hran, rfl⟩
          | waits _ hran => exact Or.inr ⟨hran, rfl⟩

theorem Tabled.runNext (h : Tabled scheduler processes ran) (hne : scheduler.len ≠ 0) :
    Tabled scheduler.runNext processes (fun i => ran i ∨ i = scheduler.nextIndex) where
  len_eq := runNext_len.trans h.len_eq
  empty := by
    intro i hi
    have hnone := h.empty i hi
    rw [runNext_tasks hne]
    apply setState_eq_none
    unfold Scheduler.stopCurrent
    cases scheduler.current with
    | none => exact hnone
    | some current => exact setState_eq_none hnone
  slot := by
    intro i q hq
    obtain ⟨state, htask, hstate⟩ := h.stopCurrent hq
    rw [runNext_tasks hne, runNext_current hne]
    by_cases hi : i.val = scheduler.nextIndex
    · refine ⟨.running, ?_, .runs (by rw [hi])⟩
      rw [setState_of_eq hi htask]
    · have hcurrent : some scheduler.nextIndex ≠ some i.val := by
        rw [Ne, Option.some.injEq]
        exact fun heq => hi heq.symm
      refine ⟨state, (setState_of_ne hi).trans htask, ?_⟩
      rcases hstate with ⟨hran, rfl⟩ | ⟨hran, rfl⟩
      · exact .stopped hcurrent (Or.inl hran)
      · exact .waits hcurrent (not_or.mpr ⟨hran, hi⟩)
  ran_lt := by
    rintro i (hran | rfl)
    · exact h.ran_lt i hran
    · exact (nextIndex_lt hne).trans_eq h.len_eq
  current_ran := by
    intro i hi
    rw [runNext_current hne, Option.some.injEq] at hi
    exact Or.inr hi.symm

/-! ## Any sequence of calls -/

theorem Tabled.congr {ran' : Nat → Prop} (h : Tabled scheduler processes ran)
    (hran : ∀ i, ran i ↔ ran' i) : Tabled scheduler processes ran' := by
  have hfun : ran = ran' := funext fun i => propext (hran i)
  rw [← hfun]
  exact h

theorem after_concat (ops : List Op) (op : Op) : after (ops ++ [op]) = (after ops).apply op := by
  rw [after, Runs.exec_append]
  rfl

theorem added_concat_runNext (ops : List Op) : added (ops ++ [.runNext]) = added ops := by
  rw [added, List.filterMap_append]
  change ((ops.filterMap Op.process?) ++ []).take maxTasks = _
  rw [List.append_nil, added]

theorem added_concat_add (ops : List Op) (process : Process) :
    added (ops ++ [.add process]) =
      if (added ops).length < maxTasks then added ops ++ [process] else added ops := by
  have hlen : (added ops).length = min maxTasks (ops.filterMap Op.process?).length :=
    List.length_take
  have happend : (ops ++ [Op.add process]).filterMap Op.process? =
      ops.filterMap Op.process? ++ [process] := by
    rw [List.filterMap_append]
    rfl
  split_ifs with hroom
  · have hshort : (ops.filterMap Op.process?).length < maxTasks := by omega
    rw [added, happend, added, List.take_of_length_le (by simp; omega),
      List.take_of_length_le (by omega)]
  · rw [added, happend, List.take_append_of_le_length (by omega)]
    rfl

theorem hasRun_of_current {ops : List Op} {i : Nat} (h : (after ops).current = some i) :
    HasRun ops i :=
  ⟨ops.length, by rwa [List.take_length]⟩

theorem hasRun_concat (ops : List Op) (op : Op) (i : Nat) :
    HasRun (ops ++ [op]) i ↔ HasRun ops i ∨ (after (ops ++ [op])).current = some i := by
  constructor
  · rintro ⟨n, hn⟩
    by_cases hle : n ≤ ops.length
    · rw [List.take_append_of_le_length hle] at hn
      exact Or.inl ⟨n, hn⟩
    · rw [List.take_of_length_le (by simp; omega)] at hn
      exact Or.inr hn
  · rintro (⟨n, hn⟩ | h)
    · refine ⟨min n ops.length, ?_⟩
      rw [List.take_append_of_le_length (Nat.min_le_right _ _), ← List.take_eq_take_min]
      exact hn
    · exact hasRun_of_current h

theorem tabled_after (ops : List Op) : Tabled (after ops) (added ops) (HasRun ops) := by
  induction ops using List.reverseRecOn with
  | nil =>
      refine tabled_new.congr fun i => iff_of_false id ?_
      rintro ⟨n, hn⟩
      rw [List.take_nil] at hn
      cases hn
  | append_singleton ops op ih =>
      rw [after_concat]
      cases op with
      | add process =>
          have hsame : (after (ops ++ [Op.add process])).current = (after ops).current := by
            rw [after_concat, apply, add_current]
          have hran : ∀ i, HasRun ops i ↔ HasRun (ops ++ [.add process]) i := by
            intro i
            rw [hasRun_concat, hsame]
            exact ⟨Or.inl, fun h => h.elim id hasRun_of_current⟩
          rw [added_concat_add, ← ih.len_eq]
          split_ifs with hroom
          · exact (ih.add hroom process).congr hran
          · rw [apply, add_of_full hroom]
            exact ih.congr hran
      | runNext =>
          rw [added_concat_runNext, apply]
          by_cases hzero : (after ops).len = 0
          · have hran : ∀ i, HasRun ops i ↔ HasRun (ops ++ [.runNext]) i := by
              intro i
              rw [hasRun_concat, after_concat, apply, runNext_of_empty hzero]
              exact ⟨Or.inl, fun h => h.elim id hasRun_of_current⟩
            rw [runNext_of_empty hzero]
            exact ih.congr hran
          · refine (ih.runNext hzero).congr fun i => ?_
            rw [hasRun_concat, after_concat, apply, runNext_current hzero, Option.some.injEq,
              eq_comm]

structure WellKept (ops : List Op) : Prop where
  filled : ∀ i : Fin maxTasks, i.val < (after ops).len → ∃ p, (after ops).tasks i = some p
  vacant : ∀ i : Fin maxTasks, (after ops).len ≤ i.val → (after ops).tasks i = none
  len_le : (after ops).len ≤ maxTasks
  current_lt : ∀ c, (after ops).current = some c → c < (after ops).len
  one_running : ∀ c, (after ops).current = some c →
    ∃ i : Fin maxTasks, i.val = c ∧
      (∃ p, (after ops).tasks i = some p ∧ p.state = .running) ∧
      ∀ j p, (after ops).tasks j = some p → p.state = .running → j = i
  none_running : (after ops).current = none →
    ∀ i p, (after ops).tasks i = some p → p.state ≠ .running
  stopped : ∀ (i : Fin maxTasks) p, (after ops).tasks i = some p →
    (after ops).current ≠ some i.val → HasRun ops i →
    p.state = if p.id = 0 then .idle else .ready
  unchanged : ∀ (i : Fin maxTasks) p, (after ops).tasks i = some p →
    ∃ q, (added ops)[i.val]? = some q ∧ p = { q with state := p.state }
  full : (after ops).len = maxTasks → ∀ process, (after ops).add process = after ops

theorem Tabled.of_task (h : Tabled scheduler processes ran) {i : Fin maxTasks} {p : Process}
    (hp : scheduler.tasks i = some p) :
    ∃ q, processes[i.val]? = some q ∧ p = { q with state := p.state } ∧
      Shows scheduler.current ran i q p.state := by
  by_cases hi : i.val < processes.length
  · have hq := List.getElem?_eq_getElem hi
    obtain ⟨state, htask, hshows⟩ := h.slot i _ hq
    rw [htask, Option.some.injEq] at hp
    rw [← hp]
    exact ⟨_, hq, rfl, hshows⟩
  · rw [h.empty i (Nat.le_of_not_lt hi)] at hp
    cases hp

theorem stoppedState_ne_running (process : Process) : stoppedState process ≠ .running := by
  unfold stoppedState
  split_ifs <;> decide

theorem Tabled.running (h : Tabled scheduler processes ran)
    (hready : ∀ q ∈ processes, q.state ≠ .running) {i : Fin maxTasks} {p : Process}
    (hp : scheduler.tasks i = some p) (hrunning : p.state = .running) :
    scheduler.current = some i.val := by
  obtain ⟨q, hq, -, hshows⟩ := h.of_task hp
  rw [hrunning] at hshows
  generalize hstate : ProcessState.running = state at hshows
  cases hshows with
  | runs hcurrent => exact hcurrent
  | stopped => exact absurd hstate.symm (stoppedState_ne_running q)
  | waits => exact absurd hstate.symm (hready q (List.mem_of_getElem? hq))

theorem wellKept (ops : List Op)
    (hready : ∀ process, .add process ∈ ops → process.state ≠ .running) : WellKept ops := by
  have h := tabled_after ops
  have hadded : ∀ q ∈ added ops, q.state ≠ .running := by
    intro q hq
    obtain ⟨op, hop, hprocess⟩ := List.mem_filterMap.mp (List.mem_of_mem_take hq)
    cases op with
    | add process =>
        cases hprocess
        exact hready q hop
    | runNext => cases hprocess
  constructor
  case filled =>
    intro i hi
    rw [h.len_eq] at hi
    obtain ⟨state, htask, -⟩ := h.slot i _ (List.getElem?_eq_getElem hi)
    exact ⟨_, htask⟩
  case vacant =>
    intro i hi
    exact h.empty i (h.len_eq ▸ hi)
  case len_le => exact (after ops).len_le
  case current_lt => exact (after ops).current_lt
  case one_running =>
    intro c hc
    have hlt := (after ops).current_lt c hc
    refine ⟨⟨c, hlt.trans_le (after ops).len_le⟩, rfl, ?_, fun j p hp hrunning => ?_⟩
    · obtain ⟨state, htask, hshows⟩ :=
        h.slot ⟨c, hlt.trans_le (after ops).len_le⟩ _ (List.getElem?_eq_getElem (h.len_eq ▸ hlt))
      refine ⟨_, htask, ?_⟩
      cases hshows with
      | runs => rfl
      | stopped hne => exact absurd hc hne
      | waits hne => exact absurd hc hne
    · have hj := h.running hadded hp hrunning
      rw [hc, Option.some.injEq] at hj
      exact Fin.ext hj.symm
  case none_running =>
    intro hnone i p hp hrunning
    rw [h.running hadded hp hrunning] at hnone
    cases hnone
  case stopped =>
    intro i p hp hcurrent hran
    obtain ⟨q, -, heq, hshows⟩ := h.of_task hp
    have hid : p.id = q.id := by rw [heq]
    generalize p.state = state at hshows
    cases hshows with
    | runs hc => exact absurd hc hcurrent
    | stopped => rw [hid, stoppedState]
    | waits _ hnot => exact absurd hran hnot
  case unchanged =>
    intro i p hp
    obtain ⟨q, hq, heq, -⟩ := h.of_task hp
    exact ⟨q, hq, heq⟩
  case full =>
    intro hlen process
    exact add_of_full (by omega) process

end Scheduler

end AetherOs.Task
