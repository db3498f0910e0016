import AetherOs.Task.Table
import Mathlib.Data.Int.ModEq
/-!
# Round-robin

`run_next` moves the cursor by one slot and starts over behind the last one.
Without an `add` the cursor counts modulo the number of tasks.  With `add` the
modulus grows while the rotation is under way, and a task behind the cursor has
to wait longer than before; `wait` bounds that by the size of the table, not by
the number of tasks, so that an `add` does not change it.
-/

namespace AetherOs.Task.Scheduler

open AetherOs.Support

variable {scheduler : Scheduler}

def IsRunning (scheduler : Scheduler) (i : Fin maxTasks) : Prop :=
  scheduler.current = some i.val ∧ ∃ p, scheduler.tasks i = some p ∧ p.state = .running

theorem after_append (ops later : List Op) :
    after (ops ++ later) = Runs.exec apply (after ops) later :=
  Runs.exec_append _ _ _

theorem isRunning_of_current {ops : List Op} {i : Fin maxTasks}
    (h : (after ops).current = some i.val) : IsRunning (after ops) i := by
  have htabled := tabled_after ops
  have hlt : i.val < (added ops).length := htabled.ran_lt i (htabled.current_ran i h)
  obtain ⟨state, htask, hshows⟩ := htabled.slot i _ (List.getElem?_eq_getElem hlt)
  refine ⟨h, _, htask, ?_⟩
  cases hshows with
  | runs => rfl
  | stopped hne => exact absurd h hne
  | waits hne => exact absurd h hne

/-! ## Without `add` -/

theorem nextIndex_of_current {c : Nat} (h : scheduler.current = some c) :
    scheduler.nextIndex = (c + 1) % scheduler.len := by
  rw [nextIndex, h]

theorem exec_replicate_runNext {c : Nat} (h : scheduler.current = some c) (k : Nat) :
    (Runs.exec apply scheduler (List.replicate k .runNext)).current =
      some ((c + k) % scheduler.len) := by
  have hlt := scheduler.current_lt c h
  induction k generalizing scheduler c with
  | zero => rw [List.replicate_zero, Runs.exec_nil, h, Nat.add_zero, Nat.mod_eq_of_lt hlt]
  | succ k ih =>
      have hne : scheduler.len ≠ 0 := by omega
      have hnext : scheduler.runNext.current = some ((c + 1) % scheduler.len) := by
        rw [runNext_current hne, nextIndex_of_current h]
      have hrest := ih hnext (scheduler.runNext.current_lt _ hnext)
      rw [List.replicate_succ, Runs.exec_cons, apply, hrest, runNext_len, Nat.mod_add_mod,
        Nat.add_assoc, Nat.add_comm 1 k]

/-- From `start` on, a rotation of `len` steps meets every slot once. -/
theorem existsUnique_rotation {start len i : Nat} (hstart : start ≤ len) (hi : i < len) :
    ∃! k, k < len ∧ (start + k) % len = i := by
  have hpos : 0 < len := by omega
  refine ⟨(i + len - start) % len, ⟨Nat.mod_lt _ hpos, ?_⟩, ?_⟩
  · rw [Nat.add_mod_mod, show start + (i + len - start) = i + len by omega, Nat.add_mod_right,
      Nat.mod_eq_of_lt hi]
  · rintro k ⟨hk, hslot⟩
    have hmod : start + k ≡ start + (i + len - start) [MOD len] := by
      rw [show start + (i + len - start) = i + len by omega, Nat.ModEq, hslot,
        Nat.add_mod_right, Nat.mod_eq_of_lt hi]
    have hcancel : k ≡ i + len - start [MOD len] := Nat.ModEq.add_left_cancel' start hmod
    rw [Nat.ModEq, Nat.mod_eq_of_lt hk] at hcancel
    exact hcancel

/-! ## With `add` -/

/-- How many calls of `run_next` slot `t` waits at most. -/
def wait (t : Nat) : Option Nat → Nat
  | none => t + 1
  | some c => if c < t then t - c else maxTasks - c + t

theorem wait_le (t : Fin maxTasks) (scheduler : Scheduler) :
    wait t scheduler.current ≤ maxTasks := by
  have ht := t.isLt
  cases scheduler.current with
  | none => exact ht
  | some c =>
      rw [wait]
      split_ifs <;> omega

theorem wait_pos (t : Nat) (scheduler : Scheduler) : 0 < wait t scheduler.current := by
  cases hcurrent : scheduler.current with
  | none => exact Nat.succ_pos t
  | some c =>
      have hc := (scheduler.current_lt c hcurrent).trans_le scheduler.len_le
      rw [wait]
      split_ifs <;> omega

/-- A call of `run_next` reaches slot `t` or brings it closer. -/
theorem runNext_wait {t : Nat} (ht : t < scheduler.len) :
    scheduler.runNext.current = some t ∨
      wait t scheduler.runNext.current < wait t scheduler.current := by
  have hne : scheduler.len ≠ 0 := by omega
  have hmax := scheduler.len_le
  rw [runNext_current hne, Option.some.injEq, wait]
  cases hcurrent : scheduler.current with
  | none =>
      have hnext : scheduler.nextIndex = 0 := by rw [nextIndex, hcurrent]
      rw [hnext, wait]
      split_ifs <;> omega
  | some c =>
      have hc := scheduler.current_lt c hcurrent
      rw [nextIndex_of_current hcurrent, wait]
      by_cases hlast : c + 1 = scheduler.len
      · -- the rotation starts over, and the slots up to `t` are still to come
        rw [hlast, Nat.mod_self]
        split_ifs <;> omega
      · rw [Nat.mod_eq_of_lt (by omega)]
        split_ifs <;> omega

theorem len_le_add (scheduler : Scheduler) (process : Process) :
    scheduler.len ≤ (scheduler.add process).len := by
  rw [add]
  split_ifs
  · exact Nat.le_succ _
  · exact Nat.le_refl _

/-- The rotation reaches slot `t` before its wait is over. -/
theorem exists_current_of_wait {t : Nat} {later : List Op} (ht : t < scheduler.len)
    (hwait : wait t scheduler.current ≤ later.count .runNext) :
    ∃ n, later[n]? = some .runNext ∧
      (Runs.exec apply scheduler (later.take (n + 1))).current = some t := by
  induction later generalizing scheduler with
  | nil =>
      have hpos := wait_pos t scheduler
      rw [List.count_nil] at hwait
      omega
  | cons op later ih =>
      cases op with
      | add process =>
          have hsame := add_current scheduler process
          have hlt : t < (scheduler.add process).len := ht.trans_le (len_le_add _ _)
          rw [List.count_cons_of_ne (by simp)] at hwait
          obtain ⟨n, hop, hn⟩ := ih hlt (by rwa [hsame])
          exact ⟨n + 1, hop, hn⟩
      | runNext =>
          rw [List.count_cons_self] at hwait
          rcases runNext_wait ht with hnow | hless
          · exact ⟨0, rfl, hnow⟩
          · have hlt : t < scheduler.runNext.len := by rwa [runNext_len]
            obtain ⟨n, hop, hn⟩ := ih hlt (by omega)
            exact ⟨n + 1, hop, hn⟩

/-! ## Any run -/

structure RoundRobin (ops : List Op) : Prop where
  rotates : ∀ c, (after ops).current = some c → ∀ k,
    (after (ops ++ List.replicate k .runNext)).current = some ((c + k) % (after ops).len)
  once : ∀ c, (after ops).current = some c →
    ∀ i : Fin maxTasks, i.val < (after ops).len →
      ∃! k, k < (after ops).len ∧
        IsRunning (after (ops ++ List.replicate (k + 1) .runNext)) i
  within : ∀ later : List Op, later.count .runNext = maxTasks →
    ∀ i : Fin maxTasks, i.val < (after ops).len →
      ∃ n, later[n]? = some .runNext ∧ IsRunning (after (ops ++ later.take (n + 1))) i

theorem roundRobin (ops : List Op) : RoundRobin ops where
  rotates := by
    intro c hc k
    rw [after_append]
    exact exec_replicate_runNext hc k
  once := by
    intro c hc i hi
    have hlt := (after ops).current_lt c hc
    have hrunning : ∀ k, IsRunning (after (ops ++ List.replicate (k + 1) .runNext)) i ↔
        (c + 1 + k) % (after ops).len = i.val := by
      intro k
      have hcurrent : (after (ops ++ List.replicate (k + 1) .runNext)).current =
          some ((c + 1 + k) % (after ops).len) := by
        rw [after_append, exec_replicate_runNext hc, Nat.add_assoc, Nat.add_comm 1 k]
      constructor
      · rintro ⟨h, -⟩
        rw [hcurrent] at h
        exact Option.some.inj h
      · intro h
        rw [h] at hcurrent
        exact isRunning_of_current hcurrent
    simp only [hrunning]
    exact existsUnique_rotation hlt hi
  within := by
    intro later hcount i hi
    obtain ⟨n, hop, hn⟩ := exists_current_of_wait hi ((wait_le i (after ops)).trans_eq hcount.symm)
    rw [← after_append] at hn
    exact ⟨n, hop, isRunning_of_current hn⟩

end AetherOs.Task.Scheduler
