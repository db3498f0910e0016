import AetherOs.Support.Interleaving
import Mathlib.Algebra.BigOperators.Group.Finset.Basic
import Mathlib.Algebra.Order.BigOperators.Group.Finset
/-!
# Retry loops that end

A call that shares a memory with others may have to start its loop again
because another call has written in between.  `Lively` bounds how often: every
write uses up some of the work that is left, in the memory or in the calls, and
between two writes each step of a call lowers its rank.  So a call ends after a
number of its own steps that depends on the number of calls taking part and not
on the schedule.
-/

namespace AetherOs.Support.Interleaving

open AetherOs.Support

variable {σ π : Type}

/-- `toDo` and `owes` count the writes that the memory and a call still allow,
and `rank` the steps of a call until it writes or ends if no other call writes. -/
structure Lively (next : σ → π → Option (σ × π)) (toDo : σ → Nat) (owes : π → Nat)
    (rank : σ → π → Nat) (slack : Nat) : Prop where
  ended : ∀ s s' pc, next s pc = none → next s' pc = none
  step : ∀ s pc s' pc', next s pc = some (s', pc') →
    (s' = s ∧ owes pc' ≤ owes pc ∧ rank s pc' < rank s pc) ∨
      (toDo s' + owes pc' < toDo s + owes pc ∧ rank s' pc' ≤ rank s pc + slack ∧
        ∀ other, rank s' other ≤ rank s other + slack)

def writesLeft (toDo : σ → Nat) (owes : π → Nat) (calls : Finset Nat) (s : Config σ π) : Nat :=
  toDo s.shared + ∑ c ∈ calls, owes (s.calls c)

def budget (toDo : σ → Nat) (owes : π → Nat) (rank : σ → π → Nat) (slack : Nat)
    (calls : Finset Nat) (c : Nat) (s : Config σ π) : Nat :=
  rank s.shared (s.calls c) + (slack + 1) * writesLeft toDo owes calls s

variable {next : σ → π → Option (σ × π)} {toDo : σ → Nat} {owes : π → Nat}
  {rank : σ → π → Nat} {slack : Nat} {calls : Finset Nat} {s : Config σ π} {c d : Nat}

theorem sum_update (owes : π → Nat) (pcs : Nat → π) (pc : π) (hd : d ∈ calls) :
    ∑ e ∈ calls, owes (Function.update pcs d pc e) + owes (pcs d) =
      ∑ e ∈ calls, owes (pcs e) + owes pc := by
  have hrest : ∑ e ∈ calls.erase d, owes (Function.update pcs d pc e) =
      ∑ e ∈ calls.erase d, owes (pcs e) := by
    refine Finset.sum_congr rfl fun e he => ?_
    rw [Function.update_of_ne (Finset.ne_of_mem_erase he)]
  have hnew := Finset.add_sum_erase calls (fun e => owes (Function.update pcs d pc e)) hd
  have hold := Finset.add_sum_erase calls (fun e => owes (pcs e)) hd
  simp only [Function.update_self] at hnew
  omega

namespace Lively

theorem step_budget (h : Lively next toDo owes rank slack) (hd : d ∈ calls) {shared : σ} {pc : π}
    (hn : next s.shared (s.calls d) = some (shared, pc)) :
    budget toDo owes rank slack calls c (Interleaving.step next s d) +
      (if d = c then 1 else 0) ≤
      budget toDo owes rank slack calls c s := by
  have hsum := sum_update owes s.calls pc hd
  rw [step_of_some hn]
  rcases h.step s.shared (s.calls d) shared pc hn with ⟨rfl, howes, hrank⟩ | ⟨hless, hrank, hothers⟩
  · -- no write: the rank of the call goes down
    have hleft : writesLeft toDo owes calls ⟨s.shared, Function.update s.calls d pc⟩ ≤
        writesLeft toDo owes calls s := by
      unfold writesLeft
      dsimp only
      omega
    have hmul := Nat.mul_le_mul_left (slack + 1) hleft
    unfold budget
    dsimp only
    split_ifs with hdc
    · subst hdc
      rw [Function.update_self]
      omega
    · rw [Function.update_of_ne (Ne.symm hdc)]
      omega
  · -- a write: it is paid for, with the steps that it costs the others
    have hleft : writesLeft toDo owes calls ⟨shared, Function.update s.calls d pc⟩ + 1 ≤
        writesLeft toDo owes calls s := by
      unfold writesLeft
      dsimp only
      omega
    have hmul := Nat.mul_le_mul_left (slack + 1) hleft
    rw [Nat.mul_add, Nat.mul_one] at hmul
    have hc : rank shared (Function.update s.calls d pc c) ≤ rank s.shared (s.calls c) + slack := by
      by_cases hdc : c = d
      · subst hdc
        rw [Function.update_self]
        exact hrank
      · rw [Function.update_of_ne hdc]
        exact hothers _
    unfold budget
    dsimp only
    split_ifs <;> omega

theorem ended_exec (h : Lively next toDo owes rank slack)
    (hend : next s.shared (s.calls c) = none) (schedule : List Nat) :
    next (Runs.exec (Interleaving.step next) s schedule).shared
      ((Runs.exec (Interleaving.step next) s schedule).calls c) = none := by
  refine Runs.exec_invariant (P := fun s : Config σ π => next s.shared (s.calls c) = none)
    (fun s d hs => ?_) hend schedule
  cases hn : next s.shared (s.calls d) with
  | none => rwa [step_of_none hn]
  | some x =>
      rw [step_of_some hn]
      have hdc : c ≠ d := by
        rintro rfl
        rw [hs] at hn
        cases hn
      dsimp only
      rw [Function.update_of_ne hdc]
      exact h.ended _ _ _ hs

/-- As long as a call has not ended, each of its steps takes from its budget. -/
theorem count_le (h : Lively next toDo owes rank slack) {schedule : List Nat}
    (hcalls : ∀ d ∈ schedule, d ∈ calls)
    (hrunning : next (Runs.exec (Interleaving.step next) s schedule).shared
      ((Runs.exec (Interleaving.step next) s schedule).calls c) ≠ none) :
    schedule.count c ≤ budget toDo owes rank slack calls c s := by
  induction schedule generalizing s with
  | nil => exact Nat.zero_le _
  | cons d schedule ih =>
      have hrest := ih (fun e he => hcalls e (List.mem_cons_of_mem d he)) hrunning
      rw [List.count_cons]
      cases hn : next s.shared (s.calls d) with
      | none =>
          have hdc : d ≠ c := by
            rintro rfl
            exact hrunning (h.ended_exec hn (d :: schedule))
          rw [step_of_none hn] at hrest
          rw [if_neg (by simpa using hdc)]
          exact hrest
      | some x =>
          have hstep := h.step_budget (c := c) (hcalls d List.mem_cons_self) hn
          by_cases hdc : d = c
          · rw [if_pos hdc] at hstep
            rw [if_pos (by simpa using hdc)]
            exact (Nat.add_le_add_right hrest 1).trans hstep
          · rw [if_neg hdc] at hstep
            rw [if_neg (by simpa using hdc)]
            exact hrest.trans hstep

/-- A call that takes more steps than its budget allows has ended. -/
theorem ends (h : Lively next toDo owes rank slack) {schedule : List Nat}
    (hcount : budget toDo owes rank slack schedule.toFinset c s < schedule.count c) :
    next (Runs.exec (Interleaving.step next) s schedule).shared
      ((Runs.exec (Interleaving.step next) s schedule).calls c) = none := by
  by_contra hrunning
  have hle := h.count_le (fun d hd => List.mem_toFinset.mpr hd) hrunning
  omega

end Lively

end AetherOs.Support.Interleaving
