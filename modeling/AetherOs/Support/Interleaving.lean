import AetherOs.Support.Runs
import Mathlib.Logic.Function.Iterate
/-!
# Interleavings of concurrent calls

Any number of calls share a memory of type `σ`.  A call is a program counter
of type `π`, and `next` performs its next atomic step; `none` means that the
call has ended.  A schedule names, step by step, the call that moves, so a
sequentially consistent interleaving is a list of call numbers and the rules
of `Runs` apply to it.

A call that runs alone is the schedule repeating one number.  `solo` computes
such a run without the other calls, and `Reaches.of_solo` puts it back among
them.
-/

namespace AetherOs.Support.Interleaving

open AetherOs.Support

structure Config (σ π : Type) where
  shared : σ
  calls : Nat → π

variable {σ π : Type} {next : σ → π → Option (σ × π)}

/-- One atomic step of call `c`; a call that has ended does not move. -/
def step (next : σ → π → Option (σ × π)) (s : Config σ π) (c : Nat) : Config σ π :=
  match next s.shared (s.calls c) with
  | none => s
  | some (shared, pc) => ⟨shared, Function.update s.calls c pc⟩

theorem step_of_some {s : Config σ π} {c : Nat} {shared : σ} {pc : π}
    (h : next s.shared (s.calls c) = some (shared, pc)) :
    step next s c = ⟨shared, Function.update s.calls c pc⟩ := by
  simp [step, h]

theorem step_of_none {s : Config σ π} {c : Nat}
    (h : next s.shared (s.calls c) = none) : step next s c = s := by
  simp [step, h]

theorem update_eq_iff {calls : Nat → π} {c d : Nat} {pc pc' : π} :
    Function.update calls c pc d = pc' ↔ d = c ∧ pc = pc' ∨ d ≠ c ∧ calls d = pc' := by
  by_cases h : d = c
  · subst h
    simp
  · simp [h]

/-- What every atomic step of every call keeps holds after every schedule. -/
theorem invariant {P : Config σ π → Prop}
    (hstep : ∀ s c shared pc, P s → next s.shared (s.calls c) = some (shared, pc) →
      P ⟨shared, Function.update s.calls c pc⟩)
    {s : Config σ π} (hs : P s) (schedule : List Nat) :
    P (Runs.exec (step next) s schedule) := by
  refine Runs.exec_invariant (fun s c h => ?_) hs schedule
  cases hn : next s.shared (s.calls c) with
  | none => rwa [step_of_none hn]
  | some x =>
      rw [step_of_some hn]
      exact hstep s c x.1 x.2 h hn

/-- A call that is not scheduled does not move. -/
theorem exec_calls_of_notMem {c : Nat} (s : Config σ π) {schedule : List Nat}
    (h : c ∉ schedule) : (Runs.exec (step next) s schedule).calls c = s.calls c := by
  induction schedule generalizing s with
  | nil => rfl
  | cons d schedule ih =>
      rw [List.mem_cons, not_or] at h
      rw [Runs.exec_cons, ih _ h.2]
      cases hn : next s.shared (s.calls d) with
      | none => rw [step_of_none hn]
      | some x =>
          rw [step_of_some hn]
          exact Function.update_of_ne h.1 _ _

def AgreeOff (c : Nat) (s t : Config σ π) : Prop :=
  s.shared = t.shared ∧ ∀ d, d ≠ c → s.calls d = t.calls d

theorem AgreeOff.step {c d : Nat} {s t : Config σ π} (h : AgreeOff c s t) (hd : d ≠ c) :
    AgreeOff c (step next s d) (step next t d) := by
  obtain ⟨hshared, hcalls⟩ := h
  cases hn : next s.shared (s.calls d) with
  | none =>
      have ht : next t.shared (t.calls d) = none := by rw [← hshared, ← hcalls d hd, hn]
      rw [step_of_none hn, step_of_none ht]
      exact ⟨hshared, hcalls⟩
  | some x =>
      have ht : next t.shared (t.calls d) = some x := by rw [← hshared, ← hcalls d hd, hn]
      rw [step_of_some hn, step_of_some ht]
      refine ⟨rfl, fun e he => ?_⟩
      by_cases hed : e = d
      · subst hed
        simp
      · simpa [hed] using hcalls e he

/-- The other calls do not see where a call stands that is not scheduled. -/
theorem AgreeOff.exec {c : Nat} {s t : Config σ π} (h : AgreeOff c s t) {schedule : List Nat}
    (hc : c ∉ schedule) :
    AgreeOff c (Runs.exec (Interleaving.step next) s schedule)
      (Runs.exec (Interleaving.step next) t schedule) := by
  induction schedule generalizing s t with
  | nil => exact h
  | cons d schedule ih =>
      rw [List.mem_cons, not_or] at hc
      exact ih (h.step (Ne.symm hc.1)) hc.2

/-! ## One call running alone -/

def advance (next : σ → π → Option (σ × π)) (x : σ × π) : σ × π :=
  (next x.1 x.2).getD x

def solo (next : σ → π → Option (σ × π)) (n : Nat) (x : σ × π) : σ × π :=
  (advance next)^[n] x

@[simp] theorem solo_zero (x : σ × π) : solo next 0 x = x := rfl

theorem solo_succ (n : Nat) (x : σ × π) :
    solo next (n + 1) x = solo next n (advance next x) := rfl

theorem solo_add (m n : Nat) (x : σ × π) :
    solo next (n + m) x = solo next n (solo next m x) :=
  Function.iterate_add_apply _ n m x

theorem solo_of_none {x : σ × π} (h : next x.1 x.2 = none) (n : Nat) :
    solo next n x = x := by
  have hfix : advance next x = x := by simp [advance, h]
  exact Function.iterate_fixed hfix n

theorem solo_unique {x y z : σ × π} {m n : Nat}
    (hy : solo next m x = y) (hz : solo next n x = z)
    (hyend : next y.1 y.2 = none) (hzend : next z.1 z.2 = none) : y = z := by
  have hboth : solo next (m + n) x = z := by
    rw [Nat.add_comm, Nat.add_comm n m, solo_add, hz, solo_of_none hzend]
  rw [Nat.add_comm, solo_add, hy, solo_of_none hyend] at hboth
  exact hboth

/-! ## Reachable configurations -/

def Reaches (next : σ → π → Option (σ × π)) (s t : Config σ π) : Prop :=
  ∃ schedule, Runs.exec (step next) s schedule = t

namespace Reaches

theorem refl (s : Config σ π) : Reaches next s s := ⟨[], rfl⟩

theorem trans {s t u : Config σ π} (hst : Reaches next s t) (htu : Reaches next t u) :
    Reaches next s u := by
  obtain ⟨l₁, rfl⟩ := hst
  obtain ⟨l₂, rfl⟩ := htu
  exact ⟨l₁ ++ l₂, Runs.exec_append s l₁ l₂⟩

theorem of_step (s : Config σ π) (c : Nat) : Reaches next s (step next s c) :=
  ⟨[c], rfl⟩

theorem of_solo {s : Config σ π} {c n : Nat} {shared : σ} {pc : π}
    (h : solo next n (s.shared, s.calls c) = (shared, pc)) :
    Reaches next s ⟨shared, Function.update s.calls c pc⟩ := by
  induction n generalizing s with
  | zero =>
      obtain ⟨rfl, rfl⟩ := Prod.mk.inj h
      simpa using refl s
  | succ n ih =>
      refine (of_step s c).trans ?_
      rw [solo_succ] at h
      cases hn : next s.shared (s.calls c) with
      | none =>
          rw [step_of_none hn]
          exact ih (by simpa [advance, hn] using h)
      | some x =>
          rw [step_of_some hn]
          have hnext := ih (s := ⟨x.1, Function.update s.calls c x.2⟩)
            (by simpa [advance, hn] using h)
          simpa using hnext

end Reaches

end AetherOs.Support.Interleaving
