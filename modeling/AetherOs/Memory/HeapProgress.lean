import AetherOs.Memory.Heap
import AetherOs.Support.Progress
import Mathlib.Algebra.BigOperators.Group.Finset.Piecewise
/-!
# Heap allocations end

`alloc` starts over when the cursor has moved between its load and its
exchange.  A call that moves the cursor returns, and `initialize` stores it
once, so no schedule keeps a call in its loop.
-/

namespace AetherOs.Memory.Heap

open AetherOs.Support AetherOs.Support.Word AetherOs.Support.Interleaving

def Pc.owes : Pc → Nat
  | .storeStart _ _ => 3
  | .storeEnd _ _ => 2
  | .storeNext _ | .loadNext _ | .loadEnd _ _ | .exchange _ _ _ _ => 1
  | .initialized | .returned _ _ | .loadStart | .loadUsed _ | .used _ | .panicked _ => 0

def Pc.rank (cells : BumpAllocator) : Pc → Nat
  | .storeStart _ _ | .storeEnd _ _ | .storeNext _ | .loadUsed _ => 1
  | .loadStart => 2
  | .loadNext _ => 3
  | .loadEnd _ current => if cells.next = current then 2 else 5
  | .exchange _ current _ _ => if cells.next = current then 1 else 4
  | .initialized | .returned _ _ | .used _ | .panicked _ => 0

theorem rank_le (cells cells' : BumpAllocator) (pc : Pc) :
    pc.rank cells' ≤ pc.rank cells + 3 := by
  unfold Pc.rank
  cases pc with
  | loadEnd layout current =>
      dsimp only
      split_ifs <;> omega
  | exchange layout current aligned following =>
      dsimp only
      split_ifs <;> omega
  | _ => exact Nat.le_add_right _ _

theorem afterLoads_lower (cells : BumpAllocator) (layout : Layout) (current heapEnd : Nat) :
    (afterLoads layout current heapEnd).owes ≤ 1 ∧
      (afterLoads layout current heapEnd).rank cells <
        (Pc.loadEnd layout current).rank cells := by
  have hpos : 0 < (Pc.loadEnd layout current).rank cells := by
    unfold Pc.rank
    dsimp only
    split_ifs <;> omega
  unfold afterLoads
  split_ifs
  · exact ⟨Nat.zero_le _, hpos⟩
  · split
    · exact ⟨Nat.zero_le _, hpos⟩
    · dsimp only
      split
      · exact ⟨Nat.zero_le _, hpos⟩
      · split_ifs
        · exact ⟨Nat.zero_le _, hpos⟩
        · refine ⟨le_refl _, ?_⟩
          unfold Pc.rank
          dsimp only
          split_ifs <;> omega

theorem next_eq_none_iff (cells : BumpAllocator) (pc : Pc) :
    next cells pc = none ↔ pc.rank cells = 0 := by
  cases pc with
  | storeEnd start size =>
      simp only [next, Pc.rank]
      split <;> simp
  | loadEnd layout current =>
      simp only [next, Pc.rank]
      split_ifs <;> simp
  | exchange layout current aligned following =>
      simp only [next, Pc.rank]
      split_ifs <;> simp
  | _ => simp [next, Pc.rank]

theorem rank_eq_zero (cells cells' : BumpAllocator) {pc : Pc} (h : pc.rank cells = 0) :
    pc.rank cells' = 0 := by
  unfold Pc.rank at h ⊢
  cases pc with
  | loadEnd layout current =>
      dsimp only at h
      split_ifs at h
  | exchange layout current aligned following =>
      dsimp only at h
      split_ifs at h
  | _ => exact h

theorem lively_next : Lively next (fun _ => 0) Pc.owes Pc.rank 3 where
  ended := by
    intro cells cells' pc h
    rw [next_eq_none_iff] at h ⊢
    exact rank_eq_zero cells cells' h
  step := by
    intro cells pc cells' pc' h
    cases pc with
    | storeStart start size =>
        cases h
        exact Or.inr ⟨by simp [Pc.owes], by simp [Pc.rank], rank_le cells _⟩
    | storeEnd start size =>
        simp only [next] at h
        split at h
        · cases h
          exact Or.inl ⟨rfl, Nat.zero_le _, Nat.zero_lt_one⟩
        · cases h
          exact Or.inr ⟨by simp [Pc.owes], by simp [Pc.rank], rank_le cells _⟩
    | storeNext start =>
        cases h
        exact Or.inr ⟨by simp [Pc.owes], Nat.zero_le _, rank_le cells _⟩
    | loadNext layout =>
        cases h
        exact Or.inl ⟨rfl, le_refl _, by simp [Pc.rank]⟩
    | loadEnd layout current =>
        cases h
        exact Or.inl ⟨rfl, afterLoads_lower cells layout current _⟩
    | exchange layout current aligned following =>
        simp only [next] at h
        split_ifs at h with hcurrent
        · cases h
          exact Or.inr ⟨by simp [Pc.owes], Nat.zero_le _, rank_le cells _⟩
        · cases h
          refine Or.inl ⟨rfl, le_refl _, ?_⟩
          simp only [Pc.rank, if_neg hcurrent]
          omega
    | loadStart =>
        cases h
        exact Or.inl ⟨rfl, le_refl _, by simp [Pc.rank]⟩
    | loadUsed start =>
        cases h
        exact Or.inl ⟨rfl, le_refl _, by simp [Pc.rank]⟩
    | initialized => cases h
    | returned layout ptr => cases h
    | used value => cases h
    | panicked reason => cases h

/-! ## What a call ends with -/

def Pc.Serves (layout : Layout) : Pc → Prop
  | .loadNext layout' | .loadEnd layout' _ | .exchange layout' _ _ _ | .returned layout' _ =>
      layout' = layout
  | .panicked reason => reason = .overflow
  | _ => False

theorem serves_afterLoads (layout : Layout) (current heapEnd : Nat) :
    (afterLoads layout current heapEnd).Serves layout := by
  unfold afterLoads
  split_ifs
  · rfl
  · split
    · next reason hadd =>
        unfold add at hadd
        split_ifs at hadd
        cases hadd
        rfl
    · dsimp only
      split
      · rfl
      · split_ifs <;> rfl

theorem Pc.Serves.next {layout : Layout} {cells cells' : BumpAllocator} {pc pc' : Pc}
    (h : pc.Serves layout) (hn : Heap.next cells pc = some (cells', pc')) : pc'.Serves layout := by
  cases pc with
  | loadNext layout' =>
      cases hn
      exact h
  | loadEnd layout' current =>
      cases hn
      rw [show layout' = layout from h]
      exact serves_afterLoads layout current _
  | exchange layout' current aligned following =>
      simp only [Heap.next] at hn
      split_ifs at hn
      · cases hn
        exact h
      · cases hn
        exact h
  | returned layout' ptr => cases hn
  | panicked reason => cases hn
  | _ => exact h.elim

theorem run_serves (start size : Nat) (requests : Nat → Request) {n : Nat} {layout : Layout}
    (hrequest : requests n = .alloc layout) (schedule : List Nat) :
    ((run start size requests schedule).calls (n + 1)).Serves layout := by
  refine Interleaving.invariant (P := fun s => Pc.Serves layout (s.calls (n + 1))) ?_ ?_ schedule
  · intro s c shared pc h hn
    dsimp only
    by_cases hc : n + 1 = c
    · subst hc
      rw [Function.update_self]
      exact h.next hn
    · rw [Function.update_of_ne hc]
      exact h
  · change (requests n).entry.Serves layout
    rw [hrequest]
    rfl

/-! ## Every schedule -/

theorem writesLeft_initial_le (start size : Nat) (requests : Nat → Request) (calls : Finset Nat) :
    writesLeft (fun _ => 0) Pc.owes calls (initial start size requests) ≤ calls.card + 2 := by
  have hone : ∀ c, ((initial start size requests).calls c).owes ≤ 1 + if c = 0 then 2 else 0 := by
    intro c
    cases c with
    | zero => exact le_refl 3
    | succ n =>
        change (requests n).entry.owes ≤ 1 + if n + 1 = 0 then 2 else 0
        cases requests n with
        | alloc layout => exact le_refl 1
        | heapUsed => exact Nat.zero_le _
  have hsum := Finset.sum_le_sum fun c (_ : c ∈ calls) => hone c
  have htwo : ∑ c ∈ calls, (if c = 0 then 2 else 0) ≤ 2 := by
    rw [Finset.sum_ite_eq']
    split_ifs <;> omega
  rw [Finset.sum_add_distrib, Finset.sum_const, smul_eq_mul, Nat.mul_one] at hsum
  unfold writesLeft
  dsimp only
  omega

/-- Whatever the schedule, and wherever `initialize` stands: a call of `alloc`
returns after at most `3 + 4 * (calls + 2)` of its own steps, where `calls` is
the number of calls that take part, unless its addition overflows. -/
theorem alloc_wait_free (start size : Nat) (requests : Nat → Request) (schedule : List Nat)
    {n : Nat} {layout : Layout} (hrequest : requests n = .alloc layout)
    (h : 3 + 4 * (schedule.toFinset.card + 2) < schedule.count (n + 1)) :
    (∃ ptr, (run start size requests schedule).calls (n + 1) = .returned layout ptr) ∨
      (run start size requests schedule).calls (n + 1) = .panicked .overflow := by
  have hbudget : budget (fun _ => 0) Pc.owes Pc.rank 3 schedule.toFinset (n + 1)
      (initial start size requests) ≤ 3 + 4 * (schedule.toFinset.card + 2) := by
    have hleft := writesLeft_initial_le start size requests schedule.toFinset
    have hrank : ((initial start size requests).calls (n + 1)).rank
        (initial start size requests).shared = 3 := by
      change (requests n).entry.rank _ = 3
      rw [hrequest]
      rfl
    unfold budget
    rw [hrank]
    omega
  have hend := lively_next.ends (lt_of_le_of_lt hbudget h)
  rw [next_eq_none_iff] at hend
  have hserves := run_serves start size requests hrequest schedule
  change ((run start size requests schedule).calls (n + 1)).rank _ = 0 at hend
  cases hpc : (run start size requests schedule).calls (n + 1) with
  | returned layout' ptr =>
      rw [hpc] at hserves
      rw [show layout' = layout from hserves]
      exact Or.inl ⟨ptr, rfl⟩
  | panicked reason =>
      rw [hpc] at hserves
      rw [show reason = .overflow from hserves]
      exact Or.inr rfl
  | loadNext layout' =>
      rw [hpc] at hend
      cases hend
  | loadEnd layout' current =>
      rw [hpc] at hend
      simp only [Pc.rank] at hend
      split_ifs at hend
  | exchange layout' current aligned following =>
      rw [hpc] at hend
      simp only [Pc.rank] at hend
      split_ifs at hend
  | _ =>
      rw [hpc] at hserves
      exact hserves.elim

/-- A request that takes turns with `initialize`. -/
theorem alloc_wait_free_duringInitialize :
    3 + 4 * ((List.replicate 20 [0, 1]).flatten.toFinset.card + 2) <
        (List.replicate 20 [0, 1]).flatten.count 1 ∧
      ((∃ ptr, (run 0x10000 heapSize (fun _ => .alloc ⟨8, 3⟩)
          (List.replicate 20 [0, 1]).flatten).calls 1 = .returned ⟨8, 3⟩ ptr) ∨
        (run 0x10000 heapSize (fun _ => .alloc ⟨8, 3⟩)
          (List.replicate 20 [0, 1]).flatten).calls 1 = .panicked .overflow) :=
  ⟨by decide, alloc_wait_free 0x10000 heapSize (fun _ => .alloc ⟨8, 3⟩) _ rfl (by decide)⟩

end AetherOs.Memory.Heap
