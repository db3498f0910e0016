import AetherOs.Memory.Frames.Uniqueness
import AetherOs.Support.Progress
/-!
# Allocations end

`allocate_frame` starts over when another call has moved the cursor or the
range in between.  That cannot go on: the range only moves on, and a call that
moves the cursor returns.  So each call returns after a number of its own steps
that is bounded by the number of ranges and of calls.
-/

namespace AetherOs.Memory.Frames

open AetherOs.Support AetherOs.Support.Word AetherOs.Support.Interleaving

/-- Moving on to a range is two writes. -/
def rangesLeft (fa : FrameAllocator) (cells : Cells) : Nat :=
  2 * (fa.rangeCount - cells.currentRange)

/-- The writes of a call in the loop: the one it returns after, and the store
that finishes an exchange of the range. -/
def Pc.owes : Pc → Nat
  | .loadRange | .loadFrame _ | .advanceRange _ _ | .exchangeFrame _ _ => 1
  | .storeFrame _ => 2
  | .returned _ | .panicked _ => 0

def StaleRange (fa : FrameAllocator) (cells : Cells) (rangeIndex : Nat) : Prop :=
  rangeIndex + 1 < fa.rangeCount ∧ cells.currentRange ≠ rangeIndex

instance (fa : FrameAllocator) (cells : Cells) (rangeIndex : Nat) :
    Decidable (StaleRange fa cells rangeIndex) :=
  inferInstanceAs (Decidable (_ ∧ _))

def Pc.rank (fa : FrameAllocator) (cells : Cells) : Pc → Nat
  | .loadRange => 3
  | .loadFrame rangeIndex => if StaleRange fa cells rangeIndex then 5 else 2
  | .advanceRange rangeIndex _ => if StaleRange fa cells rangeIndex then 4 else 1
  | .exchangeFrame current _ => if cells.currentFrame = current then 1 else 4
  | .storeFrame _ => 1
  | .returned _ | .panicked _ => 0

theorem rank_le (fa : FrameAllocator) (cells cells' : Cells) (pc : Pc) :
    pc.rank fa cells' ≤ pc.rank fa cells + 3 := by
  unfold Pc.rank
  cases pc with
  | loadFrame rangeIndex =>
      dsimp only
      split_ifs <;> omega
  | advanceRange rangeIndex site =>
      dsimp only
      split_ifs <;> omega
  | exchangeFrame current following =>
      dsimp only
      split_ifs <;> omega
  | _ => exact Nat.le_add_right _ _

theorem afterLoadFrame_lower (fa : FrameAllocator) (cells : Cells) (rangeIndex : Nat)
    (range : UsableFrameRange) :
    (afterLoadFrame rangeIndex range cells.currentFrame).owes ≤ 1 ∧
      (afterLoadFrame rangeIndex range cells.currentFrame).rank fa cells <
        (Pc.loadFrame rangeIndex).rank fa cells := by
  have hadvance : ∀ site, (Pc.advanceRange rangeIndex site).rank fa cells <
      (Pc.loadFrame rangeIndex).rank fa cells := by
    intro site
    unfold Pc.rank
    dsimp only
    split_ifs <;> omega
  have hpos : 1 < (Pc.loadFrame rangeIndex).rank fa cells := by
    unfold Pc.rank
    dsimp only
    split_ifs <;> omega
  unfold afterLoadFrame
  split_ifs with hout
  · exact ⟨le_refl _, hadvance _⟩
  · split
    · exact ⟨Nat.zero_le _, Nat.zero_lt_of_lt hpos⟩
    · next following _ =>
        split_ifs
        · exact ⟨le_refl _, hadvance _⟩
        · have hfresh : (Pc.exchangeFrame cells.currentFrame following).rank fa cells = 1 :=
            if_pos rfl
          rw [hfresh]
          exact ⟨le_refl _, hpos⟩

theorem next_eq_none_iff (fa : FrameAllocator) (cells : Cells) (pc : Pc) :
    next fa cells pc = none ↔ pc.owes = 0 := by
  cases pc with
  | loadRange =>
      simp only [next, Pc.owes]
      split_ifs <;> simp
  | loadFrame rangeIndex =>
      simp only [next, Pc.owes]
      split <;> simp
  | advanceRange rangeIndex site =>
      simp only [next, Pc.owes]
      split_ifs <;> simp
  | storeFrame nextRange =>
      simp only [next, Pc.owes]
      split <;> simp
  | exchangeFrame current following =>
      simp only [next, Pc.owes]
      split_ifs <;> simp
  | returned result => simp [next, Pc.owes]
  | panicked reason => simp [next, Pc.owes]

theorem lively_next (fa : FrameAllocator) :
    Lively (next fa) (rangesLeft fa) Pc.owes (Pc.rank fa) 3 where
  ended := by
    intro cells cells' pc h
    rw [next_eq_none_iff] at h ⊢
    exact h
  step := by
    intro cells pc cells' pc' h
    cases pc with
    | loadRange =>
        left
        simp only [next] at h
        split_ifs at h with hcount
        · cases h
          exact ⟨rfl, Nat.zero_le _, Nat.zero_lt_succ _⟩
        · cases h
          have hfresh : ¬StaleRange fa cells cells.currentRange := fun hstale => hstale.2 rfl
          refine ⟨rfl, le_refl _, ?_⟩
          simp only [Pc.rank, if_neg hfresh]
          omega
    | loadFrame rangeIndex =>
        left
        simp only [next] at h
        split at h
        · cases h
          refine ⟨rfl, Nat.zero_le _, ?_⟩
          simp only [Pc.rank]
          split_ifs <;> omega
        · cases h
          exact ⟨rfl, afterLoadFrame_lower fa cells rangeIndex _⟩
    | advanceRange rangeIndex site =>
        simp only [next] at h
        split_ifs at h with hlast hcurrent
        · cases h
          right
          refine ⟨?_, Nat.zero_le _, rank_le fa cells _⟩
          simp only [rangesLeft, Pc.owes]
          omega
        · cases h
          right
          refine ⟨?_, ?_, rank_le fa cells _⟩
          · simp only [rangesLeft, Pc.owes]
            omega
          · simp only [Pc.rank]
            omega
        · cases h
          have hstale : StaleRange fa cells rangeIndex := ⟨by omega, hcurrent⟩
          left
          refine ⟨rfl, le_refl _, ?_⟩
          simp only [Pc.rank, if_pos hstale]
          omega
    | storeFrame nextRange =>
        simp only [next] at h
        split at h
        · cases h
          exact Or.inl ⟨rfl, Nat.zero_le _, Nat.zero_lt_one⟩
        · cases h
          right
          refine ⟨?_, ?_, rank_le fa cells _⟩
          · simp only [rangesLeft, Pc.owes]
            omega
          · simp only [Pc.rank]
            omega
    | exchangeFrame current following =>
        simp only [next] at h
        split_ifs at h with hcurrent
        · cases h
          right
          refine ⟨?_, Nat.zero_le _, rank_le fa cells _⟩
          simp only [rangesLeft, Pc.owes]
          omega
        · cases h
          left
          refine ⟨rfl, le_refl _, ?_⟩
          simp only [Pc.rank, if_neg hcurrent]
          omega
    | returned result => cases h
    | panicked reason => cases h

theorem sum_owes_initial (fa : FrameAllocator) (calls : Finset Nat) :
    writesLeft (rangesLeft fa) Pc.owes calls fa.initial = 2 * fa.rangeCount + calls.card := by
  simp [writesLeft, rangesLeft, FrameAllocator.initial, FrameAllocator.initialCells, Pc.owes]

/-- Whatever the schedule, a call of `allocate_frame` returns after at most
`3 + 4 * (2 * ranges + calls)` of its own steps, where `calls` is the number of
calls that take part. -/
theorem allocate_frame_wait_free {fa : FrameAllocator} (ha : fa.Aligned) (schedule : List Nat)
    (c : Nat)
    (h : 3 + 4 * (2 * fa.rangeCount + schedule.toFinset.card) < schedule.count c) :
    ∃ result, (fa.run schedule).calls c = .returned result := by
  have hbudget : budget (rangesLeft fa) Pc.owes (Pc.rank fa) 3 schedule.toFinset c fa.initial =
      3 + 4 * (2 * fa.rangeCount + schedule.toFinset.card) := by
    rw [budget, sum_owes_initial]
    rfl
  rw [← hbudget] at h
  have hend := (lively_next fa).ends h
  rw [next_eq_none_iff] at hend
  have hsound := (run_sound ha schedule).calls c
  change ((fa.run schedule).calls c).owes = 0 at hend
  cases hpc : (fa.run schedule).calls c with
  | returned result => exact ⟨result, rfl⟩
  | panicked reason =>
      rw [hpc] at hsound
      exact hsound.elim
  | _ =>
      rw [hpc] at hend
      cases hend

/-- Two calls that always take turns. -/
theorem allocate_frame_wait_free_touching :
    touchingAllocator.Aligned ∧
      3 + 4 * (2 * touchingAllocator.rangeCount +
        (List.replicate 28 [0, 1]).flatten.toFinset.card) <
        (List.replicate 28 [0, 1]).flatten.count 1 ∧
      ∃ result, (touchingAllocator.run (List.replicate 28 [0, 1]).flatten).calls 1 =
        .returned result :=
  ⟨touchingAllocator_aligned, by decide,
    allocate_frame_wait_free touchingAllocator_aligned _ 1 (by decide)⟩

end AetherOs.Memory.Frames
