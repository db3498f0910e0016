import AetherOs.Memory.Frames.Allocator
/-!
# What every interleaving of `allocate_frame` keeps

For aligned, non-empty ranges the cursor stays frame aligned, the index stays
within the table, and every call works on a range that the index has reached.
Hence no call panics and the partial-frame branch is never taken.  `Transition`
lists the atomic steps that remain; all later arguments about interleavings
split on it and not on the code of `next`.
-/

namespace AetherOs.Memory.Frames

open AetherOs.Support AetherOs.Support.Word

variable {fa : FrameAllocator} {cells cells' : Cells} {pc pc' : Pc}

inductive Transition (fa : FrameAllocator) (cells : Cells) : Pc → Cells → Pc → Prop
  | exhausted (h : fa.rangeCount ≤ cells.currentRange) :
      Transition fa cells .loadRange cells (.returned none)
  | loadedRange (h : cells.currentRange < fa.rangeCount) :
      Transition fa cells .loadRange cells (.loadFrame cells.currentRange)
  | outside (i : Nat) (hi : i < fa.rangeCount)
      (h : cells.currentFrame < fa.start i ∨ fa.stop i ≤ cells.currentFrame) :
      Transition fa cells (.loadFrame i) cells (.advanceRange i .outsideRange)
  | attempt (i : Nat) (hi : i < fa.rangeCount) (h : fa.InRange i cells.currentFrame) :
      Transition fa cells (.loadFrame i) cells
        (.exchangeFrame cells.currentFrame (cells.currentFrame + frameSize))
  | lastRange (i : Nat) (h : fa.rangeCount ≤ i + 1) :
      Transition fa cells (.advanceRange i .outsideRange)
        { cells with currentRange := fa.rangeCount } (.returned none)
  | advanced (i : Nat) (h : i + 1 < fa.rangeCount) (hcurrent : cells.currentRange = i) :
      Transition fa cells (.advanceRange i .outsideRange)
        { cells with currentRange := i + 1 } (.storeFrame (i + 1))
  | overtaken (i : Nat) (h : i + 1 < fa.rangeCount) (hcurrent : cells.currentRange ≠ i) :
      Transition fa cells (.advanceRange i .outsideRange) cells .loadRange
  | stored (j : Nat) (hj : j < fa.rangeCount) :
      Transition fa cells (.storeFrame j) { cells with currentFrame := fa.start j } .loadRange
  | claimed (current following : Nat) (h : cells.currentFrame = current) :
      Transition fa cells (.exchangeFrame current following)
        { cells with currentFrame := following } (.returned (some current))
  | contended (current following : Nat) (h : cells.currentFrame ≠ current) :
      Transition fa cells (.exchangeFrame current following) cells .loadRange

theorem Transition.of_storeFrame {s : Config} {c j : Nat} (hcall : s.calls c = .storeFrame j)
    (hj : j < fa.rangeCount) :
    Transition fa s.shared (s.calls c) { s.shared with currentFrame := fa.start j }
      .loadRange := by
  rw [hcall]
  exact .stored j hj

theorem Transition.of_exchangeFrame (fa : FrameAllocator) {s : Config} {c current following : Nat}
    (hcall : s.calls c = .exchangeFrame current following)
    (hcurrent : s.shared.currentFrame = current) :
    Transition fa s.shared (s.calls c) { s.shared with currentFrame := following }
      (.returned (some current)) := by
  rw [hcall]
  exact .claimed current following hcurrent

def PcSound (fa : FrameAllocator) (cells : Cells) : Pc → Prop
  | .loadRange => True
  | .loadFrame i => i < fa.rangeCount ∧ i ≤ cells.currentRange
  | .advanceRange i site =>
      i < fa.rangeCount ∧ i ≤ cells.currentRange ∧ site = .outsideRange
  | .storeFrame j => 0 < j ∧ j < fa.rangeCount ∧ j ≤ cells.currentRange
  | .exchangeFrame current following =>
      following = current + frameSize ∧ ∃ i < fa.rangeCount, fa.InRange i current
  | .returned none => True
  | .returned (some frame) => ∃ i < fa.rangeCount, fa.InRange i frame
  | .panicked _ => False

structure Sound (fa : FrameAllocator) (s : Config) : Prop where
  range_le : s.shared.currentRange ≤ fa.rangeCount
  frame_dvd : frameSize ∣ s.shared.currentFrame
  calls : ∀ c, PcSound fa s.shared (s.calls c)

theorem PcSound.mono (h : PcSound fa cells pc)
    (hle : cells.currentRange ≤ cells'.currentRange) : PcSound fa cells' pc := by
  cases pc with
  | loadFrame i => exact ⟨h.1, h.2.trans hle⟩
  | advanceRange i site => exact ⟨h.1, h.2.1.trans hle, h.2.2⟩
  | storeFrame j => exact ⟨h.1, h.2.1, h.2.2.trans hle⟩
  | returned result => cases result <;> exact h
  | loadRange | exchangeFrame | panicked => exact h

theorem afterLoadFrame_transition (ha : fa.Aligned) (hdvd : frameSize ∣ cells.currentFrame)
    {i : Nat} (hi : i < fa.rangeCount) {range : UsableFrameRange}
    (hstart : range.start.toNat = fa.start i) (hstop : range.stop.toNat = fa.stop i) :
    Transition fa cells (.loadFrame i) cells
      (afterLoadFrame i range cells.currentFrame) := by
  unfold afterLoadFrame
  rw [hstart, hstop]
  split_ifs with hout
  · exact .outside i hi hout
  · have hle := ha.add_frameSize_le hi hdvd (by omega)
    have hlimit := fa.stop_lt_wordLimit i
    rw [add_of_lt (by omega)]
    simp only
    rw [if_neg (by omega)]
    exact .attempt i hi ⟨by omega, hle, hdvd⟩

/-- A step of a sound call is one of the listed transitions. -/
theorem transition_of_next (ha : fa.Aligned) (hdvd : frameSize ∣ cells.currentFrame)
    (hpc : PcSound fa cells pc) (h : next fa cells pc = some (cells', pc')) :
    Transition fa cells pc cells' pc' := by
  cases pc with
  | loadRange =>
      simp only [next] at h
      split_ifs at h with hcount
      · cases h
        exact .exhausted hcount
      · cases h
        exact .loadedRange (by omega)
  | loadFrame i =>
      obtain ⟨range, hget, hstart, hstop⟩ := ha.getElem? hpc.1
      simp only [next, hget] at h
      cases h
      exact afterLoadFrame_transition ha hdvd hpc.1 hstart hstop
  | advanceRange i site =>
      obtain ⟨-, -, rfl⟩ := hpc
      simp only [next] at h
      split_ifs at h with hlast hcurrent
      · cases h
        exact .lastRange i hlast
      · cases h
        exact .advanced i (by omega) hcurrent
      · cases h
        exact .overtaken i (by omega) hcurrent
  | storeFrame j =>
      obtain ⟨range, hget, hstart, -⟩ := ha.getElem? hpc.2.1
      simp only [next, hget] at h
      cases h
      rw [hstart]
      exact .stored j hpc.2.1
  | exchangeFrame current following =>
      simp only [next] at h
      split_ifs at h with hcurrent
      · cases h
        exact .claimed current following hcurrent
      · cases h
        exact .contended current following hcurrent
  | returned result => simp [next] at h
  | panicked reason => simp [next] at h

/-! ## The invariant -/

theorem Transition.range_mono (h : Transition fa cells pc cells' pc')
    (hle : cells.currentRange ≤ fa.rangeCount) :
    cells.currentRange ≤ cells'.currentRange ∧ cells'.currentRange ≤ fa.rangeCount := by
  cases h with
  | lastRange => exact ⟨hle, le_refl _⟩
  | advanced i hi hcurrent =>
      change cells.currentRange ≤ i + 1 ∧ i + 1 ≤ fa.rangeCount
      omega
  | exhausted | loadedRange | outside | attempt | overtaken | stored | claimed
  | contended => exact ⟨le_refl _, hle⟩

theorem Transition.frame_dvd (ha : fa.Aligned) (h : Transition fa cells pc cells' pc')
    (hpc : PcSound fa cells pc) (hdvd : frameSize ∣ cells.currentFrame) :
    frameSize ∣ cells'.currentFrame := by
  cases h with
  | stored j hj => exact ha.start_dvd j hj
  | claimed current following hcurrent =>
      obtain ⟨rfl, -⟩ := hpc
      rw [hcurrent] at hdvd
      exact Nat.dvd_add_self_right.mpr hdvd
  | exhausted | loadedRange | outside | attempt | lastRange | advanced | overtaken
  | contended => exact hdvd

theorem Transition.pcSound (h : Transition fa cells pc cells' pc')
    (hpc : PcSound fa cells pc) : PcSound fa cells' pc' := by
  cases h with
  | loadedRange hlt => exact ⟨hlt, le_refl _⟩
  | outside i hi => exact ⟨hi, hpc.2, rfl⟩
  | attempt i hi hin => exact ⟨rfl, i, hi, hin⟩
  | advanced i hi => exact ⟨Nat.succ_pos i, hi, le_refl _⟩
  | claimed => exact hpc.2
  | exhausted | lastRange | overtaken | stored | contended => trivial

theorem sound_initial (ha : fa.Aligned) : Sound fa fa.initial where
  range_le := Nat.zero_le _
  frame_dvd := by
    change frameSize ∣ fa.initialCells.currentFrame
    by_cases hcount : 0 < fa.rangeCount
    · rw [FrameAllocator.initialCells_currentFrame hcount]
      exact ha.start_dvd 0 hcount
    · simp [FrameAllocator.initialCells, hcount]
  calls := fun _ => trivial

theorem Sound.transition (ha : fa.Aligned) {s : Config} (hs : Sound fa s) {c : Nat}
    (h : next fa s.shared (s.calls c) = some (cells', pc')) :
    Transition fa s.shared (s.calls c) cells' pc' :=
  transition_of_next ha hs.frame_dvd (hs.calls c) h

theorem Sound.step (ha : fa.Aligned) {s : Config} (hs : Sound fa s) {c : Nat}
    (h : Transition fa s.shared (s.calls c) cells' pc') :
    Sound fa ⟨cells', Function.update s.calls c pc'⟩ where
  range_le := (h.range_mono hs.range_le).2
  frame_dvd := h.frame_dvd ha (hs.calls c) hs.frame_dvd
  calls := by
    intro d
    by_cases hd : d = c
    · subst hd
      simpa using h.pcSound (hs.calls d)
    · simpa [hd] using (hs.calls d).mono (h.range_mono hs.range_le).1

/-- What every transition from a sound configuration keeps holds, together
with soundness, after every schedule. -/
theorem run_invariant (ha : fa.Aligned) {P : Config → Prop} (hinit : P fa.initial)
    (hstep : ∀ s c cells' pc', Sound fa s → P s →
      Transition fa s.shared (s.calls c) cells' pc' →
      P ⟨cells', Function.update s.calls c pc'⟩)
    (schedule : List Nat) : Sound fa (fa.run schedule) ∧ P (fa.run schedule) := by
  refine Interleaving.invariant (P := fun s => Sound fa s ∧ P s)
    (fun s c shared pc h hn => ?_) ⟨sound_initial ha, hinit⟩ schedule
  have ht := h.1.transition ha hn
  exact ⟨h.1.step ha ht, hstep s c shared pc h.1 h.2 ht⟩

theorem run_sound (ha : fa.Aligned) (schedule : List Nat) : Sound fa (fa.run schedule) :=
  (run_invariant (P := fun _ => True) ha trivial (fun _ _ _ _ _ _ _ => trivial) schedule).1

/-! ## Containment -/

theorem Sound.currentRange_mono (ha : fa.Aligned) {s : Config} (hs : Sound fa s)
    (later : List Nat) :
    s.shared.currentRange ≤
      (Runs.exec (Interleaving.step (next fa)) s later).shared.currentRange := by
  have hstep : ∀ s' c shared pc,
      Sound fa s' ∧ s.shared.currentRange ≤ s'.shared.currentRange →
      next fa s'.shared (s'.calls c) = some (shared, pc) →
      Sound fa ⟨shared, Function.update s'.calls c pc⟩ ∧
        s.shared.currentRange ≤ shared.currentRange := by
    intro s' c shared pc h hn
    have ht := h.1.transition ha hn
    exact ⟨h.1.step ha ht, h.2.trans (ht.range_mono h.1.range_le).1⟩
  exact (Interleaving.invariant hstep ⟨hs, le_refl _⟩ later).2

/-- Every call of every interleaving stays within the table and the address
space, and what it returns lies in a range. -/
theorem allocate_frame_contained (ha : fa.Aligned) (schedule : List Nat) :
    (∀ c frame, (fa.run schedule).calls c = .returned (some frame) →
      frameSize ∣ frame ∧
        ∃ i < fa.rangeCount, fa.start i ≤ frame ∧ frame + frameSize ≤ fa.stop i) ∧
    (fa.run schedule).shared.currentRange ≤ fa.rangeCount ∧
    (∀ later, (fa.run schedule).shared.currentRange ≤
      (fa.run (schedule ++ later)).shared.currentRange) ∧
    (∀ c i, (fa.run schedule).calls c = .loadFrame i ∨ (fa.run schedule).calls c = .storeFrame i →
      i < fa.rangeCount) ∧
    (∀ c current following, (fa.run schedule).calls c = .exchangeFrame current following →
      following = current + frameSize ∧ current + frameSize < wordLimit) ∧
    ∀ c reason, (fa.run schedule).calls c ≠ .panicked reason := by
  have hsound := run_sound ha schedule
  refine ⟨?_, hsound.range_le, ?_, ?_, ?_, ?_⟩
  · intro c frame hcall
    have hpc := hsound.calls c
    rw [hcall] at hpc
    obtain ⟨i, hi, hin⟩ := hpc
    exact ⟨hin.aligned, i, hi, hin.start_le, hin.end_le⟩
  · intro later
    rw [FrameAllocator.run, FrameAllocator.run, Runs.exec_append]
    exact hsound.currentRange_mono ha later
  · intro c i hcall
    have hpc := hsound.calls c
    rcases hcall with hcall | hcall
    · rw [hcall] at hpc
      exact hpc.1
    · rw [hcall] at hpc
      exact hpc.2.1
  · intro c current following hcall
    have hpc := hsound.calls c
    rw [hcall] at hpc
    obtain ⟨hfollowing, i, -, hin⟩ := hpc
    exact ⟨hfollowing, lt_of_le_of_lt hin.end_le (fa.stop_lt_wordLimit i)⟩
  · intro c reason hcall
    have hpc := hsound.calls c
    rw [hcall] at hpc
    exact hpc

theorem zero_lt_maxUsableRanges : 0 < maxUsableRanges := by decide

theorem one_lt_maxUsableRanges : 1 < maxUsableRanges := by decide

def oneRangeAllocator : FrameAllocator where
  ranges := (Vector.replicate maxUsableRanges .empty).set 0 ⟨4096, 12288⟩
    zero_lt_maxUsableRanges
  rangeCount := 1

/-- Two calls race for the first frame; the second one takes the frame after it. -/
theorem allocate_frame_contained_race :
    (oneRangeAllocator.run [0, 0, 1, 1, 0, 1, 1, 1, 1]).calls 1 = .returned (some 8192) ∧
      frameSize ∣ 8192 ∧ ∃ i < oneRangeAllocator.rangeCount,
        oneRangeAllocator.start i ≤ 8192 ∧ 8192 + frameSize ≤ oneRangeAllocator.stop i := by
  have haligned : oneRangeAllocator.Aligned := ⟨by decide, by decide, by decide, by decide⟩
  have hcall : (oneRangeAllocator.run [0, 0, 1, 1, 0, 1, 1, 1, 1]).calls 1 =
      .returned (some 8192) := by decide
  exact ⟨hcall, (allocate_frame_contained haligned _).1 1 8192 hcall⟩

end AetherOs.Memory.Frames
