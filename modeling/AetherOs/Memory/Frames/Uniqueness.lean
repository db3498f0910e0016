import AetherOs.Memory.Frames.Races
/-!
# No frame is handed out twice, unless two ranges touch

`advance_range` moves the index first and stores the new cursor later.  In
between, and for calls that read the index long ago, the cursor is judged
against a range it was not produced under.  That is harmless as long as no
range ends where another one starts: the closed intervals `[start, stop]` are
then pairwise disjoint, the cursor can enter a range only through the one
store of its start, and a frame below the cursor in its range is never reached
again.
-/

namespace AetherOs.Memory.Frames

open AetherOs.Support

variable {fa : FrameAllocator} {cells' : Cells} {pc' : Pc} {s : Config} {c : Nat}

def FrameAllocator.Separated (fa : FrameAllocator) : Prop :=
  ∀ i < fa.rangeCount, ∀ j < fa.rangeCount, i ≠ j → fa.stop i ≠ fa.start j

theorem FrameAllocator.Separated.eq_of_mem (hd : fa.Disjoint) (hsep : fa.Separated)
    {i j x : Nat} (hi : i < fa.rangeCount) (hj : j < fa.rangeCount)
    (hxi : fa.start i ≤ x ∧ x ≤ fa.stop i) (hxj : fa.start j ≤ x ∧ x ≤ fa.stop j) :
    i = j := by
  by_contra hne
  have hij := hsep i hi j hj hne
  have hji := hsep j hj i hi (Ne.symm hne)
  rcases hd i hi j hj hne with h | h <;> omega

/-- Range `i` has been reached and the store of its start is not pending. -/
def Opened (s : Config) (i : Nat) : Prop :=
  i ≤ s.shared.currentRange ∧ ∀ d, s.calls d ≠ .storeFrame i

structure Unique (fa : FrameAllocator) (s : Config) : Prop where
  pending : ∀ d e j, s.calls d = .storeFrame j → s.calls e = .storeFrame j → d = e
  located : 0 < fa.rangeCount → ∃ i < fa.rangeCount, Opened s i ∧
    fa.start i ≤ s.shared.currentFrame ∧ s.shared.currentFrame ≤ fa.stop i
  claimed : ∀ d frame, s.calls d = .returned (some frame) →
    ∃ i < fa.rangeCount, Opened s i ∧ fa.InRange i frame ∧
      (fa.start i ≤ s.shared.currentFrame ∧ s.shared.currentFrame ≤ fa.stop i →
        frame < s.shared.currentFrame)
  distinct : ∀ d e frame, s.calls d = .returned (some frame) →
    s.calls e = .returned (some frame) → d = e

theorem Opened.step (hs : Sound fa s) (ht : Transition fa s.shared (s.calls c) cells' pc')
    {i : Nat} (h : Opened s i) : Opened ⟨cells', Function.update s.calls c pc'⟩ i := by
  refine ⟨h.1.trans (ht.range_mono hs.range_le).1, fun d hd => ?_⟩
  rcases Interleaving.update_eq_iff.mp hd with ⟨-, rfl⟩ | ⟨-, hd⟩
  · -- only the exchange of the index creates a pending store, and for a new range
    have hle := h.1
    generalize s.calls c = pc at ht
    cases ht with
    | advanced i hi hcurrent => omega
  · exact h.2 d hd

theorem Unique.step_pending (hs : Sound fa s) (hu : Unique fa s)
    (ht : Transition fa s.shared (s.calls c) cells' pc') :
    ∀ d e j, Function.update s.calls c pc' d = .storeFrame j →
      Function.update s.calls c pc' e = .storeFrame j → d = e := by
  -- a pending store of the new range cannot exist before the index reaches it
  have hnew : ∀ j, pc' = .storeFrame j → ∀ d, s.calls d ≠ .storeFrame j := by
    intro j hj d hd
    have hsound := hs.calls d
    rw [hd] at hsound
    have hle : j ≤ s.shared.currentRange := hsound.2.2
    subst hj
    generalize s.calls c = pc at ht
    cases ht with
    | advanced i hi hcurrent => omega
  intro d e j hd he
  rcases Interleaving.update_eq_iff.mp hd with ⟨hdc, hd⟩ | ⟨-, hd⟩ <;>
    rcases Interleaving.update_eq_iff.mp he with ⟨hec, he⟩ | ⟨-, he⟩
  · exact hdc.trans hec.symm
  · exact absurd he (hnew j hd e)
  · exact absurd hd (hnew j he d)
  · exact hu.pending d e j hd he

/-- Steps that leave the cursor alone and claim nothing keep the claims. -/
theorem Unique.step_of_frame_eq (hs : Sound fa s) (hu : Unique fa s)
    (ht : Transition fa s.shared (s.calls c) cells' pc')
    (hframe : cells'.currentFrame = s.shared.currentFrame)
    (hpc : ∀ frame, pc' ≠ .returned (some frame)) :
    Unique fa ⟨cells', Function.update s.calls c pc'⟩ where
  pending := hu.step_pending hs ht
  located := by
    intro hcount
    obtain ⟨i, hi, hopen, hmem⟩ := hu.located hcount
    exact ⟨i, hi, hopen.step hs ht, by simpa [hframe] using hmem⟩
  claimed := by
    intro d frame hd
    rcases Interleaving.update_eq_iff.mp hd with ⟨-, hd⟩ | ⟨-, hd⟩
    · exact absurd hd (hpc frame)
    · obtain ⟨i, hi, hopen, hin, hlt⟩ := hu.claimed d frame hd
      exact ⟨i, hi, hopen.step hs ht, hin, by simpa [hframe] using hlt⟩
  distinct := by
    intro d e frame hd he
    rcases Interleaving.update_eq_iff.mp hd with ⟨-, hd⟩ | ⟨-, hd⟩
    · exact absurd hd (hpc frame)
    · rcases Interleaving.update_eq_iff.mp he with ⟨-, he⟩ | ⟨-, he⟩
      · exact absurd he (hpc frame)
      · exact hu.distinct d e frame hd he

/-- The delayed store opens its range, in which nothing was claimed before. -/
theorem Unique.step_stored (ha : fa.Aligned) (hd : fa.Disjoint) (hsep : fa.Separated)
    (hs : Sound fa s) (hu : Unique fa s) {j : Nat} (hj : j < fa.rangeCount)
    (hc : s.calls c = .storeFrame j) :
    Unique fa ⟨{ s.shared with currentFrame := fa.start j },
      Function.update s.calls c .loadRange⟩ := by
  have ht := Transition.of_storeFrame hc hj
  have hpc := hs.calls c
  rw [hc] at hpc
  refine ⟨hu.step_pending hs ht, fun _ => ?_, fun d frame hcall => ?_,
    fun d e frame hcall hcall' => ?_⟩
  · refine ⟨j, hj, ⟨hpc.2.2, fun d hd => ?_⟩, le_refl _, (ha.nonempty j hj).le⟩
    rcases Interleaving.update_eq_iff.mp hd with ⟨-, hd⟩ | ⟨hne, hd⟩
    · cases hd
    · exact hne (hu.pending d c j hd hc)
  · rcases Interleaving.update_eq_iff.mp hcall with ⟨-, hcall⟩ | ⟨-, hcall⟩
    · cases hcall
    · obtain ⟨i, hi, hopen, hin, -⟩ := hu.claimed d frame hcall
      refine ⟨i, hi, hopen.step hs ht, hin, fun hmem => ?_⟩
      have hij : i = j := hsep.eq_of_mem hd hi hj hmem ⟨le_refl _, (ha.nonempty j hj).le⟩
      exact absurd hc (hij ▸ hopen.2 c)
  · rcases Interleaving.update_eq_iff.mp hcall with ⟨-, hcall⟩ | ⟨-, hcall⟩
    · cases hcall
    · rcases Interleaving.update_eq_iff.mp hcall' with ⟨-, hcall'⟩ | ⟨-, hcall'⟩
      · cases hcall'
      · exact hu.distinct d e frame hcall hcall'

/-- A successful exchange claims the frame at the cursor, which is new. -/
theorem Unique.step_claimed (hd : fa.Disjoint) (hsep : fa.Separated)
    (hs : Sound fa s) (hu : Unique fa s) {current : Nat}
    (hc : s.calls c = .exchangeFrame current (current + frameSize))
    (hcurrent : s.shared.currentFrame = current) :
    Unique fa ⟨{ s.shared with currentFrame := current + frameSize },
      Function.update s.calls c (.returned (some current))⟩ := by
  have ht := Transition.of_exchangeFrame fa hc hcurrent
  have hpc := hs.calls c
  rw [hc] at hpc
  obtain ⟨-, i, hi, hin⟩ := hpc
  have hpos : 0 < frameSize := by decide
  have hstart := hin.start_le
  have hend := hin.end_le
  -- the range the frame lies in is the open range the cursor is in
  have hopen : Opened s i := by
    obtain ⟨k, hk, hopen, hmem⟩ := hu.located (by omega)
    rw [hcurrent] at hmem
    have hki : k = i := hsep.eq_of_mem hd hk hi hmem ⟨hstart, by omega⟩
    exact hki ▸ hopen
  have hfresh : ∀ d, s.calls d ≠ .returned (some current) := by
    intro d hcall
    obtain ⟨k, hk, -, hkin, hlt⟩ := hu.claimed d current hcall
    have hki : k = i := hd.eq_of_inRange hk hi hkin hin
    subst hki
    have := hlt (by omega)
    omega
  refine ⟨hu.step_pending hs ht, fun _ => ?_, fun d frame hcall => ?_,
    fun d e frame hcall hcall' => ?_⟩
  · refine ⟨i, hi, hopen.step hs ht, ?_, hend⟩
    change fa.start i ≤ current + frameSize
    omega
  · rcases Interleaving.update_eq_iff.mp hcall with ⟨-, hcall⟩ | ⟨-, hcall⟩
    · cases hcall
      exact ⟨i, hi, hopen.step hs ht, hin, fun _ => by simp only; omega⟩
    · obtain ⟨k, hk, hkopen, hkin, hlt⟩ := hu.claimed d frame hcall
      refine ⟨k, hk, hkopen.step hs ht, hkin, fun hmem => ?_⟩
      have hki : k = i := hsep.eq_of_mem hd hk hi hmem ⟨by simp only; omega, hend⟩
      subst hki
      have := hlt (by omega)
      simp only
      omega
  · rcases Interleaving.update_eq_iff.mp hcall with ⟨hdc, hcall⟩ | ⟨-, hcall⟩ <;>
      rcases Interleaving.update_eq_iff.mp hcall' with ⟨hec, hcall'⟩ | ⟨-, hcall'⟩
    · exact hdc.trans hec.symm
    · cases hcall
      exact absurd hcall' (hfresh e)
    · cases hcall'
      exact absurd hcall (hfresh d)
    · exact hu.distinct d e frame hcall hcall'

theorem Unique.step (ha : fa.Aligned) (hd : fa.Disjoint) (hsep : fa.Separated)
    (hs : Sound fa s) (hu : Unique fa s)
    (ht : Transition fa s.shared (s.calls c) cells' pc') :
    Unique fa ⟨cells', Function.update s.calls c pc'⟩ := by
  have hpc := hs.calls c
  have ht' := ht
  generalize hcall : s.calls c = pc at ht' hpc
  cases ht' with
  | stored j hj => exact hu.step_stored ha hd hsep hs hj hcall
  | claimed current following hcurrent =>
      obtain ⟨rfl, -⟩ := hpc
      exact hu.step_claimed hd hsep hs hcall hcurrent
  | exhausted | loadedRange | outside | attempt | lastRange | advanced | overtaken
  | contended => exact hu.step_of_frame_eq hs ht rfl (fun _ h => by cases h)

theorem unique_initial (ha : fa.Aligned) : Unique fa fa.initial where
  pending := fun _ _ _ h => by cases h
  located := by
    intro hcount
    refine ⟨0, hcount, ⟨le_refl _, fun d hd => by cases hd⟩, ?_⟩
    change fa.start 0 ≤ fa.initialCells.currentFrame ∧ fa.initialCells.currentFrame ≤ fa.stop 0
    rw [FrameAllocator.initialCells_currentFrame hcount]
    exact ⟨le_refl _, (ha.nonempty 0 hcount).le⟩
  claimed := fun _ _ h => by cases h
  distinct := fun _ _ _ h => by cases h

/-- Over separated ranges no two calls return the same frame. -/
theorem run_unique (ha : fa.Aligned) (hd : fa.Disjoint) (hsep : fa.Separated)
    (schedule : List Nat) : Unique fa (fa.run schedule) :=
  (run_invariant ha (unique_initial ha)
    (fun _ _ _ _ hs hu ht => Unique.step ha hd hsep hs hu ht) schedule).2

/-! ## Touching ranges

Conversely, let range `i` end where range `j` starts.  If `j` comes later, the
calls that advance the index from `i` to `j` leave the cursor where it is,
which is already the start of `j`: its first frame is claimed, and the last
pending store resets the cursor to it.  If `j` comes earlier, a call that
loaded the index at `j` and slept wakes up when the cursor has reached the end
of `i`.
-/

def SharesFrame (fa : FrameAllocator) : Prop :=
  ∃ schedule d e frame, d ≠ e ∧ (fa.run schedule).calls d = .returned (some frame) ∧
    (fa.run schedule).calls e = .returned (some frame)

theorem sharesFrame_of_reaches {s : Config} {d e frame : Nat}
    (h : Interleaving.Reaches (next fa) fa.initial s) (hne : d ≠ e)
    (hd : s.calls d = .returned (some frame)) (he : s.calls e = .returned (some frame)) :
    SharesFrame fa := by
  obtain ⟨schedule, rfl⟩ := h
  exact ⟨schedule, d, e, frame, hne, hd, he⟩

theorem sharesFrame_of_touching_later (ha : fa.Aligned) (hd : fa.Disjoint) {i j : Nat}
    (hij : i < j) (hj : j < fa.rangeCount) (htouch : fa.stop i = fa.start j) :
    SharesFrame fa := by
  obtain ⟨n₁, calls₁, h₁⟩ := reach_stop_initial ha (show i < fa.rangeCount by omega)
  have hstart := ha.nonempty j hj
  have hout : ∀ k, i ≤ k → k < j → fa.stop i < fa.start k ∨ fa.stop k ≤ fa.stop i := by
    intro k hik hkj
    by_cases hki : k = i
    · exact Or.inr (by rw [hki])
    · have hne := ha.nonempty k (by omega)
      rcases hd k (by omega) j hj (by omega) with h | h <;> omega
  obtain ⟨n₂, calls₂, t, h₂, htn, ht⟩ := race (I := (· ≤ i)) ha hij hj hout h₁.fresh
  -- the index is at `j`, the cursor at its start, and the store of call `t` is pending
  rw [htouch] at h₁ h₂
  have hin := inRange_start ha hj
  have h₃ := later_claim ha hj hin h₂.fresh
  set calls₃ := Function.update calls₂ n₂ (.returned (some (fa.start j))) with hcalls₃
  have hstore : Interleaving.solo (next fa) 1 (⟨j, fa.start j + frameSize⟩, calls₃ t) =
      (⟨j, fa.start j⟩, .loadRange) := by
    rw [hcalls₃, Function.update_of_ne (by omega), ht, Interleaving.solo_succ,
      Interleaving.solo_zero, advance_storeFrame ha hj]
  have h₄ := Interleaving.Reaches.of_solo
    (s := (⟨⟨j, fa.start j + frameSize⟩, calls₃⟩ : Config)) hstore
  have hfresh : Fresh (n₂ + 1) (Function.update calls₃ t .loadRange) := by
    intro c hc
    rw [Function.update_of_ne (by omega)]
    exact h₃.fresh c hc
  have h₅ := later_claim ha hj hin hfresh
  refine sharesFrame_of_reaches (d := n₂) (e := n₂ + 1)
    ((((h₁.reaches.trans h₂.reaches).trans h₃.reaches).trans h₄).trans h₅.reaches)
    (by omega) ?_ (Function.update_self _ _ _)
  change Function.update _ (n₂ + 1) _ n₂ = _
  rw [Function.update_of_ne (by omega), Function.update_of_ne (by omega), hcalls₃,
    Function.update_self]

theorem sharesFrame_of_touching_earlier (ha : fa.Aligned) {i j : Nat}
    (hji : j < i) (hi : i < fa.rangeCount) (htouch : fa.stop i = fa.start j) :
    SharesFrame fa := by
  have hj : j < fa.rangeCount := by omega
  have hin := inRange_start ha hj
  obtain ⟨n₁, calls₁, h₁⟩ := reach_start_initial ha hj
  -- call `n₁` loads the index and sleeps
  have h₂ : Later fa (· = j) n₁ ⟨⟨j, fa.start j⟩, calls₁⟩ (n₁ + 1)
      ⟨⟨j, fa.start j⟩, Function.update calls₁ n₁ (.loadFrame j)⟩ :=
    Later.of_solo (m := 1) (s := ⟨⟨j, fa.start j⟩, calls₁⟩) h₁.fresh
      (by rw [Interleaving.solo_succ, advance_loadRange hj, Interleaving.solo_zero])
      (fun _ h => by cases h)
  have h₃ := later_claim ha hj hin h₂.fresh
  have hnext := (located_start ha hj).add_frameSize ha (ha.nonempty j hj)
  obtain ⟨n₄, calls₄, h₄⟩ := reach_stop ha hnext h₃.fresh (Nat.le_of_lt hji) hi
  have hsleep : calls₄ n₁ = .loadFrame j := by
    have hkept : calls₄ n₁ = _ := h₄.kept n₁ (by omega)
    simp [hkept]
  have hfirst : calls₄ (n₁ + 1) = .returned (some (fa.start j)) := by
    have hkept : calls₄ (n₁ + 1) = _ := h₄.kept (n₁ + 1) (by omega)
    rw [hkept]
    exact Function.update_self _ _ _
  have hwake : Interleaving.solo (next fa) 2 (⟨i, fa.stop i⟩, calls₄ n₁) =
      (⟨i, fa.start j + frameSize⟩, .returned (some (fa.start j))) := by
    rw [hsleep, htouch, Interleaving.solo_succ, advance_loadFrame_inRange ha hj hin,
      Interleaving.solo_succ, Interleaving.solo_zero]
    simp [Interleaving.advance, next]
  have h₅ := Interleaving.Reaches.of_solo
    (s := (⟨⟨i, fa.stop i⟩, calls₄⟩ : Config)) hwake
  refine sharesFrame_of_reaches (d := n₁) (e := n₁ + 1)
    ((((h₁.reaches.trans h₂.reaches).trans h₃.reaches).trans h₄.reaches).trans h₅)
    (by omega) (Function.update_self _ _ _) ?_
  change Function.update calls₄ n₁ _ (n₁ + 1) = _
  rw [Function.update_of_ne (by omega), hfirst]

/-- The calls of every run return pairwise different frames exactly when no
range ends where another one starts. -/
theorem frames_distinct_iff_separated (ha : fa.Aligned) (hd : fa.Disjoint) :
    (∀ schedule d e frame, (fa.run schedule).calls d = .returned (some frame) →
      (fa.run schedule).calls e = .returned (some frame) → d = e) ↔ fa.Separated := by
  constructor
  · intro hdistinct i hi j hj hne htouch
    have hshare : SharesFrame fa := by
      rcases Nat.lt_or_gt_of_ne hne with hlt | hgt
      · exact sharesFrame_of_touching_later ha hd hlt hj htouch
      · exact sharesFrame_of_touching_earlier ha hgt hi htouch
    obtain ⟨schedule, d, e, frame, hde, hcall, hcall'⟩ := hshare
    exact hde (hdistinct schedule d e frame hcall hcall')
  · intro hsep schedule
    exact (run_unique ha hd hsep schedule).distinct

def touchingAllocator : FrameAllocator where
  ranges := ((Vector.replicate maxUsableRanges .empty).set 0 ⟨4096, 8192⟩
    zero_lt_maxUsableRanges).set 1 ⟨8192, 12288⟩ one_lt_maxUsableRanges
  rangeCount := 2

theorem touchingAllocator_aligned : touchingAllocator.Aligned :=
  ⟨by decide, by decide, by decide, by decide⟩

theorem touchingAllocator_disjoint : touchingAllocator.Disjoint := by
  unfold FrameAllocator.Disjoint
  decide

/-- Call 1 sleeps between the two steps of `advance_range` while call 2 claims
the first frame of the second range; its store then offers the frame again. -/
theorem touchingAllocator_shares_frame :
    touchingAllocator.Aligned ∧ touchingAllocator.Disjoint ∧
      (touchingAllocator.run [0, 0, 0, 1, 1, 1, 2, 2, 2, 1, 1, 1, 1]).calls 1 =
        .returned (some 8192) ∧
      (touchingAllocator.run [0, 0, 0, 1, 1, 1, 2, 2, 2, 1, 1, 1, 1]).calls 2 =
        .returned (some 8192) :=
  ⟨touchingAllocator_aligned, touchingAllocator_disjoint, by decide, by decide⟩

theorem frames_distinct_iff_separated_touching :
    touchingAllocator.Aligned ∧ touchingAllocator.Disjoint ∧
      ((∀ schedule d e frame,
        (touchingAllocator.run schedule).calls d = .returned (some frame) →
        (touchingAllocator.run schedule).calls e = .returned (some frame) → d = e) ↔
        touchingAllocator.Separated) :=
  ⟨touchingAllocator_aligned, touchingAllocator_disjoint,
    frames_distinct_iff_separated touchingAllocator_aligned touchingAllocator_disjoint⟩

end AetherOs.Memory.Frames
