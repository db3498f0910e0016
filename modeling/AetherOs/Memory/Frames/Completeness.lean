import AetherOs.Memory.Frames.Uniqueness
/-!
# `None` before the frames are gone

A call may return `None` although frames are left: between the exchange of the
index and the store of the cursor, another call sees the new range with the
old cursor and advances past it, and a late store can throw the cursor back
out of the range that is current by then.  With at most one range there is no
boundary, and with two ranges that touch the old cursor is the new one.  Every
other table loses frames in some run.
-/

namespace AetherOs.Memory.Frames

open AetherOs.Support

variable {fa : FrameAllocator} {cells' : Cells} {pc' : Pc} {s : Config} {c : Nat}

def Claimed (s : Config) (frame : Nat) : Prop :=
  ∃ d, s.calls d = .returned (some frame)

def Swept (fa : FrameAllocator) (s : Config) (i : Nat) : Prop :=
  ∀ frame, fa.InRange i frame → Claimed s frame

/-- At most one range, or two ranges without a gap between them. -/
def FrameAllocator.Gapless (fa : FrameAllocator) : Prop :=
  fa.rangeCount ≤ 1 ∨ fa.rangeCount = 2 ∧ fa.stop 0 = fa.start 1

/-- The index is past range `i`, or a call is about to move it past. -/
def Passed (s : Config) (i : Nat) : Prop :=
  i < s.shared.currentRange ∨ ∃ d, s.calls d = .advanceRange i .outsideRange

structure Exhaustive (fa : FrameAllocator) (s : Config) : Prop where
  start_le : 0 < fa.rangeCount → fa.start 0 ≤ s.shared.currentFrame
  below : ∀ i < fa.rangeCount, ∀ frame, fa.InRange i frame →
    frame < s.shared.currentFrame → Claimed s frame
  floor : ∀ i, i + 1 < fa.rangeCount → Passed s i → fa.stop i ≤ s.shared.currentFrame
  swept : ∀ i < fa.rangeCount, Passed s i → Swept fa s i
  ended : ∀ d, s.calls d = .returned none → ∀ i < fa.rangeCount, Swept fa s i

theorem FrameAllocator.Gapless.seam (h : fa.Gapless) {j : Nat} (hj : 0 < j)
    (hcount : j < fa.rangeCount) : j = 1 ∧ fa.rangeCount = 2 ∧ fa.stop 0 = fa.start 1 := by
  rcases h with h | ⟨h, hseam⟩
  · omega
  · exact ⟨by omega, h, hseam⟩

theorem Claimed.step (ht : Transition fa s.shared (s.calls c) cells' pc') {frame : Nat}
    (h : Claimed s frame) : Claimed ⟨cells', Function.update s.calls c pc'⟩ frame := by
  obtain ⟨d, hd⟩ := h
  refine ⟨d, Interleaving.update_eq_iff.mpr (Or.inr ⟨?_, hd⟩)⟩
  rintro rfl
  rw [hd] at ht
  cases ht

theorem Swept.step (ht : Transition fa s.shared (s.calls c) cells' pc') {i : Nat}
    (h : Swept fa s i) : Swept fa ⟨cells', Function.update s.calls c pc'⟩ i :=
  fun frame hin => (h frame hin).step ht

theorem Exhaustive.step_of_frame_eq (he : Exhaustive fa s)
    (ht : Transition fa s.shared (s.calls c) cells' pc')
    (hframe : cells'.currentFrame = s.shared.currentFrame)
    (hpassed : ∀ i, Passed ⟨cells', Function.update s.calls c pc'⟩ i → Passed s i ∨
      i < fa.rangeCount ∧ fa.stop i ≤ s.shared.currentFrame)
    (hended : pc' = .returned none → ∀ i < fa.rangeCount, Swept fa s i) :
    Exhaustive fa ⟨cells', Function.update s.calls c pc'⟩ where
  start_le := by
    intro hcount
    exact (he.start_le hcount).trans_eq hframe.symm
  below := by
    intro i hi frame hin hlt
    exact (he.below i hi frame hin (hlt.trans_eq hframe)).step ht
  floor := by
    intro i hi hpass
    rcases hpassed i hpass with h | h
    · exact (he.floor i hi h).trans_eq hframe.symm
    · exact h.2.trans_eq hframe.symm
  swept := by
    intro i hi hpass
    rcases hpassed i hpass with h | h
    · exact (he.swept i hi h).step ht
    · intro frame hin
      have hpos : 0 < frameSize := by decide
      have hend := hin.end_le
      exact (he.below i hi frame hin (by omega)).step ht
  ended := by
    intro d hd i hi
    rcases Interleaving.update_eq_iff.mp hd with ⟨-, hd⟩ | ⟨-, hd⟩
    · exact (hended hd i hi).step ht
    · exact (he.ended d hd i hi).step ht

/-- A range the index has reached can only be left at its end. -/
theorem Exhaustive.stop_le (hg : fa.Gapless) (he : Exhaustive fa s) {i : Nat}
    (hi : i < fa.rangeCount) (hreached : i ≤ s.shared.currentRange)
    (hout : s.shared.currentFrame < fa.start i ∨ fa.stop i ≤ s.shared.currentFrame) :
    fa.stop i ≤ s.shared.currentFrame := by
  rcases Nat.eq_zero_or_pos i with rfl | hpos
  · have := he.start_le hi
    omega
  · obtain ⟨rfl, hcount, hseam⟩ := hg.seam hpos hi
    have hfloor := he.floor 0 (by omega) (Or.inl hreached)
    omega

theorem passed_of_update {i : Nat} (hlt : cells'.currentRange = s.shared.currentRange)
    (h : Passed ⟨cells', Function.update s.calls c pc'⟩ i) :
    Passed s i ∨ pc' = .advanceRange i .outsideRange := by
  rcases h with h | ⟨d, hd⟩
  · exact Or.inl (Or.inl (hlt ▸ h))
  · rcases Interleaving.update_eq_iff.mp hd with ⟨-, hd⟩ | ⟨-, hd⟩
    · exact Or.inr hd
    · exact Or.inl (Or.inr ⟨d, hd⟩)

theorem passed_of_update_of_ne {i : Nat} (hlt : cells'.currentRange = s.shared.currentRange)
    (hpc : pc' ≠ .advanceRange i .outsideRange)
    (h : Passed ⟨cells', Function.update s.calls c pc'⟩ i) : Passed s i :=
  (passed_of_update hlt h).resolve_right hpc

theorem Exhaustive.step_stored (ha : fa.Aligned) (hg : fa.Gapless) (hs : Sound fa s)
    (he : Exhaustive fa s) {j : Nat} (hj : j < fa.rangeCount)
    (hc : s.calls c = .storeFrame j) :
    Exhaustive fa ⟨{ s.shared with currentFrame := fa.start j },
      Function.update s.calls c .loadRange⟩ := by
  have ht := Transition.of_storeFrame hc hj
  have hpc := hs.calls c
  rw [hc] at hpc
  obtain ⟨rfl, hcount, hseam⟩ := hg.seam hpc.1 hj
  have hsweep : Swept fa s 0 := he.swept 0 (by omega) (Or.inl hpc.2.2)
  have hnonempty := ha.nonempty 0 (by omega)
  have hpassed : ∀ i, Passed ⟨{ s.shared with currentFrame := fa.start 1 },
      Function.update s.calls c .loadRange⟩ i → Passed s i := by
    intro i hi
    exact passed_of_update_of_ne rfl (fun h => by cases h) hi
  constructor
  · intro _
    change fa.start 0 ≤ fa.start 1
    omega
  · intro i hi frame hin hlt
    have hi' : i = 0 ∨ i = 1 := by omega
    rcases hi' with rfl | rfl
    · exact (hsweep frame hin).step ht
    · exact absurd hlt (Nat.not_lt.mpr hin.start_le)
  · intro i hi hpass
    have hi' : i = 0 := by omega
    subst hi'
    exact hseam.le
  · intro i hi hpass
    exact (he.swept i hi (hpassed i hpass)).step ht
  · intro d hd i hi
    rcases Interleaving.update_eq_iff.mp hd with ⟨-, hd⟩ | ⟨-, hd⟩
    · cases hd
    · exact (he.ended d hd i hi).step ht

theorem Exhaustive.step_claimed (hs : Sound fa s) (he : Exhaustive fa s) {current : Nat}
    (hc : s.calls c = .exchangeFrame current (current + frameSize))
    (hcurrent : s.shared.currentFrame = current) :
    Exhaustive fa ⟨{ s.shared with currentFrame := current + frameSize },
      Function.update s.calls c (.returned (some current))⟩ := by
  have ht := Transition.of_exchangeFrame fa hc hcurrent
  have hpassed : ∀ i, Passed ⟨{ s.shared with currentFrame := current + frameSize },
      Function.update s.calls c (.returned (some current))⟩ i → Passed s i := by
    intro i hi
    exact passed_of_update_of_ne rfl (fun h => by cases h) hi
  constructor
  · intro hcount
    have := he.start_le hcount
    change fa.start 0 ≤ current + frameSize
    omega
  · intro i hi frame hin hlt
    change frame < current + frameSize at hlt
    have hdvd := hs.frame_dvd
    rw [hcurrent] at hdvd
    rcases Nat.lt_trichotomy frame current with h | rfl | h
    · exact (he.below i hi frame hin (by omega)).step ht
    · exact ⟨c, Function.update_self _ _ _⟩
    · have := Word.add_le_of_dvd_of_lt hdvd hin.aligned h
      omega
  · intro i hi hpass
    have := he.floor i hi (hpassed i hpass)
    change fa.stop i ≤ current + frameSize
    omega
  · intro i hi hpass
    exact (he.swept i hi (hpassed i hpass)).step ht
  · intro d hd i hi
    rcases Interleaving.update_eq_iff.mp hd with ⟨-, hd⟩ | ⟨-, hd⟩
    · cases hd
    · exact (he.ended d hd i hi).step ht

theorem Exhaustive.step (ha : fa.Aligned) (hg : fa.Gapless) (hs : Sound fa s)
    (he : Exhaustive fa s) (ht : Transition fa s.shared (s.calls c) cells' pc') :
    Exhaustive fa ⟨cells', Function.update s.calls c pc'⟩ := by
  have hpc := hs.calls c
  have ht' := ht
  generalize hcall : s.calls c = pc at ht' hpc
  cases ht' with
  | stored j hj => exact he.step_stored ha hg hs hj hcall
  | claimed current following hcurrent =>
      obtain ⟨rfl, -⟩ := hpc
      exact he.step_claimed hs hcall hcurrent
  | exhausted hcount =>
      refine he.step_of_frame_eq ht rfl (fun i hi => ?_) (fun _ i hi => ?_)
      · exact Or.inl (passed_of_update_of_ne rfl (fun h => by cases h) hi)
      · exact he.swept i hi (Or.inl (lt_of_lt_of_le hi hcount))
  | outside i hi hout =>
      have hstop := he.stop_le hg hi hpc.2 hout
      refine he.step_of_frame_eq ht rfl (fun k hk => ?_) (fun h => by cases h)
      rcases passed_of_update rfl hk with h | h
      · exact Or.inl h
      · cases h
        exact Or.inr ⟨hi, hstop⟩
  | lastRange i hlast =>
      -- the ranges before the last one were passed when the index reached it
      have hall : ∀ k < fa.rangeCount, Passed s k := by
        intro k hk
        by_cases hki : k = i
        · exact Or.inr ⟨c, hki ▸ hcall⟩
        · exact Or.inl (by have := hpc.2.1; omega)
      refine he.step_of_frame_eq ht rfl (fun k hk => ?_)
        (fun _ k hk => he.swept k hk (hall k hk))
      rcases hk with hk | ⟨d, hd⟩
      · exact Or.inl (hall k hk)
      · rcases Interleaving.update_eq_iff.mp hd with ⟨-, hd⟩ | ⟨-, hd⟩
        · cases hd
        · exact Or.inl (Or.inr ⟨d, hd⟩)
  | advanced i hi hcurrent =>
      refine he.step_of_frame_eq ht rfl (fun k hk => ?_) (fun h => by cases h)
      rcases hk with hk | ⟨d, hd⟩
      · have hk' : k < i + 1 := hk
        by_cases hki : k = i
        · exact Or.inl (Or.inr ⟨c, hki ▸ hcall⟩)
        · exact Or.inl (Or.inl (by omega))
      · rcases Interleaving.update_eq_iff.mp hd with ⟨-, hd⟩ | ⟨-, hd⟩
        · cases hd
        · exact Or.inl (Or.inr ⟨d, hd⟩)
  | loadedRange | attempt | overtaken | contended =>
      refine he.step_of_frame_eq ht rfl (fun i hi => ?_) (fun h => by cases h)
      exact Or.inl (passed_of_update_of_ne rfl (fun h => by cases h) hi)

theorem exhaustive_initial (ha : fa.Aligned) (hg : fa.Gapless) :
    Exhaustive fa fa.initial := by
  have hpassed : ∀ i, ¬ Passed fa.initial i := by
    rintro i (h | ⟨d, h⟩)
    · exact Nat.not_lt_zero i h
    · cases h
  constructor
  · intro hcount
    rw [initial_of_pos hcount]
  · intro i hi frame hin hlt
    rw [initial_of_pos (by omega)] at hlt
    change frame < fa.start 0 at hlt
    have hstart := hin.start_le
    rcases Nat.eq_zero_or_pos i with rfl | hpos
    · omega
    · obtain ⟨rfl, -, hseam⟩ := hg.seam hpos hi
      have := ha.nonempty 0 (by omega)
      omega
  · exact fun i _ h => absurd h (hpassed i)
  · exact fun i _ h => absurd h (hpassed i)
  · exact fun d h => by cases h

theorem run_exhaustive (ha : fa.Aligned) (hg : fa.Gapless) (schedule : List Nat) :
    Exhaustive fa (fa.run schedule) :=
  (run_invariant ha (exhaustive_initial ha hg)
    (fun _ _ _ _ hs he ht => Exhaustive.step ha hg hs he ht) schedule).2

/-! ## Runs that lose a range -/

def LosesFrame (fa : FrameAllocator) : Prop :=
  ∃ schedule d, (fa.run schedule).calls d = .returned none ∧
    ∃ i < fa.rangeCount, ¬ Swept fa (fa.run schedule) i

def ClaimsOutside (fa : FrameAllocator) (i : Nat) (s : Config) : Prop :=
  ∀ d frame, s.calls d = .returned (some frame) →
    ∃ k, k ≠ i ∧ k < fa.rangeCount ∧ fa.InRange k frame

theorem Later.claimsOutside {t : Config} {n n' i : Nat} (hs : ClaimsOutside fa i s)
    (h : Later fa (· ≠ i) n s n' t) : ClaimsOutside fa i t := by
  intro d frame hcall
  by_cases hd : d < n
  · exact hs d frame (h.kept d hd ▸ hcall)
  · exact h.claims d frame (by omega) hcall

theorem claimsOutside_initial (i : Nat) : ClaimsOutside fa i fa.initial :=
  fun _ _ h => by cases h

theorem losesFrame_of_reaches (ha : fa.Aligned) (hd : fa.Disjoint) {i : Nat}
    (hi : i < fa.rangeCount) (hreach : Interleaving.Reaches (next fa) fa.initial s)
    (hclaims : ClaimsOutside fa i s) (hnone : s.calls c = .returned none) :
    LosesFrame fa := by
  obtain ⟨schedule, rfl⟩ := hreach
  refine ⟨schedule, c, hnone, i, hi, fun hswept => ?_⟩
  obtain ⟨e, he⟩ := hswept (fa.start i) (inRange_start ha hi)
  obtain ⟨k, hne, hk, hin⟩ := hclaims e _ he
  exact hne (hd.eq_of_inRange hk hi hin (inRange_start ha hi))

/-- With a gap after range `i`, a second call skips range `i + 1` while the
store of the first one is pending. -/
theorem losesFrame_of_gap (ha : fa.Aligned) (hd : fa.Disjoint) {i : Nat}
    (hi : i + 1 < fa.rangeCount) (hgap : fa.stop i ≠ fa.start (i + 1)) : LosesFrame fa := by
  obtain ⟨n₁, calls₁, h₁⟩ := reach_stop_initial ha (show i < fa.rangeCount by omega)
  have h₂ : Later fa (· ≠ i + 1) n₁ _ (n₁ + 1) _ :=
    later_pending ha hi (Or.inr (le_refl _)) h₁.fresh
  have hout : fa.stop i < fa.start (i + 1) ∨ fa.stop (i + 1) ≤ fa.stop i := by
    have := ha.nonempty i (by omega)
    rcases hd i (by omega) (i + 1) hi (by omega) with h | h <;> omega
  obtain ⟨n₃, t, c, h₃, hnone⟩ := skip ha hi hout h₂.fresh
  have hall := ((h₁.mono (fun k hk => by omega)).trans h₂).trans
    (h₃.mono (fun k hk => by omega))
  exact losesFrame_of_reaches ha hd hi hall.reaches
    (hall.claimsOutside (claimsOutside_initial _)) hnone

/-- With three ranges in a row, the late store of the start of range 1 throws
the cursor out of range 2. -/
theorem losesFrame_of_three (ha : fa.Aligned) (hd : fa.Disjoint) (hcount : 2 < fa.rangeCount)
    (hseam₀ : fa.stop 0 = fa.start 1) (hseam₁ : fa.stop 1 = fa.start 2) : LosesFrame fa := by
  obtain ⟨n₁, calls₁, h₁⟩ := reach_stop_initial ha (show 0 < fa.rangeCount by omega)
  have h₂ : Later fa (· ≠ 2) n₁ _ (n₁ + 1) _ :=
    later_pending ha (show 0 + 1 < fa.rangeCount by omega) (Or.inr (le_refl _)) h₁.fresh
  have hloc : Located fa 1 (fa.stop 0) := hseam₀ ▸ located_start ha (by omega)
  obtain ⟨n₃, calls₃, h₃⟩ := drain ha hloc h₂.fresh
  have h₄ : Later fa (· ≠ 2) n₃ _ (n₃ + 1) _ :=
    later_advance ha (show 1 + 1 < fa.rangeCount by omega) (Or.inr (le_refl _)) h₃.fresh
  set calls₄ := Function.update calls₃ n₃ .loadRange with hcalls₄
  have hle := h₃.le
  have hpending : calls₄ n₁ = .storeFrame 1 := by
    have hkept : calls₃ n₁ = _ := h₃.kept n₁ (by omega)
    rw [hcalls₄, Function.update_of_ne (by omega), hkept]
    exact Function.update_self _ _ _
  have hstore : Interleaving.solo (next fa) 1 (⟨2, fa.start 2⟩, calls₄ n₁) =
      (⟨2, fa.start 1⟩, .loadRange) := by
    rw [hpending, Interleaving.solo_succ, Interleaving.solo_zero,
      advance_storeFrame ha (by omega)]
  have h₅ := Interleaving.Reaches.of_solo (s := (⟨⟨2, fa.start 2⟩, calls₄⟩ : Config)) hstore
  have hfresh : Fresh (n₃ + 1) (Function.update calls₄ n₁ .loadRange) := by
    intro c hc
    rw [Function.update_of_ne (by omega)]
    exact h₄.fresh c hc
  have hbefore : fa.start 1 < fa.start 2 := hseam₁ ▸ ha.nonempty 1 (by omega)
  obtain ⟨n₆, t, c, h₆, hnone⟩ := skip ha hcount (Or.inl hbefore) hfresh
  have hearly := ((h₁.mono (fun k hk => by omega)).trans h₂).trans
    ((h₃.mono (fun k hk => by omega)).trans h₄)
  have hclaims := hearly.claimsOutside (claimsOutside_initial 2)
  have hclaims' : ClaimsOutside fa 2
      ⟨⟨2, fa.start 1⟩, Function.update calls₄ n₁ .loadRange⟩ := by
    intro d frame hcall
    rcases Interleaving.update_eq_iff.mp hcall with ⟨-, hcall⟩ | ⟨-, hcall⟩
    · cases hcall
    · exact hclaims d frame hcall
  have hlate : Later fa (· ≠ 2) (n₃ + 1) _ n₆ t := h₆.mono (fun k hk => by omega)
  exact losesFrame_of_reaches ha hd hcount ((hearly.reaches.trans h₅).trans hlate.reaches)
    (hlate.claimsOutside hclaims') hnone

/-! ## Runs that do not separate the two steps of `advance_range`

Whatever the table, nothing is lost as long as no call moves while another one
has its store pending: then the cursor always belongs to the current range.
-/

/-- No call other than `c` stands between its exchange of the index and its store. -/
def Undisturbed (s : Config) (c : Nat) : Prop :=
  ∀ d j, s.calls d = .storeFrame j → d = c

def InProgress (fa : FrameAllocator) (s : Config) (i : Nat) : Prop :=
  Located fa i s.shared.currentFrame ∧
    ∀ frame, fa.InRange i frame → frame < s.shared.currentFrame → Claimed s frame

structure Orderly (fa : FrameAllocator) (s : Config) : Prop where
  pending : ∀ d j, s.calls d = .storeFrame j → j = s.shared.currentRange
  current : s.shared.currentRange < fa.rangeCount →
    (∃ d, s.calls d = .storeFrame s.shared.currentRange) ∨
      InProgress fa s s.shared.currentRange ∨ Swept fa s s.shared.currentRange
  swept : ∀ i < fa.rangeCount, Passed s i → Swept fa s i
  ended : ∀ d, s.calls d = .returned none → ∀ i < fa.rangeCount, Swept fa s i

theorem InProgress.swept {i : Nat} (h : InProgress fa s i)
    (hout : s.shared.currentFrame < fa.start i ∨ fa.stop i ≤ s.shared.currentFrame) :
    Swept fa s i := by
  intro frame hin
  have hpos : 0 < frameSize := by decide
  have hstart := h.1.start_le
  have hend := hin.end_le
  exact h.2 frame hin (by omega)

/-- A call that has no store pending moves only when no store is pending. -/
theorem Orderly.current_of_ne (ho : Orderly fa s) (hu : Undisturbed s c)
    (hc : ∀ j, s.calls c ≠ .storeFrame j) (hlt : s.shared.currentRange < fa.rangeCount) :
    InProgress fa s s.shared.currentRange ∨ Swept fa s s.shared.currentRange := by
  rcases ho.current hlt with ⟨d, hd⟩ | h
  · rw [hu d _ hd] at hd
    exact absurd hd (hc _)
  · exact h

theorem Orderly.pending_update (hu : Undisturbed s c) (hpc : ∀ j, pc' ≠ .storeFrame j)
    {d j : Nat} (hd : Function.update s.calls c pc' d = .storeFrame j) : False := by
  rcases Interleaving.update_eq_iff.mp hd with ⟨-, hd⟩ | ⟨hne, hd⟩
  · exact hpc j hd
  · exact hne (hu d j hd)

theorem Orderly.step_of_cells_eq (ho : Orderly fa s) (hu : Undisturbed s c)
    (ht : Transition fa s.shared (s.calls c) s.shared pc')
    (hc : ∀ j, s.calls c ≠ .storeFrame j) (hpc : ∀ j, pc' ≠ .storeFrame j)
    (hpassed : ∀ i < fa.rangeCount, pc' = .advanceRange i .outsideRange → Swept fa s i)
    (hended : pc' = .returned none → ∀ i < fa.rangeCount, Swept fa s i) :
    Orderly fa ⟨s.shared, Function.update s.calls c pc'⟩ where
  pending := fun d j hd => (Orderly.pending_update hu hpc hd).elim
  current := by
    intro hlt
    rcases ho.current_of_ne hu hc hlt with h | h
    · exact Or.inr (Or.inl ⟨h.1, fun frame hin hbelow => (h.2 frame hin hbelow).step ht⟩)
    · exact Or.inr (Or.inr (h.step ht))
  swept := by
    intro i hi hpass
    rcases passed_of_update rfl hpass with h | h
    · exact (ho.swept i hi h).step ht
    · exact (hpassed i hi h).step ht
  ended := by
    intro d hd i hi
    rcases Interleaving.update_eq_iff.mp hd with ⟨-, hd⟩ | ⟨-, hd⟩
    · exact (hended hd i hi).step ht
    · exact (ho.ended d hd i hi).step ht

/-- Steps that move the index past range `i`. -/
theorem Orderly.step_of_passed (hs : Sound fa s) (ho : Orderly fa s)
    (ht : Transition fa s.shared (s.calls c) cells' pc') {i : Nat}
    (hcall : s.calls c = .advanceRange i .outsideRange)
    (hrange : cells'.currentRange ≤ i + 1 ∨ fa.rangeCount ≤ i + 1)
    (hpc : ∀ k, pc' ≠ .advanceRange k .outsideRange)
    (hpending : ∀ d j, Function.update s.calls c pc' d = .storeFrame j →
      j = cells'.currentRange)
    (hcurrent : cells'.currentRange < fa.rangeCount →
      Function.update s.calls c pc' c = .storeFrame cells'.currentRange)
    (hended : pc' = .returned none → fa.rangeCount ≤ i + 1) :
    Orderly fa ⟨cells', Function.update s.calls c pc'⟩ := by
  have hsound := hs.calls c
  rw [hcall] at hsound
  have hbefore : ∀ k ≤ i, k < fa.rangeCount → Swept fa s k := by
    intro k hk hcount
    refine ho.swept k hcount ?_
    by_cases hki : k = i
    · exact Or.inr ⟨c, hki ▸ hcall⟩
    · exact Or.inl (by have := hsound.2.1; omega)
  refine ⟨hpending, fun hlt => Or.inl ⟨c, hcurrent hlt⟩, fun k hk hpass => ?_,
    fun d hd k hk => ?_⟩
  · rcases hpass with hpass | ⟨d, hd⟩
    · have hpass' : k < cells'.currentRange := hpass
      exact (hbefore k (by omega) hk).step ht
    · rcases Interleaving.update_eq_iff.mp hd with ⟨-, hd⟩ | ⟨-, hd⟩
      · exact absurd hd (hpc k)
      · exact (ho.swept k hk (Or.inr ⟨d, hd⟩)).step ht
  · rcases Interleaving.update_eq_iff.mp hd with ⟨-, hd⟩ | ⟨-, hd⟩
    · exact (hbefore k (by have := hended hd; omega) hk).step ht
    · exact (ho.ended d hd k hk).step ht

theorem Orderly.step_stored (ha : fa.Aligned) (ho : Orderly fa s) (hu : Undisturbed s c)
    {j : Nat} (hj : j < fa.rangeCount) (hcall : s.calls c = .storeFrame j) :
    Orderly fa ⟨{ s.shared with currentFrame := fa.start j },
      Function.update s.calls c .loadRange⟩ := by
  have ht := Transition.of_storeFrame hcall hj
  have hrange := ho.pending c j hcall
  refine ⟨fun d k hd => (Orderly.pending_update hu (fun _ h => by cases h) hd).elim,
    fun _ => Or.inr (Or.inl ⟨?_, ?_⟩), fun i hi hpass => ?_, fun d hd i hi => ?_⟩
  · rw [← hrange]
    exact located_start ha hj
  · intro frame hin hlt
    rw [← hrange] at hin
    exact absurd hlt (Nat.not_lt.mpr hin.start_le)
  · have hpassed := passed_of_update_of_ne rfl (fun h => by cases h) hpass
    exact (ho.swept i hi hpassed).step ht
  · rcases Interleaving.update_eq_iff.mp hd with ⟨-, hd⟩ | ⟨-, hd⟩
    · cases hd
    · exact (ho.ended d hd i hi).step ht

theorem Orderly.step_claimed (ha : fa.Aligned) (ho : Orderly fa s) (hu : Undisturbed s c)
    {current : Nat} (hcall : s.calls c = .exchangeFrame current (current + frameSize))
    (hcurrent : s.shared.currentFrame = current) :
    Orderly fa ⟨{ s.shared with currentFrame := current + frameSize },
      Function.update s.calls c (.returned (some current))⟩ := by
  have ht := Transition.of_exchangeFrame fa hcall hcurrent
  refine ⟨fun d k hd => (Orderly.pending_update hu (fun _ h => by cases h) hd).elim,
    fun hlt => Or.inr ?_, fun i hi hpass => ?_, fun d hd i hi => ?_⟩
  · have hne : ∀ j, s.calls c ≠ .storeFrame j := fun j h => by rw [hcall] at h; cases h
    rcases ho.current_of_ne hu hne hlt with h | h
    · by_cases hstop : s.shared.currentFrame < fa.stop s.shared.currentRange
      · left
        have hnext := h.1.add_frameSize ha hstop
        rw [hcurrent] at hnext
        refine ⟨hnext, fun frame hin hbelow => ?_⟩
        change frame < current + frameSize at hbelow
        have hdvd := h.1.aligned
        rw [hcurrent] at hdvd
        rcases Nat.lt_trichotomy frame current with hf | rfl | hf
        · exact (h.2 frame hin (by omega)).step ht
        · exact ⟨c, Function.update_self _ _ _⟩
        · have := Word.add_le_of_dvd_of_lt hdvd hin.aligned hf
          omega
      · exact Or.inr ((h.swept (Or.inr (by omega))).step ht)
    · exact Or.inr (h.step ht)
  · have hpassed := passed_of_update_of_ne rfl (fun h => by cases h) hpass
    exact (ho.swept i hi hpassed).step ht
  · rcases Interleaving.update_eq_iff.mp hd with ⟨-, hd⟩ | ⟨-, hd⟩
    · cases hd
    · exact (ho.ended d hd i hi).step ht

theorem Orderly.step (ha : fa.Aligned) (hs : Sound fa s) (ho : Orderly fa s)
    (hu : Undisturbed s c) (ht : Transition fa s.shared (s.calls c) cells' pc') :
    Orderly fa ⟨cells', Function.update s.calls c pc'⟩ := by
  have hpc := hs.calls c
  have ht' := ht
  generalize hcall : s.calls c = pc at ht' hpc
  cases ht' with
  | stored j hj => exact ho.step_stored ha hu hj hcall
  | claimed current following hcurrent =>
      obtain ⟨rfl, -⟩ := hpc
      exact ho.step_claimed ha hu hcall hcurrent
  | lastRange i hlast =>
      refine ho.step_of_passed hs ht hcall (Or.inr hlast) (fun _ h => by cases h)
        (fun d j hd => ?_) (fun h => absurd h (lt_irrefl _)) (fun _ => hlast)
      exact (Orderly.pending_update hu (fun _ h => by cases h) hd).elim
  | advanced i hi hcurrent =>
      refine ho.step_of_passed hs ht hcall (Or.inl (le_refl _)) (fun _ h => by cases h)
        (fun d j hd => ?_) (fun _ => Function.update_self _ _ _) (fun h => by cases h)
      rcases Interleaving.update_eq_iff.mp hd with ⟨-, hd⟩ | ⟨hne, hd⟩
      · cases hd
        rfl
      · exact absurd (hu d j hd) hne
  | exhausted hcount =>
      refine ho.step_of_cells_eq hu ht (fun _ h => by rw [hcall] at h; cases h)
        (fun _ h => by cases h) (fun _ _ h => by cases h) (fun _ i hi => ?_)
      exact ho.swept i hi (Or.inl (lt_of_lt_of_le hi hcount))
  | outside i hi hout =>
      have hne : ∀ j, s.calls c ≠ .storeFrame j := fun j h => by rw [hcall] at h; cases h
      refine ho.step_of_cells_eq hu ht hne (fun _ h => by cases h) (fun k hk h => ?_)
        (fun h => by cases h)
      cases h
      by_cases hpass : i < s.shared.currentRange
      · exact ho.swept i hi (Or.inl hpass)
      · have hrange : i = s.shared.currentRange := le_antisymm hpc.2 (by omega)
        subst hrange
        rcases ho.current_of_ne hu hne hi with h | h
        · exact h.swept hout
        · exact h
  | loadedRange | attempt | overtaken | contended =>
      exact ho.step_of_cells_eq hu ht (fun _ h => by rw [hcall] at h; cases h)
        (fun _ h => by cases h) (fun _ _ h => by cases h) (fun h => by cases h)

theorem orderly_initial (ha : fa.Aligned) : Orderly fa fa.initial where
  pending := fun _ _ h => by cases h
  current := by
    intro hlt
    have hcount : 0 < fa.rangeCount := hlt
    rw [initial_of_pos hcount]
    refine Or.inr (Or.inl ⟨located_start ha hcount, fun frame hin hbelow => ?_⟩)
    exact absurd hbelow (Nat.not_lt.mpr hin.start_le)
  swept := by
    rintro i - (h | ⟨d, h⟩)
    · exact absurd h (Nat.not_lt_zero i)
    · cases h
  ended := fun _ h => by cases h

theorem run_orderly (ha : fa.Aligned) {schedule : List Nat}
    (hu : Runs.Along (Interleaving.step (next fa)) Undisturbed fa.initial schedule) :
    Orderly fa (fa.run schedule) := by
  refine (Runs.exec_invariant_along (P := fun s => Sound fa s ∧ Orderly fa s)
    (fun s c h hu => ?_) ⟨sound_initial ha, orderly_initial ha⟩ hu).2
  cases hn : next fa s.shared (s.calls c) with
  | none => rwa [Interleaving.step_of_none hn]
  | some x =>
      rw [Interleaving.step_of_some hn]
      have ht := h.1.transition ha hn
      exact ⟨h.1.step ha ht, Orderly.step ha h.1 h.2 hu ht⟩

theorem along_undisturbed_replicate (hu : Undisturbed s c) (n : Nat) :
    Runs.Along (Interleaving.step (next fa)) Undisturbed s (List.replicate n c) := by
  induction n generalizing s with
  | zero => trivial
  | succ n ih =>
      refine ⟨hu, ih (fun d j hd => ?_)⟩
      by_contra hne
      have hkept : (Runs.exec (Interleaving.step (next fa)) s [c]).calls d = s.calls d :=
        Interleaving.exec_calls_of_notMem s (by simpa using hne)
      rw [Runs.exec_cons, Runs.exec_nil] at hkept
      exact hne (hu d j (hkept ▸ hd))

/-- After calls that have all returned, the next one is not disturbed. -/
theorem along_undisturbed_append {schedule : List Nat}
    (h : Runs.Along (Interleaving.step (next fa)) Undisturbed fa.initial schedule)
    (hreturned : ∀ d ∈ schedule, ∃ result, (fa.run schedule).calls d = .returned result)
    (c n : Nat) :
    Runs.Along (Interleaving.step (next fa)) Undisturbed fa.initial
      (schedule ++ List.replicate n c) := by
  refine h.append (along_undisturbed_replicate (fun d j hd => ?_) n)
  by_cases hmoved : d ∈ schedule
  · obtain ⟨result, hresult⟩ := hreturned d hmoved
    cases hresult.symm.trans hd
  · rw [Interleaving.exec_calls_of_notMem _ hmoved] at hd
    cases hd

def NoneOnlyWhenClaimed (fa : FrameAllocator) (s : Config) : Prop :=
  ∀ d, s.calls d = .returned none →
    ∀ i < fa.rangeCount, ∀ frame, fa.InRange i frame → Claimed s frame

/-- A call returns `None` only when every frame is claimed: in every run
exactly when there is at most one range or two ranges without a gap, and for
every table in the runs that do not separate the two steps of `advance_range`. -/
theorem none_only_when_claimed_iff_gapless (ha : fa.Aligned) (hd : fa.Disjoint) :
    ((∀ schedule, NoneOnlyWhenClaimed fa (fa.run schedule)) ↔ fa.Gapless) ∧
      ∀ schedule, Runs.Along (Interleaving.step (next fa)) Undisturbed fa.initial schedule →
        NoneOnlyWhenClaimed fa (fa.run schedule) := by
  refine ⟨⟨fun hcomplete => ?_, fun hg schedule => ?_⟩, fun schedule hu => ?_⟩
  · by_contra hgap
    have hlose : LosesFrame fa := by
      unfold FrameAllocator.Gapless at hgap
      by_cases hseam₀ : fa.stop 0 = fa.start 1
      · by_cases hseam₁ : fa.stop 1 = fa.start 2
        · exact losesFrame_of_three ha hd (by omega) hseam₀ hseam₁
        · exact losesFrame_of_gap ha hd (show 1 + 1 < fa.rangeCount by omega) hseam₁
      · exact losesFrame_of_gap ha hd (show 0 + 1 < fa.rangeCount by omega) hseam₀
    obtain ⟨schedule, d, hnone, i, hi, hswept⟩ := hlose
    exact hswept (hcomplete schedule d hnone i hi)
  · exact (run_exhaustive ha hg schedule).ended
  · exact (run_orderly ha hu).ended

def gapAllocator : FrameAllocator where
  ranges := ((Vector.replicate maxUsableRanges .empty).set 0 ⟨4096, 8192⟩
    zero_lt_maxUsableRanges).set 1 ⟨16384, 20480⟩ one_lt_maxUsableRanges
  rangeCount := 2

theorem gapAllocator_aligned : gapAllocator.Aligned :=
  ⟨by decide, by decide, by decide, by decide⟩

theorem gapAllocator_disjoint : gapAllocator.Disjoint := by
  unfold FrameAllocator.Disjoint
  decide

/-- Call 1 has moved the index and not yet the cursor when call 2 finds the old
cursor outside the last range and gives up; frame 16384 is unclaimed. -/
theorem gapAllocator_loses_frame :
    gapAllocator.Aligned ∧ gapAllocator.Disjoint ∧
      (gapAllocator.run [0, 0, 0, 1, 1, 1, 2, 2, 2]).calls 2 = .returned none ∧
      gapAllocator.InRange 1 16384 ∧
      ¬ Claimed (gapAllocator.run [0, 0, 0, 1, 1, 1, 2, 2, 2]) 16384 := by
  refine ⟨gapAllocator_aligned, gapAllocator_disjoint, by decide,
    ⟨by decide, by decide, by decide⟩, ?_⟩
  rintro ⟨d, hd⟩
  by_cases hmoved : d ∈ [0, 0, 0, 1, 1, 1, 2, 2, 2]
  · have hd' : d = 0 ∨ d = 1 ∨ d = 2 := by simpa using hmoved
    rcases hd' with rfl | rfl | rfl <;> exact absurd hd (by decide)
  · unfold FrameAllocator.run at hd
    rw [Interleaving.exec_calls_of_notMem _ hmoved] at hd
    cases hd

/-- Three calls one after another: each range gives its frame, then there is none. -/
def threeCalls : List Nat := List.replicate 3 0 ++ List.replicate 7 1 ++ List.replicate 3 2

theorem none_only_when_claimed_iff_gapless_gap :
    gapAllocator.Aligned ∧ gapAllocator.Disjoint ∧
      ((∀ schedule, NoneOnlyWhenClaimed gapAllocator (gapAllocator.run schedule)) ↔
        gapAllocator.Gapless) ∧
      (gapAllocator.run threeCalls).calls 2 = .returned none ∧
      NoneOnlyWhenClaimed gapAllocator (gapAllocator.run threeCalls) := by
  have h := none_only_when_claimed_iff_gapless gapAllocator_aligned gapAllocator_disjoint
  refine ⟨gapAllocator_aligned, gapAllocator_disjoint, h.1, by decide, h.2 _ ?_⟩
  have hfirst : ∀ d ∈ List.replicate 3 0, ∃ result,
      (gapAllocator.run (List.replicate 3 0)).calls d = .returned result := by
    intro d hd
    obtain rfl := List.eq_of_mem_replicate hd
    exact ⟨some 4096, by decide⟩
  have hsecond : ∀ d ∈ List.replicate 3 0 ++ List.replicate 7 1, ∃ result,
      (gapAllocator.run (List.replicate 3 0 ++ List.replicate 7 1)).calls d =
        .returned result := by
    intro d hd
    rcases List.mem_append.mp hd with hd | hd
    · obtain rfl := List.eq_of_mem_replicate hd
      exact ⟨some 4096, by decide⟩
    · obtain rfl := List.eq_of_mem_replicate hd
      exact ⟨some 16384, by decide⟩
  exact along_undisturbed_append (along_undisturbed_append
    (along_undisturbed_replicate (fun d j hd => by cases hd) 3) hfirst 1 7) hsecond 2 3

end AetherOs.Memory.Frames
