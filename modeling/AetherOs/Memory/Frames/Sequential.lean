import AetherOs.Memory.Frames.Invariant
import Mathlib.Data.List.Basic
/-!
# Calls that run alone

A call that is not disturbed needs at most one advance of the range: the next
range is not empty, so its first frame is returned.  `remaining` is the list
of frames still to come, and one call removes its head (`returns_head`).
Nothing here needs the ranges to be disjoint.
-/

namespace AetherOs.Memory.Frames

open AetherOs.Support AetherOs.Support.Word AetherOs.Support.Interleaving

variable {fa : FrameAllocator} {i cur : Nat}

structure Located (fa : FrameAllocator) (i cur : Nat) : Prop where
  lt_count : i < fa.rangeCount
  start_le : fa.start i ≤ cur
  le_stop : cur ≤ fa.stop i
  aligned : frameSize ∣ cur

theorem Located.inRange (ha : fa.Aligned) (h : Located fa i cur) (hlt : cur < fa.stop i) :
    fa.InRange i cur :=
  ⟨h.start_le, ha.add_frameSize_le h.lt_count h.aligned hlt, h.aligned⟩

theorem Located.add_frameSize (ha : fa.Aligned) (h : Located fa i cur)
    (hlt : cur < fa.stop i) : Located fa i (cur + frameSize) :=
  ⟨h.lt_count, h.start_le.trans (Nat.le_add_right _ _), (h.inRange ha hlt).end_le,
    Nat.dvd_add_self_right.mpr h.aligned⟩

theorem located_start (ha : fa.Aligned) (hi : i < fa.rangeCount) :
    Located fa i (fa.start i) :=
  ⟨hi, le_refl _, (ha.nonempty i hi).le, ha.start_dvd i hi⟩

theorem inRange_start (ha : fa.Aligned) (hi : i < fa.rangeCount) :
    fa.InRange i (fa.start i) :=
  (located_start ha hi).inRange ha (ha.nonempty i hi)

/-! ## Steps of a lone call -/

theorem advance_loadRange (hi : i < fa.rangeCount) :
    advance (next fa) (⟨i, cur⟩, .loadRange) = (⟨i, cur⟩, .loadFrame i) := by
  simp only [advance, next]
  rw [if_neg (by omega)]
  rfl

theorem advance_loadFrame_inRange (ha : fa.Aligned) (hi : i < fa.rangeCount) {k : Nat}
    (h : fa.InRange i cur) :
    advance (next fa) (⟨k, cur⟩, .loadFrame i) =
      (⟨k, cur⟩, .exchangeFrame cur (cur + frameSize)) := by
  obtain ⟨range, hget, hstart, hstop⟩ := ha.getElem? hi
  have hle := h.start_le
  have hend := h.end_le
  have hpos : 0 < frameSize := by decide
  have hlimit := fa.stop_lt_wordLimit i
  simp only [advance, next, hget, afterLoadFrame, hstart, hstop, Option.getD_some]
  rw [if_neg (by omega), add_of_lt (by omega)]
  simp only
  rw [if_neg (by omega)]

theorem advance_loadFrame_outside (ha : fa.Aligned) (hi : i < fa.rangeCount) {k : Nat}
    (h : cur < fa.start i ∨ fa.stop i ≤ cur) :
    advance (next fa) (⟨k, cur⟩, .loadFrame i) =
      (⟨k, cur⟩, .advanceRange i .outsideRange) := by
  obtain ⟨range, hget, hstart, hstop⟩ := ha.getElem? hi
  simp only [advance, next, hget, afterLoadFrame, hstart, hstop, Option.getD_some]
  rw [if_pos h]

theorem advance_storeFrame (ha : fa.Aligned) {k : Nat} (hi : i < fa.rangeCount) :
    advance (next fa) (⟨k, cur⟩, .storeFrame i) = (⟨k, fa.start i⟩, .loadRange) := by
  obtain ⟨range, hget, hstart, -⟩ := ha.getElem? hi
  simp only [advance, next, hget, hstart, Option.getD_some]

theorem solo_claim (ha : fa.Aligned) (hi : i < fa.rangeCount) (h : fa.InRange i cur) :
    solo (next fa) 3 (⟨i, cur⟩, .loadRange) =
      (⟨i, cur + frameSize⟩, .returned (some cur)) := by
  rw [solo_succ, advance_loadRange hi, solo_succ, advance_loadFrame_inRange ha hi h,
    solo_succ, solo_zero]
  simp [advance, next]

theorem solo_advance_pending (ha : fa.Aligned) (hi : i + 1 < fa.rangeCount)
    (h : cur < fa.start i ∨ fa.stop i ≤ cur) :
    solo (next fa) 3 (⟨i, cur⟩, .loadRange) = (⟨i + 1, cur⟩, .storeFrame (i + 1)) := by
  rw [solo_succ, advance_loadRange (by omega), solo_succ,
    advance_loadFrame_outside ha (by omega) h, solo_succ, solo_zero]
  simp only [advance, next]
  rw [if_neg (by omega), if_pos trivial, Option.getD_some]

theorem solo_advance (ha : fa.Aligned) (hi : i + 1 < fa.rangeCount)
    (h : cur < fa.start i ∨ fa.stop i ≤ cur) :
    solo (next fa) 4 (⟨i, cur⟩, .loadRange) = (⟨i + 1, fa.start (i + 1)⟩, .loadRange) := by
  rw [show 4 = 1 + 3 by rfl, solo_add, solo_advance_pending ha hi h, solo_succ, solo_zero,
    advance_storeFrame ha hi]

theorem solo_last (ha : fa.Aligned) (hi : i + 1 = fa.rangeCount)
    (h : cur < fa.start i ∨ fa.stop i ≤ cur) :
    solo (next fa) 3 (⟨i, cur⟩, .loadRange) = (⟨fa.rangeCount, cur⟩, .returned none) := by
  rw [solo_succ, advance_loadRange (by omega), solo_succ,
    advance_loadFrame_outside ha (by omega) h, solo_succ, solo_zero]
  simp [advance, next, hi, Site.resultOnFailure]

theorem solo_exhausted (hi : fa.rangeCount ≤ i) :
    solo (next fa) 1 (⟨i, cur⟩, .loadRange) = (⟨i, cur⟩, .returned none) := by
  rw [solo_succ, solo_zero]
  simp [advance, next, hi]

/-! ## Successive calls -/

/-- `allocate_frame`, called when no other call runs, returns `result`. -/
def Returns (fa : FrameAllocator) (cells : Cells) (result : Option Nat)
    (cells' : Cells) : Prop :=
  ∃ n, solo (next fa) n (cells, .loadRange) = (cells', .returned result)

inductive Successive (fa : FrameAllocator) : Cells → List (Option Nat) → Cells → Prop
  | nil (cells : Cells) : Successive fa cells [] cells
  | cons {cells mid cells' : Cells} {result : Option Nat} {results : List (Option Nat)}
      (first : Returns fa cells result mid) (rest : Successive fa mid results cells') :
      Successive fa cells (result :: results) cells'

theorem Returns.unique {cells mid mid' : Cells} {r r' : Option Nat}
    (h : Returns fa cells r mid) (h' : Returns fa cells r' mid') : r = r' ∧ mid = mid' := by
  obtain ⟨m, hm⟩ := h
  obtain ⟨n, hn⟩ := h'
  have heq := solo_unique hm hn rfl rfl
  cases heq
  exact ⟨rfl, rfl⟩

theorem Successive.unique {cells cells₁ cells₂ : Cells} {rs rs' : List (Option Nat)}
    (h : Successive fa cells rs cells₁) (h' : Successive fa cells rs' cells₂)
    (hlen : rs.length = rs'.length) : rs = rs' := by
  induction h generalizing rs' with
  | nil => exact (List.length_eq_zero_iff.mp hlen.symm).symm
  | cons first _ ih =>
      cases h' with
      | nil => simp at hlen
      | cons first' rest' =>
          obtain ⟨rfl, rfl⟩ := first.unique first'
          rw [ih rest' (by simpa using hlen)]

def framesBetween (a b : Nat) : List Nat :=
  (List.range ((b - a) / frameSize)).map (a + · * frameSize)

def framesFrom (fa : FrameAllocator) (i : Nat) : List Nat :=
  (List.range' i (fa.rangeCount - i)).flatMap fun k => framesBetween (fa.start k) (fa.stop k)

def remaining (fa : FrameAllocator) (cells : Cells) : List Nat :=
  if cells.currentRange < fa.rangeCount then
    framesBetween cells.currentFrame (fa.stop cells.currentRange) ++
      framesFrom fa (cells.currentRange + 1)
  else []

@[simp] theorem framesBetween_self (a : Nat) : framesBetween a a = [] := by
  simp [framesBetween]

theorem framesBetween_cons {a b : Nat} (h : a + frameSize ≤ b) :
    framesBetween a b = a :: framesBetween (a + frameSize) b := by
  have hpos : 0 < frameSize := by decide
  have hdiv : (b - a) / frameSize = (b - (a + frameSize)) / frameSize + 1 := by
    rw [show b - a = b - (a + frameSize) + frameSize by omega,
      Nat.add_div_right _ hpos]
  unfold framesBetween
  rw [hdiv, List.range_succ_eq_map, List.map_cons, List.map_map]
  simp only [Nat.zero_mul, Nat.add_zero, List.cons.injEq, true_and]
  apply List.map_congr_left
  intro k _
  simp only [Function.comp_apply, Nat.succ_mul]
  omega

theorem framesFrom_of_lt (hi : i < fa.rangeCount) :
    framesFrom fa i = framesBetween (fa.start i) (fa.stop i) ++ framesFrom fa (i + 1) := by
  unfold framesFrom
  rw [show fa.rangeCount - i = fa.rangeCount - (i + 1) + 1 by omega, List.range'_succ,
    List.flatMap_cons]

theorem framesFrom_of_ge (hi : fa.rangeCount ≤ i) : framesFrom fa i = [] := by
  unfold framesFrom
  rw [Nat.sub_eq_zero_of_le hi]
  rfl

def Ready (fa : FrameAllocator) (cells : Cells) : Prop :=
  fa.rangeCount ≤ cells.currentRange ∨ Located fa cells.currentRange cells.currentFrame

theorem remaining_exhausted (h : fa.rangeCount ≤ i) : remaining fa ⟨i, cur⟩ = [] := by
  unfold remaining
  rw [if_neg (by simpa using h)]

theorem remaining_located (h : Located fa i cur) :
    remaining fa ⟨i, cur⟩ = framesBetween cur (fa.stop i) ++ framesFrom fa (i + 1) := by
  unfold remaining
  rw [if_pos h.lt_count]

theorem remaining_inRange (h : Located fa i cur) (hin : fa.InRange i cur)
    (hnext : Located fa i (cur + frameSize)) :
    remaining fa ⟨i, cur⟩ = cur :: remaining fa ⟨i, cur + frameSize⟩ := by
  rw [remaining_located h, remaining_located hnext, framesBetween_cons hin.end_le,
    List.cons_append]

/-- One call returns the first of the remaining frames and leaves the others. -/
theorem returns_head (ha : fa.Aligned) {cells : Cells} (h : Ready fa cells) :
    ∃ cells', Returns fa cells (remaining fa cells).head? cells' ∧ Ready fa cells' ∧
      remaining fa cells' = (remaining fa cells).tail := by
  obtain ⟨i, cur⟩ := cells
  rcases h with hdone | hloc
  · have hdone' : fa.rangeCount ≤ i := hdone
    rw [remaining_exhausted hdone']
    exact ⟨⟨i, cur⟩, ⟨1, solo_exhausted hdone'⟩, Or.inl hdone', remaining_exhausted hdone'⟩
  · have hloc' : Located fa i cur := hloc
    have hi := hloc'.lt_count
    by_cases hlt : cur < fa.stop i
    · have hin := hloc'.inRange ha hlt
      have hnext := hloc'.add_frameSize ha hlt
      rw [remaining_inRange hloc' hin hnext]
      exact ⟨_, ⟨3, solo_claim ha hi hin⟩, Or.inr hnext, rfl⟩
    · have hcur : cur = fa.stop i := le_antisymm hloc'.le_stop (by omega)
      subst hcur
      rw [remaining_located hloc', framesBetween_self, List.nil_append]
      by_cases hlast : i + 1 < fa.rangeCount
      · -- the next range is not empty, so its first frame is returned
        have hstart := located_start ha hlast
        have hin := inRange_start ha hlast
        have hnext := hstart.add_frameSize ha (ha.nonempty _ hlast)
        have hrem : framesFrom fa (i + 1) =
            fa.start (i + 1) :: remaining fa ⟨i + 1, fa.start (i + 1) + frameSize⟩ := by
          rw [← remaining_inRange hstart hin hnext, remaining_located hstart,
            framesFrom_of_lt hlast]
        rw [hrem]
        refine ⟨_, ⟨3 + 4, ?_⟩, Or.inr hnext, rfl⟩
        rw [solo_add, solo_advance ha hlast (Or.inr (le_refl _)), solo_claim ha hlast hin]
        rfl
      · rw [framesFrom_of_ge (by omega)]
        refine ⟨_, ⟨3, solo_last ha (by omega) (Or.inr (le_refl _))⟩, Or.inl (le_refl _), ?_⟩
        exact remaining_exhausted (le_refl _)

/-- Call number `k` of a row of calls returns entry `k` of the remaining
frames, and `None` once the list is used up. -/
theorem successive_remaining (ha : fa.Aligned) {cells : Cells} (h : Ready fa cells) (n : Nat) :
    ∃ cells', Successive fa cells ((List.range n).map fun k => (remaining fa cells)[k]?)
      cells' := by
  induction n generalizing cells with
  | zero => exact ⟨cells, .nil cells⟩
  | succ n ih =>
      obtain ⟨mid, hret, hready, htail⟩ := returns_head ha h
      obtain ⟨cells', hrest⟩ := ih hready
      refine ⟨cells', ?_⟩
      rw [List.range_succ_eq_map, List.map_cons, List.map_map]
      have hhead : (remaining fa cells)[0]? = (remaining fa cells).head? :=
        List.head?_eq_getElem?.symm
      rw [hhead]
      refine .cons hret ?_
      rw [htail] at hrest
      simpa [Function.comp_def] using hrest

theorem ready_initial (ha : fa.Aligned) : Ready fa fa.initialCells := by
  by_cases hcount : 0 < fa.rangeCount
  · right
    rw [FrameAllocator.initialCells_currentFrame hcount]
    exact located_start ha hcount
  · exact Or.inl (Nat.not_lt.mp hcount)

theorem remaining_initial : remaining fa fa.initialCells = framesFrom fa 0 := by
  by_cases hcount : 0 < fa.rangeCount
  · rw [framesFrom_of_lt hcount]
    simp [remaining, FrameAllocator.initialCells, hcount]
  · rw [framesFrom_of_ge (by omega)]
    exact remaining_exhausted (by omega)

end AetherOs.Memory.Frames
