import AetherOs.Boot.BootInfo
import AetherOs.Support.Interleaving
/-!
# The physical frame allocator

`kernel/src/memory/frame_allocator.rs`.  A `FrameAllocator` is a fixed table of
usable ranges and two atomic cells, `current_range` and `current_frame`.  One
call of `allocate_frame` is a loop over atomic loads, stores and exchanges of
these cells; `next` performs one of them together with the local computation
that follows it, so that interleavings of `next` are the sequentially
consistent interleavings of the calls.  `advance_range` is two atomic steps:
the exchange of the index and, later, the store of the cursor.
-/

namespace AetherOs.Memory.Frames

open AetherOs.Support AetherOs.Support.Word AetherOs.Boot

def frameSize : Nat := 4096

def maxUsableRanges : Nat := 32

structure UsableFrameRange where
  start : UInt64
  stop : UInt64
  deriving DecidableEq, Repr

def UsableFrameRange.empty : UsableFrameRange := ⟨0, 0⟩

/-- The part of the allocator that no call changes. -/
structure FrameAllocator where
  ranges : Vector UsableFrameRange maxUsableRanges
  rangeCount : Nat
  deriving DecidableEq

structure Cells where
  currentRange : Nat
  currentFrame : Nat
  deriving DecidableEq, Repr

def FrameAllocator.start (fa : FrameAllocator) (i : Nat) : Nat :=
  (fa.ranges[i]?.getD .empty).start.toNat

def FrameAllocator.stop (fa : FrameAllocator) (i : Nat) : Nat :=
  (fa.ranges[i]?.getD .empty).stop.toNat

def FrameAllocator.initialCells (fa : FrameAllocator) : Cells :=
  ⟨0, if 0 < fa.rangeCount then fa.start 0 else 0⟩

/-! ## `allocate_frame` -/

/-- The two places of `allocate_frame` that call `advance_range`. -/
inductive Site where
  | outsideRange
  | partialFrame (current : Nat) (range : UsableFrameRange)
  deriving DecidableEq, Repr

/-- What `allocate_frame` returns when `advance_range` returns false. -/
def Site.resultOnFailure : Site → Option Nat
  | .outsideRange => none
  | .partialFrame current range =>
      if current + frameSize ≤ range.stop.toNat then some current else none

/-- Where a call of `allocate_frame` stands: before its next atomic step, or ended. -/
inductive Pc where
  | loadRange
  | loadFrame (rangeIndex : Nat)
  | advanceRange (rangeIndex : Nat) (site : Site)
  | storeFrame (nextRange : Nat)
  | exchangeFrame (current following : Nat)
  | returned (result : Option Nat)
  | panicked (reason : Panic)
  deriving DecidableEq, Repr

/-- The loop body between the load of `current_frame` and the next atomic step. -/
def afterLoadFrame (rangeIndex : Nat) (range : UsableFrameRange) (current : Nat) : Pc :=
  if current < range.start.toNat ∨ range.stop.toNat ≤ current then
    .advanceRange rangeIndex .outsideRange
  else
    match add current frameSize with
    | .error reason => .panicked reason
    | .ok following =>
        if range.stop.toNat < following then
          .advanceRange rangeIndex (.partialFrame current range)
        else
          .exchangeFrame current following

def next (fa : FrameAllocator) (cells : Cells) : Pc → Option (Cells × Pc)
  | .loadRange =>
      if fa.rangeCount ≤ cells.currentRange then
        some (cells, .returned none)
      else
        some (cells, .loadFrame cells.currentRange)
  | .loadFrame rangeIndex =>
      match fa.ranges[rangeIndex]? with
      | none => some (cells, .panicked .outOfBounds)
      | some range => some (cells, afterLoadFrame rangeIndex range cells.currentFrame)
  | .advanceRange rangeIndex site =>
      if fa.rangeCount ≤ rangeIndex + 1 then
        some ({ cells with currentRange := fa.rangeCount }, .returned site.resultOnFailure)
      else if cells.currentRange = rangeIndex then
        some ({ cells with currentRange := rangeIndex + 1 }, .storeFrame (rangeIndex + 1))
      else
        some (cells, .loadRange)
  | .storeFrame nextRange =>
      match fa.ranges[nextRange]? with
      | none => some (cells, .panicked .outOfBounds)
      | some range => some ({ cells with currentFrame := range.start.toNat }, .loadRange)
  | .exchangeFrame current following =>
      if cells.currentFrame = current then
        some ({ cells with currentFrame := following }, .returned (some current))
      else
        some (cells, .loadRange)
  | .returned _ => none
  | .panicked _ => none

abbrev Config := Interleaving.Config Cells Pc

def FrameAllocator.initial (fa : FrameAllocator) : Config :=
  ⟨fa.initialCells, fun _ => .loadRange⟩

def FrameAllocator.run (fa : FrameAllocator) (schedule : List Nat) : Config :=
  Runs.exec (Interleaving.step (next fa)) fa.initial schedule

/-! ## Ranges as intervals -/

structure FrameAllocator.InRange (fa : FrameAllocator) (i frame : Nat) : Prop where
  start_le : fa.start i ≤ frame
  end_le : frame + frameSize ≤ fa.stop i
  aligned : frameSize ∣ frame

structure FrameAllocator.Aligned (fa : FrameAllocator) : Prop where
  count_le : fa.rangeCount ≤ maxUsableRanges
  nonempty : ∀ i < fa.rangeCount, fa.start i < fa.stop i
  start_dvd : ∀ i < fa.rangeCount, frameSize ∣ fa.start i
  stop_dvd : ∀ i < fa.rangeCount, frameSize ∣ fa.stop i

def FrameAllocator.Disjoint (fa : FrameAllocator) : Prop :=
  ∀ i < fa.rangeCount, ∀ j < fa.rangeCount, i ≠ j →
    fa.stop i ≤ fa.start j ∨ fa.stop j ≤ fa.start i

namespace FrameAllocator

variable {fa : FrameAllocator}

theorem Aligned.getElem? (h : fa.Aligned) {i : Nat} (hi : i < fa.rangeCount) :
    ∃ range, fa.ranges[i]? = some range ∧
      range.start.toNat = fa.start i ∧ range.stop.toNat = fa.stop i := by
  have hbound : i < maxUsableRanges := lt_of_lt_of_le hi h.count_le
  refine ⟨fa.ranges[i], Vector.getElem?_eq_getElem hbound, ?_, ?_⟩ <;>
    simp [start, stop, Vector.getElem?_eq_getElem hbound]

theorem stop_lt_wordLimit (fa : FrameAllocator) (i : Nat) : fa.stop i < wordLimit :=
  UInt64.toNat_lt _

theorem initialCells_currentFrame (hcount : 0 < fa.rangeCount) :
    fa.initialCells.currentFrame = fa.start 0 := by
  simp [initialCells, hcount]

theorem Aligned.add_frameSize_le (h : fa.Aligned) {i frame : Nat} (hi : i < fa.rangeCount)
    (hdvd : frameSize ∣ frame) (hlt : frame < fa.stop i) :
    frame + frameSize ≤ fa.stop i :=
  add_le_of_dvd_of_lt hdvd (h.stop_dvd i hi) hlt

theorem Disjoint.eq_of_inRange (h : fa.Disjoint) {i j frame : Nat}
    (hi : i < fa.rangeCount) (hj : j < fa.rangeCount)
    (hin : fa.InRange i frame) (hjn : fa.InRange j frame) : i = j := by
  by_contra hne
  have hpos : 0 < frameSize := by decide
  have := hin.start_le
  have := hin.end_le
  have := hjn.start_le
  have := hjn.end_le
  rcases h i hi j hj hne with hle | hle <;> omega

end FrameAllocator

end AetherOs.Memory.Frames
