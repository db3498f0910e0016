import AetherOs.Memory.Frames.Sequential
/-!
# Building the allocator from the memory map

`initialize` walks over the boot regions, keeps the usable ones that contain a
whole frame, and records the first 32 of them; the frames of every kept region
are counted.  `kept` is the list of kept regions, and `initializeAllocator_spec` says
what the loop leaves in the table and in the counter.
-/

namespace AetherOs.Memory.Frames

open AetherOs.Support AetherOs.Support.Word AetherOs.Boot

def alignUp (value align : Nat) : Checked Nat :=
  if value % align = 0 then .ok value else add value (align - value % align)

def alignDown (value align : Nat) : Nat :=
  value - value % align

structure Setup where
  ranges : Vector UsableFrameRange maxUsableRanges
  rangeCount : Nat
  totalFrames : Nat
  deriving DecidableEq

def Setup.empty : Setup := ⟨Vector.replicate maxUsableRanges .empty, 0, 0⟩

def Setup.record (setup : Setup) (start stop : Nat) : Setup :=
  if h : setup.rangeCount < maxUsableRanges then
    { setup with
      ranges := setup.ranges.set setup.rangeCount ⟨UInt64.ofNat start, UInt64.ofNat stop⟩ h
      rangeCount := setup.rangeCount + 1 }
  else setup

def visitRegion (setup : Setup) (region : MemoryRegion) : Checked Setup :=
  if region.kind ≠ .usable ∨ region.length.toNat < frameSize then
    .ok setup
  else
    match alignUp region.base.toNat frameSize with
    | .error reason => .error reason
    | .ok alignedStart =>
        let alignedEnd := alignDown region.endAddr frameSize
        if alignedEnd ≤ alignedStart then
          .ok setup
        else
          match add setup.totalFrames ((alignedEnd - alignedStart) / frameSize) with
          | .error reason => .error reason
          | .ok totalFrames =>
              .ok { setup.record alignedStart alignedEnd with totalFrames := totalFrames }

/-- `initialize`: the table and the counters it leaves in the statics. -/
def initializeAllocator (bootInfo : BootInfo) : Checked Setup :=
  bootInfo.regions.foldlM visitRegion Setup.empty

def Setup.allocator (setup : Setup) : FrameAllocator :=
  ⟨setup.ranges, setup.rangeCount⟩

def Setup.usableFrameCount (setup : Setup) : Nat := setup.totalFrames

/-! ## Frames of an interval -/

/-- The frame aligned frames that lie in `[base, stop)`, in increasing order. -/
def wholeFrames (base stop : Nat) : List Nat :=
  ((List.range (stop / frameSize)).map (· * frameSize)).filter (base ≤ ·)

theorem mem_wholeFrames {base stop frame : Nat} :
    frame ∈ wholeFrames base stop ↔
      frameSize ∣ frame ∧ base ≤ frame ∧ frame + frameSize ≤ stop := by
  have hpos : 0 < frameSize := by decide
  simp only [wholeFrames, List.mem_filter, List.mem_map, List.mem_range, decide_eq_true_eq]
  constructor
  · rintro ⟨⟨k, hk, rfl⟩, hbase⟩
    refine ⟨Nat.dvd_mul_left _ _, hbase, ?_⟩
    rw [Nat.lt_div_iff_mul_lt hpos] at hk
    have hlt : k < stop / frameSize := (Nat.lt_div_iff_mul_lt hpos).mpr hk
    calc k * frameSize + frameSize = (k + 1) * frameSize := by ring
      _ ≤ stop / frameSize * frameSize := Nat.mul_le_mul_right _ hlt
      _ ≤ stop := Nat.div_mul_le_self _ _
  · rintro ⟨⟨k, rfl⟩, hbase, hend⟩
    refine ⟨⟨k, ?_, Nat.mul_comm _ _⟩, hbase⟩
    have : (k + 1) * frameSize ≤ stop := by
      calc (k + 1) * frameSize = frameSize * k + frameSize := by ring
        _ ≤ stop := hend
    exact (Nat.le_div_iff_mul_le hpos).mpr this

def roundUp (value : Nat) : Nat := (value + (frameSize - 1)) / frameSize * frameSize

theorem alignUp_eq_ok {value aligned : Nat} (h : alignUp value frameSize = .ok aligned) :
    aligned = roundUp value := by
  unfold alignUp at h
  unfold roundUp
  split_ifs at h with hmod
  · cases h
    simp only [frameSize] at *
    omega
  · obtain ⟨rfl, -⟩ := add_eq_ok h
    simp only [frameSize] at *
    omega

theorem filter_le_range (p q : Nat) :
    (List.range q).filter (p ≤ ·) = (List.range (q - p)).map (p + ·) := by
  induction q with
  | zero => simp
  | succ q ih =>
      rw [List.range_succ, List.filter_append, ih]
      by_cases hle : p ≤ q
      · rw [show q + 1 - p = q - p + 1 by omega, List.range_succ, List.map_append]
        simp [hle]
      · simp [hle, show q + 1 - p = q - p by omega]

theorem framesBetween_eq_wholeFrames (base stop : Nat) :
    framesBetween (roundUp base) (alignDown stop frameSize) = wholeFrames base stop := by
  have hpos : 0 < frameSize := by decide
  set p := (base + (frameSize - 1)) / frameSize with hp
  set q := stop / frameSize with hq
  have hfirst : ∀ k, base ≤ k * frameSize ↔ p ≤ k := by
    intro k
    rw [hp, Nat.div_le_iff_le_mul_add_pred hpos, Nat.mul_comm frameSize k]
    omega
  have hcount : (alignDown stop frameSize - roundUp base) / frameSize = q - p := by
    rw [alignDown, sub_mod_eq_div_mul, roundUp, ← hp, ← hq, ← Nat.sub_mul,
      Nat.mul_div_cancel _ hpos]
  have hfilter : (List.range q).filter ((fun x => decide (base ≤ x)) ∘ (· * frameSize)) =
      (List.range (q - p)).map (p + ·) := by
    rw [← filter_le_range]
    apply List.filter_congr
    intro k _
    simp [hfirst k]
  unfold framesBetween wholeFrames
  rw [hcount, List.filter_map, hfilter, List.map_map]
  apply List.map_congr_left
  intro k _
  rw [roundUp, ← hp]
  simp only [Function.comp_apply]
  ring

/-! ## What the loop leaves behind -/

def regionFrames (region : MemoryRegion) : List Nat :=
  wholeFrames region.base.toNat region.endAddr

/-- The regions whose frames `initialize` counts. -/
def keeps (region : MemoryRegion) : Bool :=
  region.kind = .usable && frameSize ≤ region.length.toNat && !(regionFrames region).isEmpty

def Setup.keep (setup : Setup) (region : MemoryRegion) : Setup :=
  { setup.record (roundUp region.base.toNat) (alignDown region.endAddr frameSize) with
    totalFrames := setup.totalFrames + (regionFrames region).length }

theorem length_regionFrames (region : MemoryRegion) :
    (regionFrames region).length =
      (alignDown region.endAddr frameSize - roundUp region.base.toNat) / frameSize := by
  rw [regionFrames, ← framesBetween_eq_wholeFrames, framesBetween]
  simp

theorem roundUp_dvd (value : Nat) : frameSize ∣ roundUp value := Nat.dvd_mul_left _ _

theorem alignDown_dvd (value : Nat) : frameSize ∣ alignDown value frameSize := by
  rw [alignDown, sub_mod_eq_div_mul]
  exact Nat.dvd_mul_left _ _

theorem regionFrames_eq_nil_iff (region : MemoryRegion) :
    regionFrames region = [] ↔
      alignDown region.endAddr frameSize ≤ roundUp region.base.toNat := by
  have hpos : 0 < frameSize := by decide
  rw [← List.length_eq_zero_iff, length_regionFrames, Nat.div_eq_zero_iff_lt hpos]
  constructor
  · intro hlt
    by_contra hgt
    have := add_le_of_dvd_of_lt (roundUp_dvd region.base.toNat)
      (alignDown_dvd region.endAddr) (Nat.lt_of_not_le hgt)
    omega
  · intro hle
    omega

theorem endAddr_lt (region : MemoryRegion) : region.endAddr < wordLimit := by
  unfold MemoryRegion.endAddr saturatingAdd
  have hpos : 0 < wordLimit := by decide
  omega

theorem alignDown_le (value : Nat) : alignDown value frameSize ≤ value := Nat.sub_le _ _

/-- The ranges recorded for the kept regions fit a word and are in order. -/
theorem roundUp_lt_alignDown_of_keeps {region : MemoryRegion} (h : keeps region = true) :
    roundUp region.base.toNat < alignDown region.endAddr frameSize := by
  simp only [keeps, Bool.and_eq_true, Bool.not_eq_true', List.isEmpty_eq_false_iff] at h
  have hne := mt (regionFrames_eq_nil_iff region).mpr h.2
  omega

theorem visitRegion_eq_ok {setup setup' : Setup} {region : MemoryRegion}
    (h : visitRegion setup region = .ok setup') :
    setup' = if keeps region then setup.keep region else setup := by
  unfold visitRegion at h
  split_ifs at h with hskip
  · cases h
    have hkeeps : keeps region = false := by
      rcases hskip with hkind | hlen
      · simp [keeps, hkind]
      · simp [keeps, Nat.not_le.mpr hlen]
    rw [hkeeps]
    rfl
  · rw [not_or, not_not, Nat.not_lt] at hskip
    split at h
    · cases h
    · rename_i alignedStart hup
      have hstart := alignUp_eq_ok hup
      subst hstart
      simp only at h
      split_ifs at h with hempty
      · cases h
        have hkeeps : keeps region = false := by
          simp [keeps, (regionFrames_eq_nil_iff region).mpr hempty]
        rw [hkeeps]
        rfl
      · have hkeeps : keeps region = true := by
          have hne := mt (regionFrames_eq_nil_iff region).mp hempty
          simp [keeps, hskip.1, hskip.2, hne]
        rw [hkeeps, if_pos rfl]
        split at h
        · cases h
        · rename_i total htotal
          obtain ⟨rfl, -⟩ := add_eq_ok htotal
          cases h
          rw [Setup.keep, length_regionFrames]

theorem foldlM_visitRegion_eq_ok {regions : List MemoryRegion} {setup setup' : Setup}
    (h : regions.foldlM visitRegion setup = .ok setup') :
    setup' = (regions.filter keeps).foldl Setup.keep setup := by
  induction regions generalizing setup with
  | nil =>
      cases h
      rfl
  | cons region regions ih =>
      rw [List.foldlM_cons] at h
      cases hv : visitRegion setup region with
      | error reason =>
          rw [hv] at h
          cases h
      | ok mid =>
          rw [hv] at h
          have hmid := visitRegion_eq_ok hv
          rw [ih h, List.filter_cons, hmid]
          split_ifs <;> rfl

structure Recorded (setup : Setup) (ks : List MemoryRegion) : Prop where
  count : setup.rangeCount = min ks.length maxUsableRanges
  start : ∀ i < setup.rangeCount, setup.allocator.start i = roundUp (ks.getD i .empty).base.toNat
  stop : ∀ i < setup.rangeCount,
    setup.allocator.stop i = alignDown (ks.getD i .empty).endAddr frameSize
  total : setup.totalFrames = (ks.flatMap regionFrames).length

variable {setup : Setup} {ks : List MemoryRegion}

theorem recorded_empty : Recorded Setup.empty [] :=
  ⟨rfl, fun i hi => absurd hi (Nat.not_lt_zero i), fun i hi => absurd hi (Nat.not_lt_zero i), rfl⟩

theorem toNat_ofNat_of_lt {value : Nat} (h : value < wordLimit) :
    (UInt64.ofNat value).toNat = value :=
  UInt64.toNat_ofNat_of_lt' h

theorem Recorded.total_keep (h : Recorded setup ks) (region : MemoryRegion) :
    (setup.keep region).totalFrames = ((ks ++ [region]).flatMap regionFrames).length := by
  rw [List.flatMap_append, List.length_append, ← h.total, List.flatMap_singleton]
  rfl

/-- The region gets the next slot, and the slots before it are kept. -/
theorem Recorded.keep_of_lt (h : Recorded setup ks) {region : MemoryRegion}
    (hkeeps : keeps region = true) (hroom : setup.rangeCount < maxUsableRanges) :
    Recorded (setup.keep region) (ks ++ [region]) := by
  have hlt := roundUp_lt_alignDown_of_keeps hkeeps
  have hstop : alignDown region.endAddr frameSize < wordLimit :=
    lt_of_le_of_lt (alignDown_le _) (endAddr_lt region)
  have hcount := h.count
  have hlen : setup.rangeCount = ks.length := by omega
  have hset : (setup.keep region).allocator = ⟨setup.ranges.set setup.rangeCount
      ⟨UInt64.ofNat (roundUp region.base.toNat),
        UInt64.ofNat (alignDown region.endAddr frameSize)⟩ hroom,
      setup.rangeCount + 1⟩ := by
    simp [Setup.keep, Setup.record, Setup.allocator, hroom]
  have hnew : (ks ++ [region]).getD setup.rangeCount .empty = region := by
    rw [hlen, List.getD_eq_getElem?_getD, List.getElem?_concat_length, Option.getD_some]
  have hrange : (setup.keep region).rangeCount = setup.rangeCount + 1 :=
    congrArg FrameAllocator.rangeCount hset
  refine ⟨?_, fun i hi => ?_, fun i hi => ?_, h.total_keep region⟩
  · rw [hrange, List.length_append, List.length_singleton]
    omega
  · rw [hrange] at hi
    rw [hset]
    rcases Nat.lt_succ_iff_lt_or_eq.mp hi with hi | rfl
    · rw [List.getD_append ks _ _ i (by omega), ← h.start i hi]
      simp [FrameAllocator.start, Setup.allocator, show setup.rangeCount ≠ i by omega]
    · rw [hnew]
      simp only [FrameAllocator.start, Vector.getElem?_set_self, Option.getD_some]
      exact toNat_ofNat_of_lt (by omega)
  · rw [hrange] at hi
    rw [hset]
    rcases Nat.lt_succ_iff_lt_or_eq.mp hi with hi | rfl
    · rw [List.getD_append ks _ _ i (by omega), ← h.stop i hi]
      simp [FrameAllocator.stop, Setup.allocator, show setup.rangeCount ≠ i by omega]
    · rw [hnew]
      simp only [FrameAllocator.stop, Vector.getElem?_set_self, Option.getD_some]
      exact toNat_ofNat_of_lt hstop

/-- The table is full, and only the frames are counted. -/
theorem Recorded.keep_of_full (h : Recorded setup ks) {region : MemoryRegion}
    (hfull : ¬ setup.rangeCount < maxUsableRanges) :
    Recorded (setup.keep region) (ks ++ [region]) := by
  have hcount := h.count
  have hsame : (setup.keep region).allocator = setup.allocator := by
    simp [Setup.keep, Setup.record, Setup.allocator, hfull]
  have hrange : (setup.keep region).rangeCount = setup.rangeCount :=
    congrArg FrameAllocator.rangeCount hsame
  refine ⟨?_, fun i hi => ?_, fun i hi => ?_, h.total_keep region⟩
  · rw [hrange, List.length_append]
    omega
  · rw [hrange] at hi
    rw [hsame, List.getD_append ks _ _ i (by omega), h.start i hi]
  · rw [hrange] at hi
    rw [hsame, List.getD_append ks _ _ i (by omega), h.stop i hi]

theorem Recorded.keep (h : Recorded setup ks) {region : MemoryRegion}
    (hkeeps : keeps region = true) : Recorded (setup.keep region) (ks ++ [region]) := by
  by_cases hroom : setup.rangeCount < maxUsableRanges
  · exact h.keep_of_lt hkeeps hroom
  · exact h.keep_of_full hroom

theorem Recorded.foldl (h : Recorded setup ks) {regions : List MemoryRegion}
    (hkeeps : ∀ region ∈ regions, keeps region = true) :
    Recorded (regions.foldl Setup.keep setup) (ks ++ regions) := by
  induction regions generalizing setup ks with
  | nil => simpa using h
  | cons region regions ih =>
      rw [List.foldl_cons, List.append_cons]
      exact ih (h.keep (hkeeps region (by simp))) (fun r hr => hkeeps r (by simp [hr]))

def kept (bootInfo : BootInfo) : List MemoryRegion := bootInfo.regions.filter keeps

theorem keeps_of_mem_kept {bootInfo : BootInfo} {region : MemoryRegion}
    (h : region ∈ kept bootInfo) : keeps region = true :=
  (List.mem_filter.mp h).2

theorem initializeAllocator_spec {bootInfo : BootInfo}
    (h : initializeAllocator bootInfo = .ok setup) : Recorded setup (kept bootInfo) := by
  rw [foldlM_visitRegion_eq_ok h]
  exact recorded_empty.foldl (fun _ hr => keeps_of_mem_kept hr)

/-! ## The allocator it builds -/

theorem Recorded.getD_mem (h : Recorded setup ks) {i : Nat} (hi : i < setup.rangeCount) :
    ks.getD i .empty ∈ ks := by
  have hcount := h.count
  have hlt : i < ks.length := by omega
  rw [List.getD_eq_getElem?_getD, List.getElem?_eq_getElem hlt, Option.getD_some]
  exact List.getElem_mem hlt

theorem Recorded.aligned (h : Recorded setup ks)
    (hkeeps : ∀ region ∈ ks, keeps region = true) : setup.allocator.Aligned where
  count_le := by
    have hcount := h.count
    change setup.rangeCount ≤ maxUsableRanges
    omega
  nonempty := by
    intro i hi
    rw [h.start i hi, h.stop i hi]
    exact roundUp_lt_alignDown_of_keeps (hkeeps _ (h.getD_mem hi))
  start_dvd := by
    intro i hi
    rw [h.start i hi]
    exact roundUp_dvd _
  stop_dvd := by
    intro i hi
    rw [h.stop i hi]
    exact alignDown_dvd _

theorem flatMap_range_eq {α β : Type} (xs : List α) (default : α) (n : Nat) (f : Nat → List β)
    (g : α → List β) (h : ∀ i < n, f i = g (xs.getD i default)) (hn : n ≤ xs.length) :
    (List.range n).flatMap f = (xs.take n).flatMap g := by
  induction n with
  | zero => simp
  | succ n ih =>
      have hlt : n < xs.length := by omega
      rw [List.range_succ, List.flatMap_append, ih (fun i hi => h i (by omega)) (by omega),
        List.take_succ_eq_append_getElem hlt, List.flatMap_append, List.flatMap_singleton,
        List.flatMap_singleton, h n (by omega), List.getD_eq_getElem?_getD,
        List.getElem?_eq_getElem hlt, Option.getD_some]

/-- The allocator hands out the frames of the first 32 kept regions. -/
theorem Recorded.framesFrom_zero (h : Recorded setup ks) :
    framesFrom setup.allocator 0 = (ks.take maxUsableRanges).flatMap regionFrames := by
  have hcount := h.count
  have htake : ks.take maxUsableRanges = ks.take setup.rangeCount := by
    rw [hcount]
    by_cases hle : ks.length ≤ maxUsableRanges
    · rw [List.take_of_length_le hle, Nat.min_eq_left hle, List.take_length]
    · rw [Nat.min_eq_right (by omega)]
  rw [htake, framesFrom, Nat.sub_zero, ← List.range_eq_range']
  refine flatMap_range_eq ks .empty setup.rangeCount _ _ (fun i hi => ?_) (by omega)
  rw [h.start i hi, h.stop i hi, framesBetween_eq_wholeFrames]
  rfl

end AetherOs.Memory.Frames
