import AetherOs.Memory.Frames.Initialize
/-!
# From the memory map to the frames handed out

Composes `collect_boot_info`, `initialize` and successive calls of
`allocate_frame`.  The calls return, in map order, the whole frames of the
first 32 kept entries, and then `None`.  The counter behind
`usable_frame_count` also counts the kept regions that did not fit into the
table.
-/

namespace AetherOs.Memory.Frames

open AetherOs.Support AetherOs.Support.Word AetherOs.Boot

variable {setup : Setup} {ks : List MemoryRegion}

/-- Successive calls return exactly the list `frames`, then `None` forever. -/
def HandsOut (fa : FrameAllocator) (frames : List Nat) : Prop :=
  ∀ results, (∃ cells', Successive fa fa.initialCells results cells') ↔
    results = (List.range results.length).map (frames[·]?)

theorem handsOut_framesFrom {fa : FrameAllocator} (ha : fa.Aligned) :
    HandsOut fa (framesFrom fa 0) := by
  intro results
  have hall := successive_remaining ha (ready_initial ha)
  rw [remaining_initial] at hall
  constructor
  · rintro ⟨cells', h⟩
    obtain ⟨cells'', h'⟩ := hall results.length
    exact h.unique h' (by simp)
  · intro h
    rw [h]
    simpa using hall results.length

theorem Recorded.handsOut (h : Recorded setup ks)
    (hkeeps : ∀ region ∈ ks, keeps region = true) :
    HandsOut setup.allocator ((ks.take maxUsableRanges).flatMap regionFrames) := by
  rw [← h.framesFrom_zero]
  exact handsOut_framesFrom (h.aligned hkeeps)

/-! ## The partial-frame branch -/

theorem pcSound_site {fa : FrameAllocator} {cells : Cells} {i : Nat} {site : Site}
    (h : PcSound fa cells (.advanceRange i site)) : site = .outsideRange := h.2.2

theorem solo_sound {fa : FrameAllocator} (ha : fa.Aligned) (n : Nat) {cells : Cells} {pc : Pc}
    (hle : cells.currentRange ≤ fa.rangeCount) (hdvd : frameSize ∣ cells.currentFrame)
    (hpc : PcSound fa cells pc) :
    (Interleaving.solo (next fa) n (cells, pc)).1.currentRange ≤ fa.rangeCount ∧
      frameSize ∣ (Interleaving.solo (next fa) n (cells, pc)).1.currentFrame ∧
      PcSound fa (Interleaving.solo (next fa) n (cells, pc)).1
        (Interleaving.solo (next fa) n (cells, pc)).2 := by
  induction n generalizing cells pc with
  | zero => exact ⟨hle, hdvd, hpc⟩
  | succ n ih =>
      rw [Interleaving.solo_succ]
      cases hn : next fa cells pc with
      | none =>
          rw [show Interleaving.advance (next fa) (cells, pc) = (cells, pc) by
            simp [Interleaving.advance, hn]]
          exact ih hle hdvd hpc
      | some x =>
          rw [show Interleaving.advance (next fa) (cells, pc) = (x.1, x.2) by
            simp [Interleaving.advance, hn]]
          have ht : Transition fa cells pc x.1 x.2 := transition_of_next ha hdvd hpc hn
          exact ih (ht.range_mono hle).2 (ht.frame_dvd ha hpc hdvd) (ht.pcSound hpc)

/-- Call after call, the partial-frame branch is not taken. -/
def NeverPartial (fa : FrameAllocator) : Prop :=
  ∀ results cells, Successive fa fa.initialCells results cells →
    ∀ n i current range, (Interleaving.solo (next fa) n (cells, .loadRange)).2 ≠
      .advanceRange i (.partialFrame current range)

theorem Successive.cells_sound {fa : FrameAllocator} (ha : fa.Aligned) {cells cells' : Cells}
    {results : List (Option Nat)} (h : Successive fa cells results cells')
    (hle : cells.currentRange ≤ fa.rangeCount) (hdvd : frameSize ∣ cells.currentFrame) :
    cells'.currentRange ≤ fa.rangeCount ∧ frameSize ∣ cells'.currentFrame := by
  induction h with
  | nil => exact ⟨hle, hdvd⟩
  | cons first _ ih =>
      obtain ⟨n, hn⟩ := first
      have hsound := solo_sound ha n hle hdvd (show PcSound fa _ .loadRange from trivial)
      rw [hn] at hsound
      exact ih hsound.1 hsound.2.1

theorem neverPartial {fa : FrameAllocator} (ha : fa.Aligned) : NeverPartial fa := by
  intro results cells h n i current range hpc
  have hinit := sound_initial ha
  have hcells := h.cells_sound ha hinit.range_le hinit.frame_dvd
  have hsound :=
    (solo_sound ha n hcells.1 hcells.2 (show PcSound fa cells .loadRange from trivial)).2.2
  rw [hpc] at hsound
  cases pcSound_site hsound

/-! ## Overflow

The counter cannot overflow: a region has at most `2 ^ 52` frames and the table
has 64 regions.  So `initialize` panics only in `align_up`.
-/

def frameLimit : Nat := wordLimit / frameSize

theorem visitRegion_isOk {region : MemoryRegion}
    (hfits : region.kind = .usable → frameSize ≤ region.length.toNat →
      ∃ aligned, alignUp region.base.toNat frameSize = .ok aligned)
    (htotal : setup.totalFrames + frameLimit < wordLimit) :
    ∃ setup', visitRegion setup region = .ok setup' ∧
      setup'.totalFrames ≤ setup.totalFrames + frameLimit := by
  unfold visitRegion
  split_ifs with hskip
  · exact ⟨setup, rfl, Nat.le_add_right _ _⟩
  · rw [not_or, not_not, Nat.not_lt] at hskip
    obtain ⟨aligned, hup⟩ := hfits hskip.1 hskip.2
    rw [hup]
    simp only
    split_ifs with hempty
    · exact ⟨setup, rfl, Nat.le_add_right _ _⟩
    · have hend := lt_of_le_of_lt (alignDown_le region.endAddr) (endAddr_lt region)
      have hframes : (alignDown region.endAddr frameSize - aligned) / frameSize ≤ frameLimit :=
        Nat.div_le_div_right (by omega)
      rw [add_of_lt (by omega)]
      exact ⟨_, rfl, by simp only; omega⟩

theorem foldlM_visitRegion_isOk {regions : List MemoryRegion}
    (hfits : ∀ region ∈ regions, region.kind = .usable → frameSize ≤ region.length.toNat →
      ∃ aligned, alignUp region.base.toNat frameSize = .ok aligned)
    (htotal : setup.totalFrames + regions.length * frameLimit < wordLimit) :
    ∃ setup', regions.foldlM visitRegion setup = .ok setup' := by
  induction regions generalizing setup with
  | nil => exact ⟨setup, rfl⟩
  | cons region regions ih =>
      rw [List.length_cons, Nat.succ_mul] at htotal
      have hfirst : setup.totalFrames + frameLimit < wordLimit := by omega
      obtain ⟨mid, hmid, hle⟩ := visitRegion_isOk (hfits region (by simp)) hfirst
      obtain ⟨setup', h⟩ := ih (fun r hr => hfits r (by simp [hr]))
        (show mid.totalFrames + regions.length * frameLimit < wordLimit by omega)
      refine ⟨setup', ?_⟩
      rw [List.foldlM_cons, hmid]
      exact h

/-- `initialize` returns unless some `align_up` overflows. -/
theorem initializeAllocator_isOk {bootInfo : BootInfo}
    (hfits : ∀ region ∈ bootInfo.regions, region.kind = .usable →
      frameSize ≤ region.length.toNat →
      ∃ aligned, alignUp region.base.toNat frameSize = .ok aligned) :
    ∃ setup, initializeAllocator bootInfo = .ok setup := by
  have hlen : bootInfo.regions.length ≤ maxMemoryRegions := by simp [BootInfo.regions]
  refine foldlM_visitRegion_isOk hfits ?_
  calc Setup.empty.totalFrames + bootInfo.regions.length * frameLimit
      ≤ 0 + maxMemoryRegions * frameLimit :=
        Nat.add_le_add_left (Nat.mul_le_mul_right _ hlen) 0
    _ < wordLimit := by decide

/-! ## Successive calls over a memory map -/

/-- The whole frames of an entry; the entry ends at `MemoryRegion::end`. -/
def entryFrames (entry : LimineEntry) : List Nat :=
  wholeFrames entry.base.toNat
    (min (entry.base.toNat + entry.length.toNat) (wordLimit - 1))

def usableEntry (entry : LimineEntry) : Bool :=
  entry.type = 0 && frameSize ≤ entry.length.toNat && !(entryFrames entry).isEmpty

/-- The frames of the first 32 usable entries among the first 64, in map order. -/
def bootFrames (entries : List LimineEntry) : List Nat :=
  (((entries.take maxMemoryRegions).filter usableEntry).take maxUsableRanges).flatMap entryFrames

theorem keeps_toRegion (entry : LimineEntry) : keeps entry.toRegion = usableEntry entry := by
  have hkind : decide (entry.toRegion.kind = .usable) = decide (entry.type = 0) :=
    decide_eq_decide.mpr classifyMemoryRegion_eq_usable
  unfold keeps usableEntry
  rw [hkind]
  rfl

theorem wholeFrames_pairwise (base stop : Nat) : (wholeFrames base stop).Pairwise (· < ·) := by
  unfold wholeFrames
  apply List.Pairwise.filter
  rw [List.pairwise_map]
  refine List.pairwise_lt_range.imp (fun h => ?_)
  exact Nat.mul_lt_mul_of_pos_right h (by decide)

theorem mem_entryFrames {entry : LimineEntry} {frame : Nat} :
    frame ∈ entryFrames entry ↔ frameSize ∣ frame ∧ entry.base.toNat ≤ frame ∧
      frame + frameSize ≤ entry.base.toNat + entry.length.toNat ∧
      frame + frameSize < wordLimit := by
  have hpos : 0 < wordLimit := by decide
  rw [entryFrames, mem_wholeFrames]
  omega

theorem mem_bootFrames {entries : List LimineEntry} {frame : Nat}
    (h : frame ∈ bootFrames entries) :
    ∃ entry ∈ entries, entry.type = 0 ∧ frame ∈ entryFrames entry := by
  obtain ⟨entry, hmem, hframe⟩ := List.mem_flatMap.mp h
  have hfilter := List.mem_filter.mp (List.mem_of_mem_take hmem)
  refine ⟨entry, List.mem_of_mem_take hfilter.1, ?_, hframe⟩
  have husable := hfilter.2
  simp only [usableEntry, Bool.and_eq_true, decide_eq_true_eq] at husable
  exact husable.1.1

theorem kept_collectBootInfo {responses : LimineResponses} {entries : List LimineEntry}
    {bootInfo : BootInfo} (hmap : responses.memoryMap = some entries)
    (hboot : collectBootInfo responses = .ok bootInfo) :
    kept bootInfo =
      ((entries.take maxMemoryRegions).filter usableEntry).map LimineEntry.toRegion := by
  have hkeeps : keeps ∘ LimineEntry.toRegion = usableEntry := funext keeps_toRegion
  rw [kept, regions_collectBootInfo hmap hboot, List.filter_map, hkeeps]

theorem handsOut_bootFrames {responses : LimineResponses} {entries : List LimineEntry}
    {bootInfo : BootInfo} (hmap : responses.memoryMap = some entries)
    (hboot : collectBootInfo responses = .ok bootInfo)
    (h : initializeAllocator bootInfo = .ok setup) :
    HandsOut setup.allocator (bootFrames entries) := by
  have hhands := (initializeAllocator_spec h).handsOut (fun _ hr => keeps_of_mem_kept hr)
  rw [kept_collectBootInfo hmap hboot, ← List.map_take, List.flatMap_map] at hhands
  exact hhands

/-- After `collect_boot_info` and `initialize`, successive calls return the
whole frames of the first 32 usable entries in map order, then `None`. -/
theorem boot_frames_in_map_order {responses : LimineResponses} {entries : List LimineEntry}
    {bootInfo : BootInfo} (hmap : responses.memoryMap = some entries)
    (hboot : collectBootInfo responses = .ok bootInfo)
    (hfits : ∀ entry ∈ entries.take maxMemoryRegions, entry.type = 0 →
      frameSize ≤ entry.length.toNat →
      ∃ aligned, alignUp entry.base.toNat frameSize = .ok aligned) :
    ∃ setup, initializeAllocator bootInfo = .ok setup ∧
      HandsOut setup.allocator (bootFrames entries) ∧ NeverPartial setup.allocator ∧
      (∀ entry, (entryFrames entry).Pairwise (· < ·) ∧
        ∀ frame, frame ∈ entryFrames entry ↔ frameSize ∣ frame ∧ entry.base.toNat ≤ frame ∧
          frame + frameSize ≤ entry.base.toNat + entry.length.toNat ∧
          frame + frameSize < wordLimit) ∧
      ∀ frame ∈ bootFrames entries, ∃ entry ∈ entries, entry.type = 0 ∧
        entry.base.toNat ≤ frame ∧
        frame + frameSize ≤ entry.base.toNat + entry.length.toNat := by
  have hregions := regions_collectBootInfo hmap hboot
  have hok : ∃ setup, initializeAllocator bootInfo = .ok setup := by
    refine initializeAllocator_isOk (fun region hregion hkind hlen => ?_)
    rw [hregions] at hregion
    obtain ⟨entry, hentry, rfl⟩ := List.mem_map.mp hregion
    exact hfits entry hentry (classifyMemoryRegion_eq_usable.mp hkind) hlen
  obtain ⟨setup, h⟩ := hok
  have ha := (initializeAllocator_spec h).aligned (fun _ hr => keeps_of_mem_kept hr)
  refine ⟨setup, h, handsOut_bootFrames hmap hboot h, neverPartial ha,
    fun entry => ⟨wholeFrames_pairwise _ _, fun frame => mem_entryFrames⟩, fun frame hframe => ?_⟩
  obtain ⟨entry, hentry, htype, hmem⟩ := mem_bootFrames hframe
  have hin := mem_entryFrames.mp hmem
  exact ⟨entry, hentry, htype, hin.2.1, hin.2.2.1⟩

/-- Entries out of order: a usable one with a part of a frame at its end, a
reclaimable one, a usable one that is not aligned, and one shorter than a frame. -/
def mixedEntries : List LimineEntry :=
  [⟨0x9000, 0x2800, 0⟩, ⟨0x4000, 0x1000, 5⟩, ⟨0x1800, 0x1900, 0⟩, ⟨0x7000, 0x800, 0⟩]

theorem boot_frames_in_map_order_mixed :
    bootFrames mixedEntries = [0x9000, 0xA000, 0x2000] ∧
      ∃ bootInfo setup, collectBootInfo ⟨some 0, some mixedEntries, none⟩ = .ok bootInfo ∧
        initializeAllocator bootInfo = .ok setup ∧
        HandsOut setup.allocator [0x9000, 0xA000, 0x2000] := by
  have hframes : bootFrames mixedEntries = [0x9000, 0xA000, 0x2000] := by decide
  have hfits : ∀ entry ∈ mixedEntries.take maxMemoryRegions,
      entry.type = 0 → frameSize ≤ entry.length.toNat →
      ∃ aligned, alignUp entry.base.toNat frameSize = .ok aligned := by
    intro entry hentry _ _
    refine ⟨frameSize * (entry.base.toNat ⌈/⌉ frameSize), ?_⟩
    revert entry
    decide
  obtain ⟨bootInfo, hboot⟩ : ∃ bootInfo,
      collectBootInfo ⟨some 0, some mixedEntries, none⟩ = .ok bootInfo := ⟨_, rfl⟩
  obtain ⟨setup, h, hout, -⟩ := boot_frames_in_map_order rfl hboot hfits
  rw [hframes] at hout
  exact ⟨hframes, bootInfo, setup, hboot, h, hout⟩

def oneEntryResponses (entry : LimineEntry) : LimineResponses :=
  ⟨some 0, some [entry], none⟩

theorem collectBootInfo_oneEntry (entry : LimineEntry) :
    ∃ bootInfo, collectBootInfo (oneEntryResponses entry) = .ok bootInfo :=
  ⟨_, rfl⟩

def topEntry : LimineEntry := ⟨0xFFFFFFFFFFFFE000, 8192, 0⟩

/-- The last frame of the entry is never returned: `MemoryRegion::end` saturates. -/
theorem topEntry_loses_frame :
    ∃ bootInfo setup frame, collectBootInfo (oneEntryResponses topEntry) = .ok bootInfo ∧
      alignUp topEntry.base.toNat frameSize = .ok topEntry.base.toNat ∧
      initializeAllocator bootInfo = .ok setup ∧
      topEntry.type = 0 ∧ frameSize ∣ frame ∧ topEntry.base.toNat ≤ frame ∧
      frame + frameSize ≤ topEntry.base.toNat + topEntry.length.toNat ∧
      ∀ results cells', Successive setup.allocator setup.allocator.initialCells results cells' →
        some frame ∉ results := by
  obtain ⟨bootInfo, hboot⟩ := collectBootInfo_oneEntry topEntry
  have hregions := regions_collectBootInfo rfl hboot
  have hinit : ∃ setup, initializeAllocator bootInfo = .ok setup := by
    refine initializeAllocator_isOk (fun region hregion _ _ => ?_)
    rw [hregions] at hregion
    rw [List.mem_singleton.mp hregion]
    exact ⟨topEntry.base.toNat, by decide⟩
  obtain ⟨setup, hinit⟩ := hinit
  refine ⟨bootInfo, setup, 0xFFFFFFFFFFFFF000, hboot, by decide, hinit, rfl, by decide, by decide,
    by decide, fun results cells' h hmem => ?_⟩
  have hresults := (handsOut_bootFrames rfl hboot hinit results).mp ⟨cells', h⟩
  rw [hresults] at hmem
  obtain ⟨i, -, hi⟩ := List.mem_map.mp hmem
  obtain ⟨entry, hentry, -, hframe⟩ := mem_bootFrames (List.mem_of_getElem? hi)
  rw [List.mem_singleton.mp hentry] at hframe
  exact absurd (mem_entryFrames.mp hframe).2.2.2 (by decide)

/-! ## The reported number of frames -/

def FillsWith (fa : FrameAllocator) (frames : List Nat) : Prop :=
  ∃ cells', Successive fa fa.initialCells (frames.map some ++ [none]) cells'

theorem HandsOut.before_none {fa : FrameAllocator} {frames : List Nat} (h : HandsOut fa frames)
    (frames' : List Nat) :
    FillsWith fa frames' ↔ frames' = frames := by
  rw [FillsWith, h, List.length_append, List.length_map, List.length_singleton, List.range_succ,
    List.map_append, List.map_singleton]
  constructor
  · intro heq
    obtain ⟨hsome, hnone⟩ := List.append_inj heq (by simp)
    have hlen : frames.length ≤ frames'.length := by simpa using hnone
    apply List.ext_getElem?
    intro i
    by_cases hi : i < frames'.length
    · have hget := congrArg (·[i]?) hsome
      simpa [hi] using hget
    · rw [List.getElem?_eq_none (by omega), List.getElem?_eq_none (by omega)]
  · rintro rfl
    congr 1
    · apply List.ext_getElem (by simp)
      intro i hi _
      simp only [List.length_map] at hi
      simp [hi]
    · simp

/-- The counter is the number of frames handed out as long as every kept region
found a place in the table; each further region makes it too large. -/
theorem Recorded.usableFrameCount_eq_iff (h : Recorded setup ks)
    (hkeeps : ∀ region ∈ ks, keeps region = true) :
    setup.usableFrameCount = ((ks.take maxUsableRanges).flatMap regionFrames).length ↔
      ks.length ≤ maxUsableRanges := by
  have hsplit : setup.usableFrameCount =
      ((ks.take maxUsableRanges).flatMap regionFrames).length +
        ((ks.drop maxUsableRanges).flatMap regionFrames).length := by
    rw [Setup.usableFrameCount, h.total, ← List.length_append, ← List.flatMap_append,
      List.take_append_drop]
  rw [hsplit, Nat.add_eq_left, List.length_eq_zero_iff, List.flatMap_eq_nil_iff]
  constructor
  · intro hnil
    by_contra hlong
    have hlt : maxUsableRanges < ks.length := by omega
    have hmem : ks[maxUsableRanges] ∈ ks.drop maxUsableRanges := by
      rw [List.drop_eq_getElem_cons hlt]
      exact List.mem_cons_self
    have hframes := roundUp_lt_alignDown_of_keeps (hkeeps _ (List.getElem_mem hlt))
    have hempty := (regionFrames_eq_nil_iff _).mp (hnil _ hmem)
    omega
  · intro hle region hregion
    rw [List.drop_eq_nil_of_le hle] at hregion
    cases hregion

theorem usable_frame_count_eq_capacity_iff {bootInfo : BootInfo}
    (h : initializeAllocator bootInfo = .ok setup) :
    ∃ frames : List Nat, (∀ frames', FillsWith setup.allocator frames' ↔ frames' = frames) ∧
      (setup.usableFrameCount = frames.length ↔ (kept bootInfo).length ≤ maxUsableRanges) := by
  have hspec := initializeAllocator_spec h
  have hkeeps : ∀ region ∈ kept bootInfo, keeps region = true := fun _ hr => keeps_of_mem_kept hr
  exact ⟨_, (hspec.handsOut hkeeps).before_none, hspec.usableFrameCount_eq_iff hkeeps⟩

/-- `count` usable regions of one frame each, with a gap after every region. -/
def singleFrameRegions (count : Nat) : BootInfo where
  hhdmOffset := 0
  memoryMapEntries := count
  framebuffer := none
  memoryRegions := Vector.ofFn fun index =>
    ⟨UInt64.ofNat (index.val * 8192), 4096, .usable⟩

theorem initializeAllocator_singleFrameRegions (count : Nat) :
    ∃ setup, initializeAllocator (singleFrameRegions count) = .ok setup := by
  have hbase : ∀ index : Fin maxMemoryRegions, alignUp (UInt64.ofNat (index.val * 8192)).toNat
      frameSize = .ok (index.val * 8192) := by decide
  refine initializeAllocator_isOk (fun region hregion _ _ => ?_)
  have hmem := List.mem_of_mem_take hregion
  simp only [singleFrameRegions, Vector.mem_toList_iff, Vector.mem_ofFn] at hmem
  obtain ⟨index, rfl⟩ := hmem
  exact ⟨_, hbase index⟩

theorem usable_frame_count_eq_capacity_iff_two :
    (kept (singleFrameRegions 2)).length = 2 ∧
      ∃ setup frames, initializeAllocator (singleFrameRegions 2) = .ok setup ∧
        FillsWith setup.allocator frames ∧ setup.usableFrameCount = frames.length := by
  obtain ⟨setup, h⟩ := initializeAllocator_singleFrameRegions 2
  have hkept : (kept (singleFrameRegions 2)).length = 2 := by decide
  obtain ⟨frames, hfills, hcount⟩ := usable_frame_count_eq_capacity_iff h
  refine ⟨hkept, setup, frames, h, (hfills frames).mpr rfl, hcount.mpr ?_⟩
  rw [hkept]
  decide

/-- With 33 regions the counter says 33 and the 33rd call returns `None`. -/
theorem singleFrameRegions_miscounted :
    ∃ setup frames, initializeAllocator (singleFrameRegions 33) = .ok setup ∧
      FillsWith setup.allocator frames ∧
      frames.length = 32 ∧ setup.usableFrameCount = 33 := by
  obtain ⟨setup, h⟩ := initializeAllocator_singleFrameRegions 33
  have hspec := initializeAllocator_spec h
  refine ⟨setup, _, h, ((hspec.handsOut fun _ hr => keeps_of_mem_kept hr).before_none _).mpr rfl,
    by decide +kernel, ?_⟩
  rw [Setup.usableFrameCount, hspec.total]
  decide +kernel

end AetherOs.Memory.Frames
