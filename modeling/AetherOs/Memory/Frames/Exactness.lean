import AetherOs.Memory.Frames.BootFrames
/-!
# The arithmetic of `initialize`

`initialize` rounds both ends of every usable region of at least one frame.
`MemoryRegion::end` saturates, and the `+` of `align_up` is not guarded: a base
in the last, incomplete page of the address space makes it overflow before the
region is found to be empty.  A region that ends within the address space is
computed without any rounding error or overflow.
-/

namespace AetherOs.Memory.Frames

open AetherOs.Support AetherOs.Support.Word AetherOs.Boot

/-- The regions that reach the arithmetic of the loop body. -/
def measured (bootInfo : BootInfo) : List MemoryRegion :=
  bootInfo.regions.filter fun region =>
    region.kind = .usable ∧ frameSize ≤ region.length.toNat

structure ExactRegion (region : MemoryRegion) : Prop where
  start : alignUp region.base.toNat frameSize = .ok (roundUp region.base.toNat)
  stop : region.endAddr = region.base.toNat + region.length.toNat
  rounded : alignDown region.endAddr frameSize + region.endAddr % frameSize = region.endAddr

def RangesInside (setup : Setup) (bootInfo : BootInfo) : Prop :=
  ∀ i < setup.rangeCount, ∃ region, (kept bootInfo)[i]? = some region ∧
    setup.allocator.start i < setup.allocator.stop i ∧
    region.base.toNat ≤ setup.allocator.start i ∧
    setup.allocator.stop i ≤ region.base.toNat + region.length.toNat

def CountExact (setup : Setup) (bootInfo : BootInfo) : Prop :=
  setup.totalFrames = ((kept bootInfo).map fun region =>
    (alignDown region.endAddr frameSize - roundUp region.base.toNat) / frameSize).sum

/-- No addition or subtraction of `initialize` overflows and all of them are exact. -/
def ExactInitialization (bootInfo : BootInfo) : Prop :=
  ∃ setup, initializeAllocator bootInfo = .ok setup ∧
    (∀ region ∈ measured bootInfo, ExactRegion region) ∧
    CountExact setup bootInfo ∧ RangesInside setup bootInfo

/-! ## Regions -/

theorem mem_measured {bootInfo : BootInfo} {region : MemoryRegion} :
    region ∈ measured bootInfo ↔
      region ∈ bootInfo.regions ∧ region.kind = .usable ∧ frameSize ≤ region.length.toNat := by
  simp [measured]

theorem le_roundUp (value : Nat) : value ≤ roundUp value := by
  simp only [roundUp, frameSize]
  omega

/-- `align_up` overflows on the last, incomplete page of the address space. -/
theorem alignUp_isOk_iff (value : Nat) (hvalue : value < wordLimit) :
    (∃ aligned, alignUp value frameSize = .ok aligned) ↔ value ≤ wordLimit - frameSize := by
  have hlimit : wordLimit = 18446744073709551616 := by decide
  have hsize : frameSize = 4096 := rfl
  unfold alignUp add
  rw [hlimit] at hvalue ⊢
  rw [hsize]
  split_ifs with haligned hfits
  · exact iff_of_true ⟨value, rfl⟩ (by omega)
  · exact iff_of_true ⟨_, rfl⟩ (by omega)
  · refine iff_of_false ?_ (by omega)
    rintro ⟨_, h⟩
    cases h

theorem exactRegion_iff {region : MemoryRegion} (hlen : frameSize ≤ region.length.toNat) :
    ExactRegion region ↔ region.base.toNat + region.length.toNat < wordLimit := by
  have hpos : 0 < wordLimit := by decide
  constructor
  · intro h
    have hstop := h.stop
    unfold MemoryRegion.endAddr saturatingAdd at hstop
    omega
  · intro hlt
    have hbase : region.base.toNat ≤ wordLimit - frameSize := by omega
    obtain ⟨aligned, haligned⟩ :=
      (alignUp_isOk_iff region.base.toNat (UInt64.toNat_lt _)).mpr hbase
    refine ⟨?_, ?_, ?_⟩
    · rw [haligned, alignUp_eq_ok haligned]
    · unfold MemoryRegion.endAddr saturatingAdd
      omega
    · exact Nat.sub_add_cancel (Nat.mod_le _ _)

/-! ## The loop -/

theorem alignUp_of_visitRegion {region : MemoryRegion} {setup' : Setup}
    (h : visitRegion setup region = .ok setup') (hkind : region.kind = .usable)
    (hlen : frameSize ≤ region.length.toNat) :
    ∃ aligned, alignUp region.base.toNat frameSize = .ok aligned := by
  unfold visitRegion at h
  rw [if_neg (by rw [not_or, not_not, Nat.not_lt]; exact ⟨hkind, hlen⟩)] at h
  cases hup : alignUp region.base.toNat frameSize with
  | error reason =>
      rw [hup] at h
      cases h
  | ok aligned => exact ⟨aligned, rfl⟩

theorem alignUp_of_foldlM {regions : List MemoryRegion} {setup' : Setup}
    (h : regions.foldlM visitRegion setup = .ok setup') {region : MemoryRegion}
    (hmem : region ∈ regions) (hkind : region.kind = .usable)
    (hlen : frameSize ≤ region.length.toNat) :
    ∃ aligned, alignUp region.base.toNat frameSize = .ok aligned := by
  induction regions generalizing setup with
  | nil => cases hmem
  | cons first regions ih =>
      rw [List.foldlM_cons] at h
      cases hv : visitRegion setup first with
      | error reason =>
          rw [hv] at h
          cases h
      | ok mid =>
          rw [hv] at h
          rcases List.mem_cons.mp hmem with rfl | hrest
          · exact alignUp_of_visitRegion hv hkind hlen
          · exact ih h hrest

theorem initializeAllocator_isOk_iff (bootInfo : BootInfo) :
    (∃ setup, initializeAllocator bootInfo = .ok setup) ↔
      ∀ region ∈ measured bootInfo, region.base.toNat ≤ wordLimit - frameSize := by
  constructor
  · rintro ⟨setup, h⟩ region hregion
    obtain ⟨hmem, hkind, hlen⟩ := mem_measured.mp hregion
    exact (alignUp_isOk_iff _ (UInt64.toNat_lt _)).mp (alignUp_of_foldlM h hmem hkind hlen)
  · intro hbase
    refine initializeAllocator_isOk fun region hmem hkind hlen => ?_
    have hregion : region ∈ measured bootInfo := mem_measured.mpr ⟨hmem, hkind, hlen⟩
    exact (alignUp_isOk_iff _ (UInt64.toNat_lt _)).mpr (hbase region hregion)

theorem Recorded.countExact {bootInfo : BootInfo} (h : Recorded setup (kept bootInfo)) :
    CountExact setup bootInfo := by
  rw [CountExact, h.total, List.length_flatMap]
  apply congrArg List.sum
  apply List.map_congr_left
  intro region _
  exact length_regionFrames region

theorem Recorded.rangesInside {bootInfo : BootInfo} (h : Recorded setup (kept bootInfo)) :
    RangesInside setup bootInfo := by
  intro i hi
  have hcount := h.count
  have hlt : i < (kept bootInfo).length := by omega
  have hget : (kept bootInfo).getD i .empty = (kept bootInfo)[i] := by
    rw [List.getD_eq_getElem?_getD, List.getElem?_eq_getElem hlt, Option.getD_some]
  have hkeeps := keeps_of_mem_kept (List.getElem_mem hlt)
  refine ⟨(kept bootInfo)[i], List.getElem?_eq_getElem hlt, ?_, ?_, ?_⟩
  · rw [h.start i hi, h.stop i hi, hget]
    exact roundUp_lt_alignDown_of_keeps hkeeps
  · rw [h.start i hi, hget]
    exact le_roundUp _
  · rw [h.stop i hi, hget]
    refine (alignDown_le _).trans ?_
    unfold MemoryRegion.endAddr saturatingAdd
    exact Nat.min_le_left _ _

/-- `initialize` computes exactly when every measured region ends within the
address space.  It overflows exactly when a measured region has its base in the
last, incomplete page; otherwise the count is exact and the ranges lie in their
regions, whether or not an end was saturated. -/
theorem initialize_exact_iff (bootInfo : BootInfo) :
    (ExactInitialization bootInfo ↔
      ∀ region ∈ measured bootInfo, region.base.toNat + region.length.toNat < wordLimit) ∧
    ((∃ setup, initializeAllocator bootInfo = .ok setup) ↔
      ∀ region ∈ measured bootInfo, region.base.toNat ≤ wordLimit - frameSize) ∧
    ∀ setup, initializeAllocator bootInfo = .ok setup →
      CountExact setup bootInfo ∧ RangesInside setup bootInfo := by
  refine ⟨?_, initializeAllocator_isOk_iff bootInfo, ?_⟩
  · constructor
    · rintro ⟨setup, -, hexact, -, -⟩ region hregion
      have hlen := (mem_measured.mp hregion).2.2
      exact (exactRegion_iff hlen).mp (hexact region hregion)
    · intro hfits
      have hbase : ∀ region ∈ measured bootInfo, region.base.toNat ≤ wordLimit - frameSize := by
        intro region hregion
        have hlen := (mem_measured.mp hregion).2.2
        have hlt := hfits region hregion
        omega
      obtain ⟨setup, h⟩ := (initializeAllocator_isOk_iff bootInfo).mpr hbase
      have hspec := initializeAllocator_spec h
      refine ⟨setup, h, fun region hregion => ?_, hspec.countExact, hspec.rangesInside⟩
      exact (exactRegion_iff (mem_measured.mp hregion).2.2).mpr (hfits region hregion)
  · intro setup h
    have hspec := initializeAllocator_spec h
    exact ⟨hspec.countExact, hspec.rangesInside⟩

def lastPageRegion : BootInfo where
  hhdmOffset := 0
  memoryMapEntries := 1
  framebuffer := none
  memoryRegions := Vector.replicate maxMemoryRegions ⟨0xFFFFFFFFFFFFF001, 4096, .usable⟩

theorem lastPageRegion_overflows :
    initializeAllocator lastPageRegion = .error .overflow := by
  decide

end AetherOs.Memory.Frames
