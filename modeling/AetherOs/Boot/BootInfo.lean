import AetherOs.Support.Word
/-!
# Boot information

The records of the `aether-bootinfo` crate and `collect_boot_info`, which
copies the bootloader's responses into them.  Addresses and lengths keep the
source's unsigned types; arithmetic on them is done on their values.
-/

namespace AetherOs.Boot

open AetherOs.Support.Word

def maxMemoryRegions : Nat := 64

inductive MemoryRegionKind where
  | usable
  | reserved
  | reclaimable
  | kernel
  | framebuffer
  | unknown
  deriving DecidableEq, Repr

structure MemoryRegion where
  base : UInt64
  length : UInt64
  kind : MemoryRegionKind
  deriving DecidableEq, Repr

def MemoryRegion.empty : MemoryRegion := ⟨0, 0, .reserved⟩

/-- `MemoryRegion::end`, which saturates at the top of the address space. -/
def MemoryRegion.endAddr (region : MemoryRegion) : Nat :=
  saturatingAdd region.base.toNat region.length.toNat

structure FramebufferInfo where
  address : UInt64
  width : UInt32
  height : UInt32
  pitch : UInt32
  bpp : UInt16
  deriving DecidableEq, Repr

structure BootInfo where
  hhdmOffset : UInt64
  memoryMapEntries : Nat
  framebuffer : Option FramebufferInfo
  memoryRegions : Vector MemoryRegion maxMemoryRegions
  deriving DecidableEq

/-! ## Bootloader responses -/

structure LimineEntry where
  base : UInt64
  length : UInt64
  type : UInt64
  deriving DecidableEq, Repr

structure LimineFramebuffer where
  address : UInt64
  width : UInt64
  height : UInt64
  pitch : UInt64
  bpp : UInt16

/-- What the bootloader answered; a missing response is `none`. -/
structure LimineResponses where
  hhdmOffset : Option UInt64
  memoryMap : Option (List LimineEntry)
  framebuffers : Option (List LimineFramebuffer)

def classifyMemoryRegion (entryType : UInt64) : MemoryRegionKind :=
  match entryType.toNat with
  | 0 => .usable
  | 5 => .reclaimable
  | 6 => .kernel
  | 7 => .framebuffer
  | 1 | 2 | 3 | 4 => .reserved
  | _ => .unknown

def LimineEntry.toRegion (entry : LimineEntry) : MemoryRegion :=
  ⟨entry.base, entry.length, classifyMemoryRegion entry.type⟩

/-- The region table: entry `index` for the first 64 entries, `EMPTY` after them. -/
def normalizeRegions (entries : List LimineEntry) : Vector MemoryRegion maxMemoryRegions :=
  Vector.ofFn fun index =>
    match entries[index.val]? with
    | some entry => entry.toRegion
    | none => .empty

def LimineFramebuffer.toInfo (framebuffer : LimineFramebuffer) : FramebufferInfo :=
  ⟨framebuffer.address, framebuffer.width.toUInt32, framebuffer.height.toUInt32,
    framebuffer.pitch.toUInt32, framebuffer.bpp⟩

def collectBootInfo (responses : LimineResponses) : Checked BootInfo :=
  match responses.hhdmOffset with
  | none => .error .expectFailed
  | some hhdmOffset =>
      match responses.memoryMap with
      | none => .error .expectFailed
      | some entries =>
          .ok {
            hhdmOffset := hhdmOffset
            memoryMapEntries := entries.length
            framebuffer :=
              (responses.framebuffers.bind List.head?).map LimineFramebuffer.toInfo
            memoryRegions := normalizeRegions entries }

/-- The regions `initialize` looks at: the table cut at `memory_map_entries`. -/
def BootInfo.regions (bootInfo : BootInfo) : List MemoryRegion :=
  bootInfo.memoryRegions.toList.take
    (min bootInfo.memoryMapEntries bootInfo.memoryRegions.size)

@[simp] theorem classifyMemoryRegion_eq_usable {entryType : UInt64} :
    classifyMemoryRegion entryType = .usable ↔ entryType = 0 := by
  constructor
  · intro h
    unfold classifyMemoryRegion at h
    split at h
    · rename_i hzero
      exact UInt64.toNat_inj.mp hzero
    all_goals cases h
  · rintro rfl
    rfl

/-- The copied table, cut at the number of entries, is the first 64 entries. -/
theorem regions_collectBootInfo {responses : LimineResponses} {entries : List LimineEntry}
    {bootInfo : BootInfo} (hmap : responses.memoryMap = some entries)
    (h : collectBootInfo responses = .ok bootInfo) :
    bootInfo.regions = (entries.take maxMemoryRegions).map LimineEntry.toRegion := by
  unfold collectBootInfo at h
  split at h
  · cases h
  · rw [hmap] at h
    cases h
    apply List.ext_getElem?
    intro i
    simp only [BootInfo.regions, normalizeRegions, List.getElem?_take, List.getElem?_map]
    by_cases hi : i < min entries.length maxMemoryRegions
    · have hlen : i < entries.length := by omega
      have hmax : i < maxMemoryRegions := by omega
      simp [hlen, hmax]
    · simp only [maxMemoryRegions] at hi
      by_cases hmax : i < 64
      · have hlen : entries.length ≤ i := by omega
        simp [maxMemoryRegions, hmax, hlen]
      · simp [maxMemoryRegions, hmax]

end AetherOs.Boot
