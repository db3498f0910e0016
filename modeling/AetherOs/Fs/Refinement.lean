import AetherOs.Fs.Paths
import AetherOs.Support.Runs
import AetherOs.Support.SlotTable
/-!
# The file system as a bounded map

`FileMap` is what the overlay is for: a map of at most eight normal paths to
contents, read through to the initramfs.  `Refines` relates a slot table to
the map it stands for.  Every call of `write` and `remove` keeps the relation
and returns what the map's own operation says; `read`, `exists` and
`for_each_entry` answer from the map.
-/

namespace AetherOs.Fs

open AetherOs.Support AetherOs.Support.Word AetherOs.Support.Text

/-! ## The abstract file system -/

abbrev FileMap := BoundedMap Str Str maxOverlayFiles

namespace FileMap

/-- A key of the map shadows the initramfs file of the same path. -/
def read (M : FileMap) (path : Str) : Option Str :=
  match normalForm path with
  | .error _ => none
  | .ok key => (M.lookup key).or ((find key).map InitramfsFile.contents)

def write (M : FileMap) (path contents : Str) : Except VfsError FileMap :=
  match normalForm path with
  | .error error => .error error
  | .ok key =>
      if maxContentLen < len contents then
        .error .contentTooLong
      else if hroom : key ∈ M.keys ∨ M.keys.card < maxOverlayFiles then
        .ok (M.insert key contents hroom)
      else
        .error .noSpace

def remove (M : FileMap) (path : Str) : Except VfsError FileMap :=
  match normalForm path with
  | .error error => .error error
  | .ok key =>
      if key ∈ M.keys then
        .ok (M.erase key)
      else if (find key).isSome then
        .error .readOnly
      else
        .error .notFound

def perform (M : FileMap) : Op → Except VfsError FileMap
  | .write path contents => M.write path contents
  | .remove path => M.remove path

/-- An operation that fails leaves the map as it is. -/
def apply (M : FileMap) (op : Op) : FileMap :=
  match M.perform op with
  | .error _ => M
  | .ok M' => M'

/-- An operation changes the map at most at the key of its path. -/
theorem lookup_apply_of_ne {M : FileMap} {op : Op} {key : Str}
    (h : normalForm op.path ≠ .ok key) : (M.apply op).lookup key = M.lookup key := by
  have hupdate : ∀ {key' : Str} (value : Option Str), normalForm op.path = .ok key' →
      Function.update M.lookup key' value key = M.lookup key := by
    intro key' value hkey'
    apply Function.update_of_ne
    rintro rfl
    exact h hkey'
  unfold apply
  cases hperform : M.perform op with
  | error error => rfl
  | ok M' =>
      cases op with
      | write path contents =>
          change M.write path contents = .ok M' at hperform
          unfold write at hperform
          split at hperform
          · cases hperform
          · next key' hkey' =>
              split_ifs at hperform
              cases hperform
              exact hupdate _ hkey'
      | remove path =>
          change M.remove path = .ok M' at hperform
          unfold remove at hperform
          split at hperform
          · cases hperform
          · next key' hkey' =>
              split_ifs at hperform
              cases hperform
              exact hupdate _ hkey'

theorem mem_keys_apply {M : FileMap} {op : Op} {key : Str} (h : key ∈ (M.apply op).keys) :
    key ∈ M.keys ∨ ∃ path contents, op = .write path contents ∧ normalForm path = .ok key := by
  by_cases hpath : normalForm op.path = .ok key
  · cases op with
    | write path contents => exact Or.inr ⟨path, contents, rfl, hpath⟩
    | remove path =>
        left
        by_contra hnot
        have hfails : ∃ error, M.perform (.remove path) = .error error := by
          simp only [perform, remove, show normalForm path = .ok key from hpath, if_neg hnot]
          split_ifs <;> exact ⟨_, rfl⟩
        obtain ⟨error, herror⟩ := hfails
        rw [apply, herror] at h
        exact hnot h
  · rw [M.mem_keys, ← lookup_apply_of_ne hpath, ← BoundedMap.mem_keys]
    exact Or.inl h

end FileMap

/-! ## Slots -/

namespace OverlayFile

structure Holds (file : OverlayFile) (key contents : Str) : Prop where
  used : file.used = true
  path : file.pathBytes = asBytes key
  contents : file.contentsBytes = asBytes contents
  normal : normalForm key = .ok key

/-- A slot in use holds some file; its bytes are valid UTF-8 and its path is normal. -/
def Valid (file : OverlayFile) : Prop :=
  file.used = true → ∃ key contents, file.Holds key contents

def binding (file : OverlayFile) : Option (Str × Str) :=
  if file.used then
    file.pathText.bind fun key => (fromUtf8 file.contentsBytes).map fun contents => (key, contents)
  else none

variable {file : OverlayFile} {key contents : Str}

theorem Holds.pathText_eq (h : file.Holds key contents) : file.pathText = some key := by
  rw [pathText, h.path, fromUtf8_asBytes]

theorem Holds.binding_eq (h : file.Holds key contents) :
    file.binding = some (key, contents) := by
  simp [binding, h.used, h.pathText_eq, h.contents]

theorem binding_eq_some (hvalid : file.Valid) :
    file.binding = some (key, contents) ↔ file.Holds key contents := by
  constructor
  · intro h
    by_cases hused : file.used = true
    · obtain ⟨key', contents', hholds⟩ := hvalid hused
      rw [hholds.binding_eq] at h
      cases h
      exact hholds
    · simp [binding, hused] at h
  · exact Holds.binding_eq

theorem binding_eq_none (hvalid : file.Valid) : file.binding = none ↔ file.used = false := by
  constructor
  · intro h
    by_contra hused
    obtain ⟨key, contents, hholds⟩ := hvalid (Bool.eq_true_of_not_eq_false hused)
    rw [hholds.binding_eq] at h
    cases h
  · intro h
    simp [binding, h]

theorem valid_empty : empty.Valid := fun h => by cases h

theorem length_pathBytes (file : OverlayFile) : file.pathBytes.length = file.pathLen :=
  Buffer.length_front file.pathLen_le

theorem isAt_iff {path : List UInt8} :
    file.isAt path = true ↔ file.used = true ∧ file.pathBytes = path := by
  simp only [isAt, Bool.and_eq_true, decide_eq_true_eq]
  constructor
  · rintro ⟨⟨hused, -⟩, hpath⟩
    exact ⟨hused, hpath⟩
  · rintro ⟨hused, hpath⟩
    refine ⟨⟨hused, ?_⟩, hpath⟩
    rw [← hpath, length_pathBytes]

theorem isAt_asBytes_iff (hvalid : file.Valid) :
    file.isAt (asBytes key) = true ↔ ∃ contents, file.binding = some (key, contents) := by
  rw [isAt_iff]
  constructor
  · rintro ⟨hused, hpath⟩
    obtain ⟨key', contents, hholds⟩ := hvalid hused
    rw [hholds.path, asBytes_inj] at hpath
    subst hpath
    exact ⟨contents, hholds.binding_eq⟩
  · rintro ⟨contents, h⟩
    have hholds := (binding_eq_some hvalid).mp h
    exact ⟨hholds.used, hholds.path⟩

theorem write_eq (file : OverlayFile) (hnormal : normalForm key = .ok key)
    (hlen : len contents ≤ maxContentLen) :
    ∃ file', file.write key (asBytes contents) = .ok file' ∧ file'.Holds key contents := by
  have hpath : 0 + (asBytes key).length ≤ maxPathLen := by
    rw [Nat.zero_add]
    exact length_asBytes_of_normalForm hnormal
  have hcontents : 0 + (asBytes contents).length ≤ maxContentLen := by
    rw [Nat.zero_add]
    exact hlen
  rw [write, dif_pos hpath, dif_pos hcontents]
  refine ⟨_, rfl, rfl, ?_, ?_, hnormal⟩
  · exact Buffer.front_overwrite file.path hpath
  · exact Buffer.front_overwrite file.contents hcontents

end OverlayFile

/-! ## Searching the table -/

theorem Overlay.of_first_eq_some {overlay : Overlay} {p : OverlayFile → Bool}
    {i : Fin maxOverlayFiles} (h : overlay.first p = some i) : p (overlay i) = true :=
  List.find?_some (p := fun i => p (overlay i)) h

theorem Overlay.first_eq_none_iff {overlay : Overlay} {p : OverlayFile → Bool} :
    overlay.first p = none ↔ ∀ i, p (overlay i) = false := by
  simp [Overlay.first]

/-! ## The refinement relation -/

structure Refines (overlay : Overlay) (M : FileMap) : Prop where
  valid : ∀ i, (overlay i).Valid
  represents : SlotTable.Represents OverlayFile.binding overlay M

variable {overlay : Overlay} {M : FileMap}

theorem refines_empty : Refines Overlay.empty BoundedMap.empty :=
  ⟨fun _ => OverlayFile.valid_empty, SlotTable.Represents.empty (fun _ => rfl)⟩

namespace Refines

theorem valid_update (h : Refines overlay M) {i : Fin maxOverlayFiles} {file : OverlayFile}
    (hfile : file.Valid) (j : Fin maxOverlayFiles) : (Function.update overlay i file j).Valid := by
  by_cases hji : j = i
  · subst hji
    rwa [Function.update_self]
  · rw [Function.update_of_ne hji]
    exact h.valid j

theorem binding_of_slotAt (h : Refines overlay M) {key : Str} {i : Fin maxOverlayFiles}
    (hslot : overlay.slotAt key = some i) :
    ∃ contents, (overlay i).binding = some (key, contents) :=
  (OverlayFile.isAt_asBytes_iff (h.valid i)).mp (Overlay.of_first_eq_some hslot)

theorem notMem_keys_of_slotAt (h : Refines overlay M) {key : Str}
    (hslot : overlay.slotAt key = none) : key ∉ M.keys := by
  intro hmem
  obtain ⟨i, contents, hi⟩ := h.represents.mem_keys.mp hmem
  have hnot := Overlay.first_eq_none_iff.mp hslot i
  rw [(OverlayFile.isAt_asBytes_iff (h.valid i)).mpr ⟨contents, hi⟩] at hnot
  cases hnot

theorem slotAt_isSome (h : Refines overlay M) {key : Str} :
    (overlay.slotAt key).isSome ↔ key ∈ M.keys := by
  cases hslot : overlay.slotAt key with
  | none => simp [h.notMem_keys_of_slotAt hslot]
  | some i =>
      obtain ⟨contents, hi⟩ := h.binding_of_slotAt hslot
      simp [h.represents.mem_keys.mpr ⟨i, contents, hi⟩]

theorem readOverlay_eq (h : Refines overlay M) (key : Str) :
    readOverlay overlay key = M.lookup key := by
  unfold readOverlay
  cases hslot : overlay.slotAt key with
  | none => exact (BoundedMap.notMem_keys.mp (h.notMem_keys_of_slotAt hslot)).symm
  | some i =>
      obtain ⟨contents, hi⟩ := h.binding_of_slotAt hslot
      have hholds := (OverlayFile.binding_eq_some (h.valid i)).mp hi
      rw [h.represents.lookup_eq hi]
      simp only [hholds.contents, fromUtf8_asBytes]

theorem freeSlot_eq_none_iff (h : Refines overlay M) :
    overlay.freeSlot = none ↔ ¬ M.keys.card < maxOverlayFiles := by
  rw [h.represents.card_lt_iff, Overlay.freeSlot, Overlay.first_eq_none_iff, not_exists]
  apply forall_congr'
  intro i
  rw [OverlayFile.binding_eq_none (h.valid i)]
  simp

/-! ## One call -/

theorem read_eq (h : Refines overlay M) (path : Str) :
    read overlay path = .ok (M.read path) := by
  unfold read FileMap.read
  rw [normalizePath_eq]
  cases normalForm path with
  | error error => rfl
  | ok key =>
      simp only [h.readOverlay_eq]
      cases M.lookup key <;> rfl

theorem pathExists_eq (h : Refines overlay M) (path : Str) :
    pathExists overlay path = .ok (M.read path).isSome := by
  unfold pathExists FileMap.read
  rw [normalizePath_eq]
  cases normalForm path with
  | error error => rfl
  | ok key =>
      simp only [h.readOverlay_eq]
      cases M.lookup key <;> simp

/-- What a call returns and leaves behind is what the abstract operation says;
a call that fails leaves the table as it was. -/
def Agrees (overlay : Overlay) (abstract : Except VfsError FileMap)
    (concrete : Checked (Overlay × Except VfsError Unit)) : Prop :=
  match abstract with
  | .error error => concrete = .ok (overlay, .error error)
  | .ok M' => ∃ overlay', concrete = .ok (overlay', .ok ()) ∧ Refines overlay' M'

theorem writeSlot_agrees (h : Refines overlay M) {key contents : Str} {i : Fin maxOverlayFiles}
    (hnormal : normalForm key = .ok key) (hlen : len contents ≤ maxContentLen)
    (hroom : key ∈ M.keys ∨ M.keys.card < maxOverlayFiles)
    (hslot : (∃ old, (overlay i).binding = some (key, old)) ∨
      (overlay i).binding = none ∧ key ∉ M.keys) :
    Agrees overlay (.ok (M.insert key contents hroom))
      (overlay.writeSlot i key (asBytes contents)) := by
  obtain ⟨file, hfile, hholds⟩ := (overlay i).write_eq hnormal hlen
  refine ⟨Function.update overlay i file, by rw [Overlay.writeSlot, hfile], ?_, ?_⟩
  · exact h.valid_update (fun _ => ⟨key, contents, hholds⟩)
  · rcases hslot with ⟨old, hold⟩ | ⟨hfree, hnew⟩
    · exact h.represents.overwrite hold hholds.binding_eq hroom
    · exact h.represents.fill hfree hnew hholds.binding_eq hroom

theorem write_agrees (h : Refines overlay M) (path contents : Str) :
    Agrees overlay (M.write path contents) (Fs.write overlay path contents) := by
  unfold FileMap.write Fs.write
  rw [normalizePath_eq]
  cases hkey : normalForm path with
  | error error => rfl
  | ok key =>
      have hnormal := normalForm_of_normalForm hkey
      simp only
      by_cases hlong : maxContentLen < len contents
      · rw [if_pos hlong]
        exact if_pos hlong
      · have hlen : len contents ≤ maxContentLen := Nat.le_of_not_lt hlong
        rw [if_neg hlong, if_neg (show ¬ maxContentLen < (asBytes contents).length from hlong)]
        cases hslot : overlay.slotAt key with
        | some i =>
            -- the key has a slot
            have hmem : key ∈ M.keys := h.slotAt_isSome.mp (by rw [hslot]; rfl)
            rw [dif_pos (.inl hmem)]
            exact h.writeSlot_agrees hnormal hlen _ (.inl (h.binding_of_slotAt hslot))
        | none =>
            have hnew := h.notMem_keys_of_slotAt hslot
            cases hfree : overlay.freeSlot with
            | some i =>
                have hunused : (overlay i).used = false := by
                  simpa using Overlay.of_first_eq_some hfree
                have hroom : M.keys.card < maxOverlayFiles := by
                  by_contra hfull
                  rw [h.freeSlot_eq_none_iff.mpr hfull] at hfree
                  cases hfree
                rw [dif_pos (.inr hroom)]
                exact h.writeSlot_agrees hnormal hlen _
                  (.inr ⟨(OverlayFile.binding_eq_none (h.valid i)).mpr hunused, hnew⟩)
            | none =>
                have hfull := h.freeSlot_eq_none_iff.mp hfree
                rw [dif_neg (by simp [hnew, hfull])]
                rfl

theorem remove_agrees (h : Refines overlay M) (path : Str) :
    Agrees overlay (M.remove path) (Fs.remove overlay path) := by
  unfold FileMap.remove Fs.remove
  rw [normalizePath_eq]
  cases hkey : normalForm path with
  | error error => rfl
  | ok key =>
      simp only
      cases hslot : overlay.slotAt key with
      | some i =>
          have hmem : key ∈ M.keys := h.slotAt_isSome.mp (by rw [hslot]; rfl)
          obtain ⟨contents, hi⟩ := h.binding_of_slotAt hslot
          rw [if_pos hmem]
          exact ⟨_, rfl, h.valid_update OverlayFile.valid_empty,
            h.represents.clear hi rfl⟩
      | none =>
          rw [if_neg (h.notMem_keys_of_slotAt hslot)]
          simp only
          split_ifs <;> rfl

theorem perform_agrees (h : Refines overlay M) (op : Op) :
    Agrees overlay (M.perform op) (op.perform overlay) := by
  cases op with
  | write path contents => exact h.write_agrees path contents
  | remove path => exact h.remove_agrees path

theorem apply (h : Refines overlay M) (op : Op) : Refines (op.apply overlay) (M.apply op) := by
  have hagrees := h.perform_agrees op
  unfold Op.apply FileMap.apply
  cases hperform : M.perform op with
  | error error =>
      rw [hperform] at hagrees
      rw [show op.perform overlay = .ok (overlay, .error error) from hagrees]
      exact h
  | ok M' =>
      rw [hperform] at hagrees
      obtain ⟨overlay', hconcrete, hrefines⟩ := hagrees
      rw [hconcrete]
      exact hrefines

theorem apply_of_error (h : Refines overlay M) {op : Op} {error : VfsError}
    (hop : M.perform op = .error error) : op.apply overlay = overlay := by
  have hagrees := h.perform_agrees op
  rw [hop] at hagrees
  rw [Op.apply, show op.perform overlay = .ok (overlay, .error error) from hagrees]

end Refines

/-! ## Runs -/

def Overlay.run (ops : List Op) : Overlay :=
  Runs.exec (fun overlay op => op.apply overlay) .empty ops

def FileMap.run (ops : List Op) : FileMap := Runs.exec FileMap.apply BoundedMap.empty ops

theorem run_refines (ops : List Op) : Refines (Overlay.run ops) (FileMap.run ops) := by
  unfold Overlay.run FileMap.run
  exact Runs.exec_simulation (fun _ _ op h => h.apply op) refines_empty ops

/-- Whatever was written and removed before, every call answers and changes the
table as the bounded map does. -/
theorem vfs_refines_file_map (ops : List Op) :
    (∀ path, read (Overlay.run ops) path = .ok ((FileMap.run ops).read path) ∧
      pathExists (Overlay.run ops) path = .ok ((FileMap.run ops).read path).isSome) ∧
    (∀ path contents, Refines.Agrees (Overlay.run ops) ((FileMap.run ops).write path contents)
      (write (Overlay.run ops) path contents)) ∧
    (∀ path, Refines.Agrees (Overlay.run ops) ((FileMap.run ops).remove path)
      (remove (Overlay.run ops) path)) ∧
    ∀ op, Refines (Overlay.run (ops ++ [op])) ((FileMap.run ops).apply op) := by
  have h := run_refines ops
  refine ⟨fun path => ⟨h.read_eq path, h.pathExists_eq path⟩, h.write_agrees, h.remove_agrees,
    fun op => ?_⟩
  rw [Overlay.run, Runs.exec_append]
  exact h.apply op

/-- A path that has no normal form is no key, and `remove` reports the path. -/
theorem remove_blank_path_invalid :
    read Overlay.empty [] = .ok none ∧
      remove Overlay.empty [] = .ok (Overlay.empty, .error .invalidPath) ∧
      VfsError.invalidPath ≠ VfsError.notFound := by
  refine ⟨by decide, rfl, by decide⟩

end AetherOs.Fs
