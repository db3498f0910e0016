import AetherOs.Fs.Refinement
import Mathlib.Data.List.FinRange
/-!
# Listing the file system

`for_each_entry` compares paths byte by byte and skips overlay entries whose
path does not decode.  In every reachable table the first half of the listing
is the keys of the map, one for each slot in use, and the second half the
initramfs files that no key shadows.
-/

namespace AetherOs.Fs

open AetherOs.Support AetherOs.Support.Word AetherOs.Support.Text

variable {overlay : Overlay} {M : FileMap}

/-- The names of the overlay entries, as `for_each_entry` visits them. -/
def overlayNames (overlay : Overlay) : List Str :=
  ((List.finRange maxOverlayFiles).filter fun i => (overlay i).used).filterMap
    fun i => (overlay i).pathText

def unshadowedNames (overlay : Overlay) : List Str :=
  (files.filter fun file =>
    !(List.finRange maxOverlayFiles).any fun i => (overlay i).isAt (asBytes file.path)).map
    InitramfsFile.path

theorem forEachEntry_eq (overlay : Overlay) :
    forEachEntry overlay = overlayNames overlay ++ unshadowedNames overlay := rfl

/-! ## The initramfs -/

theorem files_paths_nodup : (files.map InitramfsFile.path).Nodup := by decide

theorem normalForm_of_mem_files : ∀ file ∈ files, normalForm file.path = .ok file.path := by
  decide

theorem find_isSome_iff {path : Str} :
    (find path).isSome ↔ path ∈ files.map InitramfsFile.path := by
  simp [find, List.find?_isSome, List.mem_map]

/-! ## The two halves of the listing -/

namespace Refines

theorem pathText_of_used (h : Refines overlay M) {i : Fin maxOverlayFiles}
    (hused : (overlay i).used = true) :
    ∃ key contents, (overlay i).pathText = some key ∧ (overlay i).Holds key contents := by
  obtain ⟨key, contents, hholds⟩ := h.valid i hused
  exact ⟨key, contents, hholds.pathText_eq, hholds⟩

theorem mem_overlayNames (h : Refines overlay M) {name : Str} :
    name ∈ overlayNames overlay ↔ name ∈ M.keys := by
  simp only [overlayNames, List.mem_filterMap, List.mem_filter, List.mem_finRange, true_and]
  rw [h.represents.mem_keys]
  apply exists_congr
  intro i
  constructor
  · rintro ⟨hused, hname⟩
    obtain ⟨key, contents, hkey, hholds⟩ := h.pathText_of_used hused
    rw [hkey] at hname
    cases hname
    exact ⟨contents, hholds.binding_eq⟩
  · rintro ⟨contents, hi⟩
    have hholds := (OverlayFile.binding_eq_some (h.valid i)).mp hi
    exact ⟨hholds.used, hholds.pathText_eq⟩

theorem overlayNames_nodup (h : Refines overlay M) : (overlayNames overlay).Nodup := by
  have hslots : ((List.finRange maxOverlayFiles).filter fun i => (overlay i).used).Nodup :=
    (List.nodup_finRange _).filter _
  rw [overlayNames, List.Nodup, List.pairwise_filterMap]
  refine hslots.imp_of_mem (fun {i j} hi hj hne name hname name' hname' heq => hne ?_)
  subst heq
  obtain ⟨key, contents, hkey, hholds⟩ := h.pathText_of_used (List.mem_filter.mp hi).2
  obtain ⟨key', contents', hkey', hholds'⟩ := h.pathText_of_used (List.mem_filter.mp hj).2
  rw [hkey] at hname
  rw [hkey'] at hname'
  cases hname
  cases hname'
  exact h.represents.distinct hholds.binding_eq hholds'.binding_eq

theorem shadowed_iff (h : Refines overlay M) {name : Str} :
    ((List.finRange maxOverlayFiles).any fun i => (overlay i).isAt (asBytes name)) = true ↔
      name ∈ M.keys := by
  simp only [List.any_eq_true, List.mem_finRange, true_and]
  rw [h.represents.mem_keys]
  exact exists_congr fun i => OverlayFile.isAt_asBytes_iff (h.valid i)

theorem mem_unshadowedNames (h : Refines overlay M) {name : Str} :
    name ∈ unshadowedNames overlay ↔ (find name).isSome ∧ name ∉ M.keys := by
  rw [find_isSome_iff, List.mem_map]
  simp only [unshadowedNames, List.mem_map, List.mem_filter, Bool.not_eq_true',
    Bool.eq_false_iff]
  constructor
  · rintro ⟨file, ⟨hfile, hshadow⟩, rfl⟩
    exact ⟨⟨file, hfile, rfl⟩, fun hmem => hshadow (h.shadowed_iff.mpr hmem)⟩
  · rintro ⟨⟨file, hfile, rfl⟩, hnot⟩
    exact ⟨file, ⟨hfile, fun hshadow => hnot (h.shadowed_iff.mp hshadow)⟩, rfl⟩

theorem forEachEntry_nodup (h : Refines overlay M) : (forEachEntry overlay).Nodup := by
  have hunshadowed : (unshadowedNames overlay).Nodup :=
    List.Nodup.sublist (List.filter_sublist.map _) files_paths_nodup
  rw [forEachEntry_eq, List.nodup_append']
  refine ⟨h.overlayNames_nodup, hunshadowed, fun name hleft hright => ?_⟩
  exact (h.mem_unshadowedNames.mp hright).2 (h.mem_overlayNames.mp hleft)

theorem mem_forEachEntry (h : Refines overlay M) {name : Str} :
    name ∈ forEachEntry overlay ↔ name ∈ M.keys ∨ (find name).isSome := by
  rw [forEachEntry_eq, List.mem_append, h.mem_overlayNames, h.mem_unshadowedNames]
  by_cases hmem : name ∈ M.keys <;> simp [hmem]

/-- Every listed name is a normal path. -/
theorem normalForm_of_mem (h : Refines overlay M) {name : Str}
    (hname : name ∈ forEachEntry overlay) : normalForm name = .ok name := by
  rcases h.mem_forEachEntry.mp hname with hmem | hfound
  · obtain ⟨i, contents, hi⟩ := h.represents.mem_keys.mp hmem
    exact ((OverlayFile.binding_eq_some (h.valid i)).mp hi).normal
  · obtain ⟨file, hfile, rfl⟩ := List.mem_map.mp (find_isSome_iff.mp hfound)
    exact normalForm_of_mem_files file hfile

theorem pathExists_iff (h : Refines overlay M) {path : Str} :
    pathExists overlay path = .ok true ↔
      ∃ name, normalForm path = .ok name ∧ name ∈ forEachEntry overlay := by
  rw [h.pathExists_eq, FileMap.read]
  cases normalForm path with
  | error error => simp
  | ok key =>
      simp only [Except.ok.injEq, exists_eq_left', h.mem_forEachEntry, M.mem_keys,
        Option.isSome_or, Option.isSome_map, Bool.or_eq_true]

end Refines

/-! ## Exactly once -/

/-- In every reachable table `for_each_entry` visits every path of the file
system once, by its normal form. -/
theorem for_each_entry_exactly_once (ops : List Op) :
    (forEachEntry (Overlay.run ops)).Nodup ∧
    (∀ name ∈ forEachEntry (Overlay.run ops), normalizePath name = .ok (.ok name) ∧
      pathExists (Overlay.run ops) name = .ok true) ∧
    (∀ path, pathExists (Overlay.run ops) path = .ok true →
      ∃ name, normalizePath path = .ok (.ok name) ∧ name ∈ forEachEntry (Overlay.run ops)) ∧
    (∀ i, (Overlay.run ops i).used = true →
      ∃ name, (Overlay.run ops i).pathText = some name ∧
        name ∈ forEachEntry (Overlay.run ops)) ∧
    ∀ file ∈ files, (forEachEntry (Overlay.run ops)).count file.path = 1 := by
  have h := run_refines ops
  refine ⟨h.forEachEntry_nodup, fun name hname => ?_, fun path hpath => ?_, fun i hused => ?_,
    fun file hfile => ?_⟩
  · have hnormal := h.normalForm_of_mem hname
    rw [normalizePath_eq, hnormal]
    exact ⟨rfl, h.pathExists_iff.mpr ⟨name, hnormal, hname⟩⟩
  · obtain ⟨name, hnormal, hname⟩ := h.pathExists_iff.mp hpath
    exact ⟨name, by rw [normalizePath_eq, hnormal], hname⟩
  · obtain ⟨key, contents, hkey, hholds⟩ := h.pathText_of_used hused
    refine ⟨key, hkey, h.mem_forEachEntry.mpr (.inl ?_)⟩
    exact h.represents.mem_keys.mpr ⟨i, contents, hholds.binding_eq⟩
  · refine List.count_eq_one_of_mem h.forEachEntry_nodup (h.mem_forEachEntry.mpr (.inr ?_))
    exact find_isSome_iff.mpr (List.mem_map_of_mem hfile)

end AetherOs.Fs
