import AetherOs.Fs.Refinement
/-!
# Spellings of a path

Two paths that `normalize_path` accepts name one file in every state of the
file system exactly when they differ at most in the white space around them and
in a missing leading slash.
-/

namespace AetherOs.Fs

open AetherOs.Support AetherOs.Support.Word AetherOs.Support.Text

/-- What `read` finds for the path before it turns to the initramfs. -/
def overlayText (overlay : Overlay) (path : Str) : Option Str :=
  match normalizePath path with
  | .ok (.ok normalized) => readOverlay overlay normalized
  | _ => none

/-- In every state, a write through `p` is what is read through `q`, and a removal
through `p` succeeds exactly when `q` reads from the overlay, and ends that. -/
def SameFile (p q : Str) : Prop :=
  ∀ ops,
    (∀ contents overlay', write (Overlay.run ops) p contents = .ok (overlay', .ok ()) →
      read overlay' q = .ok (some contents)) ∧
    ((overlayText (Overlay.run ops) q).isSome →
      ∃ overlay', remove (Overlay.run ops) p = .ok (overlay', .ok ()) ∧
        overlayText overlay' q = none) ∧
    ∀ overlay', remove (Overlay.run ops) p = .ok (overlay', .ok ()) →
      (overlayText (Overlay.run ops) q).isSome

/-! ## Acceptance -/

theorem normalForm_eq_ok_iff {path key : Str} :
    normalForm path = .ok key ↔
      trim path ≠ [] ∧ len (withSlash (trim path)) ≤ maxPathLen ∧ withSlash (trim path) = key := by
  unfold normalForm
  split_ifs with hempty hlong
  · simp [hempty]
  · simp [Nat.not_le.mpr hlong]
  · simp [hempty, Nat.le_of_not_lt hlong]

theorem normalizePath_eq_ok_iff {path key : Str} :
    normalizePath path = .ok (.ok key) ↔ normalForm path = .ok key := by
  rw [normalizePath_eq, Except.ok.injEq]

/-! ## Successful calls -/

variable {overlay overlay' : Overlay} {M : FileMap} {path key contents : Str}

theorem overlayText_eq (h : Refines overlay M) (hkey : normalForm path = .ok key) :
    overlayText overlay path = M.lookup key := by
  rw [overlayText, normalizePath_eq, hkey]
  exact h.readOverlay_eq key

theorem Refines.of_write (h : Refines overlay M) (hkey : normalForm path = .ok key)
    (hwrite : write overlay path contents = .ok (overlay', .ok ())) :
    ∃ hroom, Refines overlay' (M.insert key contents hroom) := by
  have hagrees := h.write_agrees path contents
  rw [hwrite, FileMap.write, hkey] at hagrees
  dsimp only at hagrees
  split_ifs at hagrees with hlong hroom
  · cases hagrees
  · obtain ⟨_, heq, hrefines⟩ := hagrees
    cases heq
    exact ⟨hroom, hrefines⟩
  · cases hagrees

theorem Refines.of_remove (h : Refines overlay M) (hkey : normalForm path = .ok key)
    (hremove : remove overlay path = .ok (overlay', .ok ())) : key ∈ M.keys := by
  have hagrees := h.remove_agrees path
  rw [hremove, FileMap.remove, hkey] at hagrees
  dsimp only at hagrees
  split_ifs at hagrees with hmem hfound
  · exact hmem
  · cases hagrees
  · cases hagrees

theorem Refines.exists_remove (h : Refines overlay M) (hkey : normalForm path = .ok key)
    (hmem : key ∈ M.keys) :
    ∃ overlay', remove overlay path = .ok (overlay', .ok ()) ∧ Refines overlay' (M.erase key) := by
  have hagrees := h.remove_agrees path
  rw [FileMap.remove, hkey] at hagrees
  dsimp only at hagrees
  rw [if_pos hmem] at hagrees
  exact hagrees

theorem write_empty (hkey : normalForm path = .ok key) (hlen : len contents ≤ maxContentLen) :
    ∃ overlay', write (Overlay.run []) path contents = .ok (overlay', .ok ()) := by
  have hagrees := (run_refines []).write_agrees path contents
  have hroom : key ∈ (FileMap.run []).keys ∨ (FileMap.run []).keys.card < maxOverlayFiles :=
    .inr (by decide)
  rw [FileMap.write, hkey] at hagrees
  dsimp only at hagrees
  rw [if_neg (Nat.not_lt.mpr hlen), dif_pos hroom] at hagrees
  obtain ⟨overlay', hwrite, -⟩ := hagrees
  exact ⟨overlay', hwrite⟩

theorem exists_contents_ne (found : Option Str) :
    ∃ contents : Str, len contents ≤ maxContentLen ∧ found ≠ some contents := by
  by_cases hempty : found = some []
  · exact ⟨['x'], by decide, by simp [hempty]⟩
  · exact ⟨[], by decide, hempty⟩

/-! ## The law -/

theorem sameFile_of_eq {p q : Str} (hp : normalForm p = .ok key) (hq : normalForm q = .ok key) :
    SameFile p q := by
  intro ops
  have h := run_refines ops
  constructor
  · intro contents overlay' hwrite
    obtain ⟨hroom, hrefines⟩ := h.of_write hp hwrite
    rw [hrefines.read_eq, FileMap.read, hq]
    simp [BoundedMap.insert]
  · rw [overlayText_eq h hq, ← BoundedMap.mem_keys]
    constructor
    · intro hmem
      obtain ⟨overlay', hremove, hrefines⟩ := h.exists_remove hp hmem
      refine ⟨overlay', hremove, ?_⟩
      rw [overlayText_eq hrefines hq]
      simp [BoundedMap.erase]
    · intro overlay' hremove
      exact h.of_remove hp hremove

theorem eq_of_sameFile {p q kp kq : Str} (hp : normalForm p = .ok kp) (hq : normalForm q = .ok kq)
    (h : SameFile p q) : kp = kq := by
  by_contra hne
  obtain ⟨contents, hlen, hother⟩ := exists_contents_ne ((find kq).map InitramfsFile.contents)
  obtain ⟨overlay', hwrite⟩ := write_empty hp hlen
  have hread := (h []).1 contents overlay' hwrite
  obtain ⟨hroom, hrefines⟩ := (run_refines []).of_write hp hwrite
  -- the file written through `p` is not there for `q`, so `q` reads the initramfs
  have hlookup : ((FileMap.run []).insert kp contents hroom).lookup kq = none :=
    Function.update_of_ne (Ne.symm hne) _ _
  rw [hrefines.read_eq, FileMap.read, hq] at hread
  simp only [hlookup, Option.none_or, Except.ok.injEq] at hread
  exact hother hread

theorem path_spelling_law :
    (∀ p q kp kq, normalizePath p = .ok (.ok kp) → normalizePath q = .ok (.ok kq) →
      (SameFile p q ↔ withSlash (trim p) = withSlash (trim q))) ∧
    (∀ p, (∃ key, normalizePath p = .ok (.ok key)) ↔
      trim p ≠ [] ∧ len (withSlash (trim p)) ≤ maxPathLen) ∧
    (∀ p key, normalizePath p = .ok (.ok key) → normalizePath key = .ok (.ok key)) ∧
    (∀ path buffer, ∃ result, copyWithSlashPrefix path buffer = .ok result) ∧
    ∀ ops path contents, ∃ result, write (Overlay.run ops) path contents = .ok result := by
  refine ⟨?_, ?_, ?_, ?_, ?_⟩
  · intro p q kp kq hp hq
    rw [normalizePath_eq_ok_iff] at hp hq
    have hkp := (normalForm_eq_ok_iff.mp hp).2.2
    have hkq := (normalForm_eq_ok_iff.mp hq).2.2
    rw [hkp, hkq]
    constructor
    · exact eq_of_sameFile hp hq
    · rintro rfl
      exact sameFile_of_eq hp hq
  · intro p
    simp only [normalizePath_eq_ok_iff, normalForm_eq_ok_iff]
    constructor
    · rintro ⟨key, hne, hlen, -⟩
      exact ⟨hne, hlen⟩
    · rintro ⟨hne, hlen⟩
      exact ⟨_, hne, hlen, rfl⟩
  · intro p key h
    rw [normalizePath_eq_ok_iff] at h ⊢
    exact normalForm_of_normalForm h
  · intro path buffer
    exact ⟨_, copyWithSlashPrefix_eq path buffer⟩
  · intro ops path contents
    have hagrees := (run_refines ops).write_agrees path contents
    cases hwrite : (FileMap.run ops).write path contents with
    | error error =>
        rw [hwrite] at hagrees
        exact ⟨_, hagrees⟩
    | ok M' =>
        rw [hwrite] at hagrees
        obtain ⟨overlay', hok, -⟩ := hagrees
        exact ⟨_, hok⟩

/-- The name as it is typed and as it is listed. -/
theorem path_spelling_law_notes : SameFile " notes ".toList "/notes".toList :=
  (path_spelling_law.1 _ _ "/notes".toList "/notes".toList (by decide +kernel)
    (by decide +kernel)).mpr (by decide)

end AetherOs.Fs
