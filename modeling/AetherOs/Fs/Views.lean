import AetherOs.Fs.Refinement
/-!
# Views handed out by `read`

`leak_str` turns the bytes of an overlay slot into a `&'static str`, so a text
that `read` returned from the overlay is a view into the slot's buffer: the
slot and the length at the time of the read.  Later calls write into the same
buffer.  `Spares` is the exact condition under which a call leaves the bytes of
a view as they are, and a view stays what it was as long as every later call
meets it.
-/

namespace AetherOs.Fs

open AetherOs.Support AetherOs.Support.Word AetherOs.Support.Text

/-- The first `length` bytes of the contents buffer of a slot. -/
@[ext]
structure View where
  slot : Fin maxOverlayFiles
  length : Nat
  length_le : length ≤ maxContentLen

instance : DecidableEq View := fun view view' =>
  decidable_of_iff (view.slot = view'.slot ∧ view.length = view'.length) View.ext_iff.symm

def View.bytes (view : View) (overlay : Overlay) : List UInt8 :=
  (overlay view.slot).contents.front view.length

def readView (overlay : Overlay) (path : Str) : Option View :=
  match normalizePath path with
  | .error _ => none
  | .ok (.error _) => none
  | .ok (.ok normalized) =>
      match overlay.slotAt normalized with
      | none => none
      | some i =>
          match fromUtf8 (overlay i).contentsBytes with
          | none => none
          | some _ => some ⟨i, (overlay i).contentsLen, (overlay i).contentsLen_le⟩

def Op.target (overlay : Overlay) : Op → Option (Fin maxOverlayFiles)
  | .write path contents =>
      match normalizePath path with
      | .error _ => none
      | .ok (.error _) => none
      | .ok (.ok normalized) =>
          if maxContentLen < (asBytes contents).length then none
          else (overlay.slotAt normalized).or overlay.freeSlot
  | .remove path =>
      match normalizePath path with
      | .error _ => none
      | .ok (.error _) => none
      | .ok (.ok normalized) => overlay.slotAt normalized

/-- The call does not replace the viewed slot, or writes bytes that agree with
the viewed ones as far as both go, or clears a view of zero bytes. -/
def Spares (view : View) (overlay : Overlay) (op : Op) : Prop :=
  op.target overlay = some view.slot →
    match op with
    | .write _ contents =>
        (asBytes contents).take view.length =
          (view.bytes overlay).take (asBytes contents).length
    | .remove _ => ∀ byte ∈ view.bytes overlay, byte = 0

/-! ## One call -/

variable {overlay : Overlay} {view : View}

theorem bytes_update_of_ne {i : Fin maxOverlayFiles} (file : OverlayFile) (h : view.slot ≠ i) :
    view.bytes (Function.update overlay i file) = view.bytes overlay := by
  rw [View.bytes, Function.update_of_ne h, View.bytes]

theorem writeSlot_contents (overlay : Overlay) {i : Fin maxOverlayFiles} {key : Str}
    {contents : List UInt8} (hpath : (asBytes key).length ≤ maxPathLen)
    (hlen : 0 + contents.length ≤ maxContentLen) :
    ∃ file, overlay.writeSlot i key contents = .ok (Function.update overlay i file, .ok ()) ∧
      file.contents = (overlay i).contents.overwrite 0 contents hlen := by
  have hpath' : 0 + (asBytes key).length ≤ maxPathLen := by omega
  rw [Overlay.writeSlot, OverlayFile.write, dif_pos hpath', dif_pos hlen]
  exact ⟨_, rfl, rfl⟩

theorem bytes_after_write {i : Fin maxOverlayFiles} {file : OverlayFile} {contents : List UInt8}
    (hlen : 0 + contents.length ≤ maxContentLen)
    (hfile : file.contents = (overlay i).contents.overwrite 0 contents hlen) :
    view.bytes (Function.update overlay i file) = view.bytes overlay ↔
      (i = view.slot → contents.take view.length =
        (view.bytes overlay).take contents.length) := by
  by_cases hi : view.slot = i
  · subst hi
    have hbytes : view.bytes (Function.update overlay view.slot file) =
        contents.take view.length ++ (view.bytes overlay).drop contents.length := by
      rw [View.bytes, Function.update_self, hfile, Buffer.front_overwrite_zero]
      rfl
    have hsplit := List.take_append_drop contents.length (view.bytes overlay)
    rw [hbytes]
    constructor
    · intro h _
      exact List.append_cancel_right (h.trans hsplit.symm)
    · intro h
      rw [h rfl, hsplit]
  · have hne : i ≠ view.slot := fun heq => hi heq.symm
    simp [bytes_update_of_ne file hi, hne]

theorem bytes_after_clear {i : Fin maxOverlayFiles} :
    view.bytes (Function.update overlay i .empty) = view.bytes overlay ↔
      (i = view.slot → ∀ byte ∈ view.bytes overlay, byte = 0) := by
  by_cases hi : view.slot = i
  · subst hi
    have hbytes : view.bytes (Function.update overlay view.slot .empty) =
        List.replicate view.length 0 := by
      rw [View.bytes, Function.update_self]
      exact Buffer.front_filled 0 view.length_le
    have hlength : (view.bytes overlay).length = view.length := Buffer.length_front view.length_le
    rw [hbytes, eq_comm, List.eq_replicate_iff]
    constructor
    · rintro ⟨-, h⟩ _
      exact h
    · intro h
      exact ⟨hlength, h rfl⟩
  · have hne : i ≠ view.slot := fun heq => hi heq.symm
    simp [bytes_update_of_ne _ hi, hne]

theorem bytes_of_untouched {op : Op} (htarget : op.target overlay = none)
    (happly : op.apply overlay = overlay) :
    view.bytes (op.apply overlay) = view.bytes overlay ↔ Spares view overlay op := by
  have hspares : Spares view overlay op := by
    intro h
    rw [htarget] at h
    cases h
  rw [happly]
  exact iff_of_true rfl hspares

theorem bytes_writeSlot {path key contents : Str} {i : Fin maxOverlayFiles}
    (hkey : normalForm path = .ok key) (hlen : ¬ maxContentLen < (asBytes contents).length)
    (htarget : (Op.write path contents).target overlay = some i)
    (hperform : (Op.write path contents).perform overlay =
      overlay.writeSlot i key (asBytes contents)) :
    view.bytes ((Op.write path contents).apply overlay) = view.bytes overlay ↔
      Spares view overlay (.write path contents) := by
  have hfits : 0 + (asBytes contents).length ≤ maxContentLen := by omega
  obtain ⟨file, hslot, hfile⟩ :=
    writeSlot_contents overlay (i := i) (length_asBytes_of_normalForm hkey) hfits
  have happly : (Op.write path contents).apply overlay = Function.update overlay i file := by
    rw [Op.apply, hperform, hslot]
  rw [happly, bytes_after_write hfits hfile, Spares, htarget, Option.some.injEq]

/-- A write has no target and no effect, or it writes its target. -/
theorem write_cases (overlay : Overlay) (path contents : Str) :
    ((Op.write path contents).target overlay = none ∧
      (Op.write path contents).apply overlay = overlay) ∨
    ∃ i key, normalForm path = .ok key ∧ ¬ maxContentLen < (asBytes contents).length ∧
      (Op.write path contents).target overlay = some i ∧
      (Op.write path contents).perform overlay = overlay.writeSlot i key (asBytes contents) := by
  cases hkey : normalForm path with
  | error error =>
      left
      simp [Op.target, Op.apply, Op.perform, write, normalizePath_eq, hkey]
  | ok key =>
      by_cases hlong : maxContentLen < (asBytes contents).length
      · left
        simp [Op.target, Op.apply, Op.perform, write, normalizePath_eq, hkey, hlong]
      · cases hslot : overlay.slotAt key with
        | some i =>
            refine Or.inr ⟨i, key, rfl, hlong, ?_, ?_⟩
            · simp [Op.target, normalizePath_eq, hkey, hlong, hslot]
            · simp [Op.perform, write, normalizePath_eq, hkey, hlong, hslot]
        | none =>
            cases hfree : overlay.freeSlot with
            | some i =>
                refine Or.inr ⟨i, key, rfl, hlong, ?_, ?_⟩
                · simp [Op.target, normalizePath_eq, hkey, hlong, hslot, hfree]
                · simp [Op.perform, write, normalizePath_eq, hkey, hlong, hslot, hfree]
            | none =>
                left
                simp [Op.target, Op.apply, Op.perform, write, normalizePath_eq, hkey, hlong, hslot,
                  hfree]

/-- A removal has no target and no effect, or it clears its target. -/
theorem remove_cases (overlay : Overlay) (path : Str) :
    ((Op.remove path).target overlay = none ∧ (Op.remove path).apply overlay = overlay) ∨
    ∃ i, (Op.remove path).target overlay = some i ∧
      (Op.remove path).apply overlay = Function.update overlay i .empty := by
  cases hkey : normalForm path with
  | error error =>
      left
      simp [Op.target, Op.apply, Op.perform, remove, normalizePath_eq, hkey]
  | ok key =>
      cases hslot : overlay.slotAt key with
      | some i =>
          refine Or.inr ⟨i, ?_, ?_⟩
          · simp [Op.target, normalizePath_eq, hkey, hslot]
          · simp [Op.apply, Op.perform, remove, normalizePath_eq, hkey, hslot]
      | none =>
          left
          by_cases hfound : (find key).isSome = true <;>
            simp [Op.target, Op.apply, Op.perform, remove, normalizePath_eq, hkey, hslot, hfound]

theorem bytes_apply_eq_iff (op : Op) :
    view.bytes (op.apply overlay) = view.bytes overlay ↔ Spares view overlay op := by
  cases op with
  | write path contents =>
      rcases write_cases overlay path contents with
        ⟨htarget, happly⟩ | ⟨i, key, hkey, hlen, htarget, hperform⟩
      · exact bytes_of_untouched htarget happly
      · exact bytes_writeSlot hkey hlen htarget hperform
  | remove path =>
      rcases remove_cases overlay path with ⟨htarget, happly⟩ | ⟨i, htarget, happly⟩
      · exact bytes_of_untouched htarget happly
      · rw [happly, bytes_after_clear, Spares, htarget, Option.some.injEq]

/-! ## Runs -/

theorem Refines.read_of_readView {M : FileMap} (h : Refines overlay M) {path : Str}
    (hview : readView overlay path = some view) :
    ∃ text, read overlay path = .ok (some text) ∧ asBytes text = view.bytes overlay := by
  unfold readView at hview
  rw [normalizePath_eq] at hview
  cases hkey : normalForm path with
  | error error =>
      rw [hkey] at hview
      cases hview
  | ok key =>
      rw [hkey] at hview
      cases hslot : overlay.slotAt key with
      | none =>
          simp only [hslot] at hview
          cases hview
      | some i =>
          obtain ⟨contents, hi⟩ := h.binding_of_slotAt hslot
          have hholds := (OverlayFile.binding_eq_some (h.valid i)).mp hi
          have hread := h.readOverlay_eq key
          simp only [hslot, hholds.contents, fromUtf8_asBytes] at hview
          cases hview
          refine ⟨contents, ?_, hholds.contents.symm⟩
          rw [read, normalizePath_eq, hkey]
          simp only [hread, h.represents.lookup_eq hi]

/-- A view that `read` handed out keeps its bytes through a later run exactly
when every call of that run spares it. -/
theorem view_stable_iff_spared (ops : List Op) (path : Str) (view : View)
    (hview : readView (Overlay.run ops) path = some view) :
    (∃ text, read (Overlay.run ops) path = .ok (some text) ∧
      asBytes text = view.bytes (Overlay.run ops)) ∧
    ∀ later, (∀ n, view.bytes (Overlay.run (ops ++ later.take n)) =
        view.bytes (Overlay.run ops)) ↔
      Runs.Along (fun overlay op => op.apply overlay) (Spares view) (Overlay.run ops) later := by
  refine ⟨(run_refines ops).read_of_readView hview, fun later => ?_⟩
  rw [← Runs.forall_exec_take_eq_iff_along (fun overlay op => bytes_apply_eq_iff op)]
  apply forall_congr'
  intro n
  rw [Overlay.run, Runs.exec_append]
  rfl

def oneFile : List Op := [.write "/a".toList "x".toList]

def oneFileView : View := ⟨⟨0, by decide⟩, 1, by decide⟩

theorem view_stable_iff_spared_remove_other :
    readView (Overlay.run oneFile) "a".toList = some oneFileView ∧
      ∀ n, oneFileView.bytes (Overlay.run (oneFile ++ [Op.remove "/b".toList].take n)) =
        oneFileView.bytes (Overlay.run oneFile) := by
  have hview : readView (Overlay.run oneFile) "a".toList = some oneFileView := by decide +kernel
  refine ⟨hview, ?_⟩
  rw [(view_stable_iff_spared oneFile "a".toList oneFileView hview).2]
  refine ⟨fun htarget => ?_, trivial⟩
  have hnone : (Op.remove "/b".toList).target (Overlay.run oneFile) = none := by decide +kernel
  rw [hnone] at htarget
  cases htarget

/-- Writing the same path again changes the text that was handed out. -/
theorem oneFileView_rewritten :
    readView (Overlay.run oneFile) "a".toList = some oneFileView ∧
      oneFileView.bytes (Overlay.run oneFile) = asBytes "x".toList ∧
      oneFileView.bytes (Overlay.run (oneFile ++ [.write "/a".toList "y".toList])) =
        asBytes "y".toList ∧
      asBytes "x".toList ≠ asBytes "y".toList := by
  refine ⟨by decide +kernel, by decide +kernel, by decide +kernel, by decide⟩

end AetherOs.Fs
