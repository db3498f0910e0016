import AetherOs.Fs.Vfs
/-!
# Normal forms of paths

`normalForm` says what `normalize_path` computes without its buffer: the
trimmed path with a leading slash, as long as it is not empty and fits in 32
bytes.  The code never panics on the way, and normal forms are fixed points.
-/

namespace AetherOs.Fs

open AetherOs.Support AetherOs.Support.Word AetherOs.Support.Text

def withSlash (path : Str) : Str := if path.head? = some '/' then path else '/' :: path

def normalForm (path : Str) : Except VfsError Str :=
  if trim path = [] then
    .error .invalidPath
  else if maxPathLen < len (withSlash (trim path)) then
    .error .pathTooLong
  else
    .ok (withSlash (trim path))

theorem len_cons_slash (path : Str) : len ('/' :: path) = len path + 1 := by
  have hslash : String.utf8EncodeChar '/' = [0x2F] := by decide
  rw [len, asBytes_cons, hslash, List.singleton_append, List.length_cons, len]

theorem copyWithSlashPrefix_eq (path : Str) (buffer : Buffer UInt8 maxPathLen) :
    copyWithSlashPrefix path buffer =
      .ok (if maxPathLen < len path + 1 then .error .pathTooLong else .ok ('/' :: path)) := by
  unfold copyWithSlashPrefix
  split_ifs with hlong
  · rfl
  · have hfirst : 0 + [(0x2F : UInt8)].length ≤ maxPathLen := by decide
    have hrest : 1 + (asBytes path).length ≤ maxPathLen := by
      rw [Nat.add_comm]
      exact Nat.le_of_not_lt hlong
    have hbytes : ((buffer.overwrite 0 [0x2F] hfirst).overwrite 1 (asBytes path) hrest).front
        (len path + 1) = asBytes ('/' :: path) := by
      rw [Nat.add_comm, len, Buffer.front_overwrite]
      have hslash := Buffer.front_overwrite buffer hfirst
      rw [Nat.zero_add] at hslash
      have hfront : (buffer.overwrite 0 [0x2F] hfirst).front 1 = [0x2F] := by
        simpa [Buffer.front] using hslash
      rw [hfront]
      rfl
    simp only [Buffer.copyAt_of_le hfirst, Buffer.copyAt_of_le hrest, hbytes, fromUtf8_asBytes]

theorem normalizePath_eq (path : Str) : normalizePath path = .ok (normalForm path) := by
  unfold normalizePath normalForm withSlash
  simp only [copyWithSlashPrefix_eq]
  by_cases hempty : trim path = []
  · simp [hempty]
  · by_cases hslash : (trim path).head? = some '/'
    · simp only [hempty, hslash, if_true, if_false]
      split_ifs <;> rfl
    · simp only [hempty, hslash, if_false, len_cons_slash]
      split_ifs with hlong
      · rfl
      · simp only [len_cons_slash, hlong, if_false]

theorem trimmed_withSlash {path : Str} (h : Trimmed path) : Trimmed (withSlash path) := by
  unfold withSlash
  split_ifs
  · exact h
  · exact h.cons (by decide)

theorem withSlash_withSlash (path : Str) : withSlash (withSlash path) = withSlash path := by
  have hhead : (withSlash path).head? = some '/' := by
    unfold withSlash
    split_ifs with h
    · exact h
    · rfl
  rw [withSlash, if_pos hhead]

theorem withSlash_ne_nil (path : Str) : withSlash path ≠ [] := by
  unfold withSlash
  split_ifs with h
  · rintro rfl
    cases h
  · exact List.cons_ne_nil _ _

theorem normalForm_of_normalForm {path key : Str} (h : normalForm path = .ok key) :
    normalForm key = .ok key := by
  unfold normalForm at h
  split_ifs at h with hempty hlong
  cases h
  have htrim : trim (withSlash (trim path)) = withSlash (trim path) :=
    trim_of_trimmed (trimmed_withSlash (trimmed_trim path))
  rw [normalForm, htrim, if_neg (withSlash_ne_nil _), withSlash_withSlash, if_neg hlong]

theorem length_asBytes_of_normalForm {path key : Str} (h : normalForm path = .ok key) :
    (asBytes key).length ≤ maxPathLen := by
  unfold normalForm at h
  split_ifs at h with hempty hlong
  cases h
  exact Nat.le_of_not_lt hlong

end AetherOs.Fs
