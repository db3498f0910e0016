import AetherOs.Support.Buffer
import AetherOs.Support.Text
/-!
# The virtual file system

`kernel/src/fs/initramfs.rs` and `kernel/src/fs/vfs.rs`.  Files live in a
read-only list fixed at build time and in an overlay of eight slots with
fixed-size buffers.  A write copies into the buffers of a slot and leaves the
bytes behind the new lengths as they were; a remove resets the whole slot.

Slices that could be out of range panic, so the operations are `Checked`; an
error the caller sees is a value of `VfsError`.
-/

namespace AetherOs.Fs

open AetherOs.Support AetherOs.Support.Word AetherOs.Support.Text

/-! ## The initramfs -/

structure InitramfsFile where
  path : Str
  contents : Str
  deriving DecidableEq

def buildInitramfs : List InitramfsFile :=
  [ { path := "/README.TXT".toList
      contents := ("AetherOS initramfs\nStatic in-memory files for shell validation " ++
        "and boot-time inspection.\n").toList },
    { path := "/STATUS.TXT".toList
      contents := ("Boot, interrupts, memory, scheduler, shell, and QEMU validation are " ++
        "active in this academic v1 baseline.\n").toList },
    { path := "/ROADMAP.TXT".toList
      contents := ("AetherOS v1 baseline is focused on stable bring-up, observability, " ++
        "and educational subsystem boundaries.\n").toList },
    { path := "/COMMANDS.TXT".toList
      contents := ("help\ninfo\nticks\nmem\ntasks\nls\ncat <FILE>\nwrite <FILE> <TEXT>\n" ++
        "rm <FILE>\nstorage\nclear\n").toList } ]

def files : List InitramfsFile := buildInitramfs

/-! ## Errors -/

inductive VfsError where
  | invalidPath
  | pathTooLong
  | contentTooLong
  | noSpace
  | readOnly
  | notFound
  deriving DecidableEq, Repr

def VfsError.message : VfsError → Str
  | .invalidPath => "invalid path".toList
  | .pathTooLong => "path too long".toList
  | .contentTooLong => "content too long".toList
  | .noSpace => "filesystem overlay full".toList
  | .readOnly => "cannot remove read-only initramfs file".toList
  | .notFound => "file not found".toList

/-! ## Overlay slots -/

def maxOverlayFiles : Nat := 8

def maxPathLen : Nat := 32

def maxContentLen : Nat := 256

structure OverlayFile where
  used : Bool
  pathLen : Nat
  contentsLen : Nat
  path : Buffer UInt8 maxPathLen
  contents : Buffer UInt8 maxContentLen
  pathLen_le : pathLen ≤ maxPathLen
  contentsLen_le : contentsLen ≤ maxContentLen
  deriving DecidableEq

namespace OverlayFile

def empty : OverlayFile where
  used := false
  pathLen := 0
  contentsLen := 0
  path := Buffer.filled maxPathLen 0
  contents := Buffer.filled maxContentLen 0
  pathLen_le := Nat.zero_le _
  contentsLen_le := Nat.zero_le _

/-- `OverlayFile::write`; a slice that does not fit its buffer panics. -/
def write (file : OverlayFile) (path : Str) (contents : List UInt8) : Checked OverlayFile :=
  if hpath : 0 + (asBytes path).length ≤ maxPathLen then
    if hcontents : 0 + contents.length ≤ maxContentLen then
      .ok {
        used := true
        pathLen := 0 + (asBytes path).length
        contentsLen := 0 + contents.length
        path := file.path.overwrite 0 (asBytes path) hpath
        contents := file.contents.overwrite 0 contents hcontents
        pathLen_le := hpath
        contentsLen_le := hcontents }
    else .error .outOfBounds
  else .error .outOfBounds

def pathBytes (file : OverlayFile) : List UInt8 := file.path.front file.pathLen

def contentsBytes (file : OverlayFile) : List UInt8 := file.contents.front file.contentsLen

/-- `OverlayFile::matches` -/
def isAt (file : OverlayFile) (path : List UInt8) : Bool :=
  file.used && file.pathLen = path.length && file.pathBytes = path

/-- `OverlayFile::path` -/
def pathText (file : OverlayFile) : Option Str := fromUtf8 file.pathBytes

end OverlayFile

/-! ## Paths -/

def copyWithSlashPrefix (path : Str) (buffer : Buffer UInt8 maxPathLen) :
    Checked (Except VfsError Str) :=
  if maxPathLen < len path + 1 then
    .ok (.error .pathTooLong)
  else
    match buffer.copyAt 0 [0x2F] with
    | .error reason => .error reason
    | .ok buffer =>
        match buffer.copyAt 1 (asBytes path) with
        | .error reason => .error reason
        | .ok buffer =>
            match fromUtf8 (buffer.front (len path + 1)) with
            | none => .ok (.error .invalidPath)
            | some normalized => .ok (.ok normalized)

def normalizePath (path : Str) : Checked (Except VfsError Str) :=
  let trimmed := trim path
  if trimmed = [] then
    .ok (.error .invalidPath)
  else
    let candidate :=
      if trimmed.head? = some '/' then
        .ok (.ok trimmed)
      else
        copyWithSlashPrefix trimmed (Buffer.filled maxPathLen 0)
    match candidate with
    | .error reason => .error reason
    | .ok (.error error) => .ok (.error error)
    | .ok (.ok normalized) =>
        if maxPathLen < len normalized then .ok (.error .pathTooLong) else .ok (.ok normalized)

/-! ## Operations -/

/-- The table behind the `WRITABLE_FILES` mutex. -/
abbrev Overlay := Fin maxOverlayFiles → OverlayFile

def Overlay.empty : Overlay := fun _ => .empty

/-- The first slot that satisfies `p`, as `iter().find` searches for it. -/
def Overlay.first (overlay : Overlay) (p : OverlayFile → Bool) : Option (Fin maxOverlayFiles) :=
  (List.finRange maxOverlayFiles).find? fun i => p (overlay i)

def Overlay.slotAt (overlay : Overlay) (path : Str) : Option (Fin maxOverlayFiles) :=
  overlay.first (·.isAt (asBytes path))

def Overlay.freeSlot (overlay : Overlay) : Option (Fin maxOverlayFiles) :=
  overlay.first (!·.used)

def find (path : Str) : Option InitramfsFile := files.find? (·.path = path)

def readOverlay (overlay : Overlay) (path : Str) : Option Str :=
  match overlay.slotAt path with
  | none => none
  | some i => fromUtf8 (overlay i).contentsBytes

def read (overlay : Overlay) (path : Str) : Checked (Option Str) :=
  match normalizePath path with
  | .error reason => .error reason
  | .ok (.error _) => .ok none
  | .ok (.ok normalized) =>
      match readOverlay overlay normalized with
      | some contents => .ok (some contents)
      | none => .ok ((find normalized).map InitramfsFile.contents)

/-- `vfs::exists` -/
def pathExists (overlay : Overlay) (path : Str) : Checked Bool :=
  match normalizePath path with
  | .error reason => .error reason
  | .ok (.error _) => .ok false
  | .ok (.ok normalized) =>
      .ok ((readOverlay overlay normalized).isSome || (find normalized).isSome)

/-- Replace slot `i` by what `OverlayFile::write` makes of it. -/
def Overlay.writeSlot (overlay : Overlay) (i : Fin maxOverlayFiles) (path : Str)
    (contents : List UInt8) : Checked (Overlay × Except VfsError Unit) :=
  match (overlay i).write path contents with
  | .error reason => .error reason
  | .ok file => .ok (Function.update overlay i file, .ok ())

def write (overlay : Overlay) (path contents : Str) :
    Checked (Overlay × Except VfsError Unit) :=
  match normalizePath path with
  | .error reason => .error reason
  | .ok (.error error) => .ok (overlay, .error error)
  | .ok (.ok normalized) =>
      if maxContentLen < (asBytes contents).length then
        .ok (overlay, .error .contentTooLong)
      else
        match overlay.slotAt normalized with
        | some i => overlay.writeSlot i normalized (asBytes contents)
        | none =>
            match overlay.freeSlot with
            | some i => overlay.writeSlot i normalized (asBytes contents)
            | none => .ok (overlay, .error .noSpace)

def remove (overlay : Overlay) (path : Str) : Checked (Overlay × Except VfsError Unit) :=
  match normalizePath path with
  | .error reason => .error reason
  | .ok (.error error) => .ok (overlay, .error error)
  | .ok (.ok normalized) =>
      match overlay.slotAt normalized with
      | some i => .ok (Function.update overlay i .empty, .ok ())
      | none =>
          if (find normalized).isSome then
            .ok (overlay, .error .readOnly)
          else
            .ok (overlay, .error .notFound)

def forEachEntry (overlay : Overlay) : List Str :=
  ((List.finRange maxOverlayFiles).filter fun i => (overlay i).used).filterMap
      (fun i => (overlay i).pathText) ++
    (files.filter fun file =>
      !(List.finRange maxOverlayFiles).any fun i => (overlay i).isAt (asBytes file.path)).map
      InitramfsFile.path

/-! ## Runs -/

inductive Op where
  | write (path contents : Str)
  | remove (path : Str)
  deriving DecidableEq

def Op.path : Op → Str
  | .write path _ => path
  | .remove path => path

def Op.perform (overlay : Overlay) : Op → Checked (Overlay × Except VfsError Unit)
  | .write path contents => Fs.write overlay path contents
  | .remove path => Fs.remove overlay path

/-- The table after a call; a call that panics does not return one. -/
def Op.apply (overlay : Overlay) (op : Op) : Overlay :=
  match op.perform overlay with
  | .error _ => overlay
  | .ok (overlay', _) => overlay'

end AetherOs.Fs
