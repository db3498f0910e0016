import AetherOs.Support.Attempt
import AetherOs.Support.Runs
import AetherOs.Support.Text
/-!
# The boot loader bundle

`stage_boot_tree` of `tools/xtask/src/main.rs` and the functions that fetch the
boot loader for it.  The bundle is downloaded, compared with a pinned digest and
extracted once; later runs take it from the `dist` directory when `BOOTX64.EFI`
is there.  Each operation of the outside world has an outcome, which says what
it left on the disk; the digest and the contents of an archive are parameters.
-/

namespace AetherOs.Xtask

open AetherOs.Support AetherOs.Support.Text

abbrev Bytes := List UInt8

abbrev Tree := Str → Option Bytes

def limineDownloadSha256 : Str :=
  "381c55e475a5b6f88afa73bb683fe985fb0d2c4252bfcf02420932c4a112fc8d".toList

def limineBootx64Name : Str := "BOOTX64.EFI".toList

/-- The part of the `dist` directory that the bundle passes through. -/
structure Disk where
  /-- `limine-v12.3.2/limine-binary.zip` -/
  archive : Option Bytes
  /-- `limine-v12.3.2/limine-binary` -/
  limine : Option Tree
  /-- `esp/EFI/BOOT/BOOTX64.EFI` -/
  staged : Option Bytes

namespace Disk

def empty : Disk := ⟨none, none, none⟩

def bootx64 (disk : Disk) : Option Bytes := disk.limine.bind (· limineBootx64Name)

end Disk

inductive StageError where
  | build
  | createCache
  | downloadUnavailable
  | download
  | readArchive
  | sha256Mismatch (actual : Str)
  | clearCache
  | extractUnavailable
  | extract
  | bundleMissing
  | kernelMissing
  | configMissing
  | recreateStage
  | createEfiBoot
  | copyKernel
  | copyConfig
  | copyEfiConfig
  | copyBootx64
  deriving DecidableEq, Repr

/-- An operation gets done, or fails and leaves something. -/
inductive Effect (α : Type) where
  | done
  | failed (left : α)

/-- A command that may not be installed. -/
inductive Download where
  | unavailable
  | failed (left : Option Bytes)
  | done (left : Option Bytes)

inductive Extraction where
  | unavailable
  | failed (left : Option Tree)
  | done

structure Outcomes where
  build : Bool
  createCache : Bool
  download : Download
  readArchive : Bool
  clear : Effect (Option Tree)
  extract : Extraction
  locateKernel : Bool
  locateConfig : Bool
  recreateStage : Effect (Option Bytes)
  createEfiBoot : Bool
  copyKernel : Bool
  copyConfig : Bool
  copyEfiConfig : Bool
  copyBootx64 : Effect (Option Bytes)

abbrev Staging := Attempt Disk StageError

section Model

variable (sha256 : Bytes → Str) (contents : Bytes → Tree) (o : Outcomes)

def downloadFile : Staging Unit :=
  match o.download with
  | .unavailable => .fail .downloadUnavailable
  | .failed left => do
      Attempt.update fun disk => { disk with archive := left }
      .fail .download
  | .done left => Attempt.update fun disk => { disk with archive := left }

def verifySha256 (expected : Str) : Staging Unit := do
  Attempt.expect o.readArchive .readArchive
  let disk ← Attempt.current
  match disk.archive with
  | none => .fail .readArchive
  | some bytes =>
      if sha256 bytes = expected then pure () else .fail (.sha256Mismatch (sha256 bytes))

/-- `remove_dir_all` of the old bundle. -/
def clearLimineCache : Staging Unit :=
  match o.clear with
  | .done => Attempt.update fun disk => { disk with limine := none }
  | .failed left => do
      Attempt.update fun disk => { disk with limine := left }
      .fail .clearCache

/-- `unzip`, or its counterpart on Windows. -/
def unpack : Staging Unit :=
  match o.extract with
  | .unavailable => .fail .extractUnavailable
  | .failed left => do
      Attempt.update fun disk => { disk with limine := left }
      .fail .extract
  | .done => Attempt.update fun disk => { disk with limine := disk.archive.map contents }

def extractZip : Staging Unit := do
  let disk ← Attempt.current
  (if disk.limine.isSome then clearLimineCache o else pure () : Staging Unit)
  unpack contents o

def downloadAndExtractLimine : Staging Unit := do
  Attempt.expect o.createCache .createCache
  downloadFile o
  verifySha256 sha256 o limineDownloadSha256
  extractZip contents o

def ensureLimineBundle : Staging Unit := do
  let disk ← Attempt.current
  if disk.bootx64.isSome then
    pure ()
  else
    downloadAndExtractLimine sha256 contents o
    let disk ← Attempt.current
    if disk.bootx64.isSome then pure () else .fail .bundleMissing

/-- `recreate_directory` of the staging tree. -/
def recreateStage : Staging Unit :=
  match o.recreateStage with
  | .done => Attempt.update fun disk => { disk with staged := none }
  | .failed left => do
      Attempt.update fun disk => { disk with staged := left }
      .fail .recreateStage

def copyBootx64 : Staging Unit :=
  match o.copyBootx64 with
  | .done => Attempt.update fun disk => { disk with staged := disk.bootx64 }
  | .failed left => do
      Attempt.update fun disk => { disk with staged := left }
      .fail .copyBootx64

def stageBootTree : Staging Unit := do
  Attempt.expect o.build .build
  ensureLimineBundle sha256 contents o
  Attempt.expect o.locateKernel .kernelMissing
  Attempt.expect o.locateConfig .configMissing
  recreateStage o
  Attempt.expect o.createEfiBoot .createEfiBoot
  Attempt.expect o.copyKernel .copyKernel
  Attempt.expect o.copyConfig .copyConfig
  Attempt.expect o.copyEfiConfig .copyEfiConfig
  copyBootx64 o

/-- The disk after a run of `xtask`, whether it succeeded or not. -/
def runXtask (disk : Disk) (o : Outcomes) : Disk :=
  match stageBootTree sha256 contents o disk with
  | some (_, disk') => disk'
  | none => disk

end Model

/-! ## What a run may leave -/

section Bundle

variable (sha256 : Bytes → Str) (contents : Bytes → Tree)

/-- Clearing that fails has removed some of the files; extraction that fails has
written some of them, perhaps not to their end. -/
structure Possible (disk : Disk) (o : Outcomes) : Prop where
  clear : ∀ tree, o.clear = .failed (some tree) →
    ∀ name, tree name = none ∨ ∃ old, disk.limine = some old ∧ tree name = old name
  extract : ∀ tree archive, o.extract = .failed (some tree) → o.download = .done (some archive) →
    ∀ name bytes, tree name = some bytes →
      ∃ full, contents archive name = some full ∧ bytes <+: full

def LoaderLast (o : Outcomes) : Prop :=
  ∀ tree archive, o.extract = .failed (some tree) → o.download = .done (some archive) →
    tree limineBootx64Name ≠ none → tree = contents archive

def Verified (disk : Disk) : Prop :=
  ∃ archive, sha256 archive = limineDownloadSha256 ∧ disk.limine = some (contents archive)

/-- A bundle with `BOOTX64.EFI`, which the next run will accept, is verified. -/
def Sound (disk : Disk) : Prop := disk.bootx64.isSome → Verified sha256 contents disk

end Bundle

section Proofs

variable {sha256 : Bytes → Str} {contents : Bytes → Tree} {o : Outcomes} {start : Disk}

theorem ensures_downloadFile :
    Attempt.Ensures (fun disk => disk.limine = start.limine) (downloadFile o)
      (fun _ disk => disk.limine = start.limine ∧ o.download = .done disk.archive)
      fun disk => disk.limine = start.limine := by
  unfold downloadFile
  split
  · exact .fail fun _ h => h
  · exact .bind (.update (Q := fun _ disk => disk.limine = start.limine) fun _ h => h)
      fun _ => .fail fun _ h => h
  · next left hdownload => exact .update fun _ h => ⟨h, hdownload⟩

def ArchiveChecked (sha256 : Bytes → Str) (o : Outcomes) (disk : Disk) : Prop :=
  ∃ archive, disk.archive = some archive ∧ o.download = .done (some archive) ∧
    sha256 archive = limineDownloadSha256

theorem ensures_verifySha256 :
    Attempt.Ensures (fun disk => disk.limine = start.limine ∧ o.download = .done disk.archive)
      (verifySha256 sha256 o limineDownloadSha256)
      (fun _ disk => disk.limine = start.limine ∧ ArchiveChecked sha256 o disk)
      fun disk => disk.limine = start.limine := by
  unfold verifySha256
  refine .expect_bind (fun _ h => h.1) (.current_bind fun disk => ?_)
  split
  · exact .fail fun _ h => h.2.1
  · next archive harchive =>
      split_ifs with hdigest
      · apply Attempt.Ensures.pure
        rintro _ ⟨rfl, hlimine, hdownload⟩
        rw [harchive] at hdownload
        exact ⟨hlimine, archive, harchive, hdownload, hdigest⟩
      · exact .fail fun _ h => h.2.1

theorem sound_of_bootx64 {disk : Disk} (h : disk.bootx64 = none) : Sound sha256 contents disk := by
  intro hsome
  rw [h] at hsome
  cases hsome

theorem ensures_clearLimineCache (hnone : start.bootx64 = none)
    (hpossible : Possible contents start o) :
    Attempt.Ensures (fun disk => disk.limine = start.limine ∧ ArchiveChecked sha256 o disk)
      (clearLimineCache o) (fun _ disk => disk.limine = none ∧ ArchiveChecked sha256 o disk)
      (Sound sha256 contents) := by
  unfold clearLimineCache
  split
  · exact .update fun _ h => ⟨rfl, h.2⟩
  · next left hclear =>
      refine .bind (.update (Q := fun _ => Sound sha256 contents) fun disk _ => ?_)
        fun _ => .fail fun _ h => h
      -- what is left of a bundle without `BOOTX64.EFI` has none
      apply sound_of_bootx64
      cases left with
      | none => rfl
      | some tree =>
          rcases hpossible.clear tree hclear limineBootx64Name with hgone | ⟨old, hold, hsame⟩
          · exact hgone
          · rw [Disk.bootx64, hold, Option.bind_some] at hnone
            exact hsame.trans hnone

theorem ensures_unpack (hlast : LoaderLast contents o) :
    Attempt.Ensures (fun disk => disk.limine = none ∧ ArchiveChecked sha256 o disk)
      (unpack contents o) (fun _ => Verified sha256 contents) (Sound sha256 contents) := by
  unfold unpack
  split
  · apply Attempt.Ensures.fail
    rintro disk ⟨hlimine, -⟩
    exact sound_of_bootx64 (by rw [Disk.bootx64, hlimine, Option.bind_none])
  · next left hextract =>
      refine .bind (.update (Q := fun _ => Sound sha256 contents) ?_) fun _ => .fail fun _ h => h
      rintro disk ⟨-, archive, -, hdownload, hdigest⟩ hsome
      cases left with
      | none => cases hsome
      | some tree =>
          have hloader : tree limineBootx64Name ≠ none := Option.isSome_iff_ne_none.mp hsome
          have hcomplete := hlast tree archive hextract hdownload hloader
          exact ⟨archive, hdigest, congrArg some hcomplete⟩
  · apply Attempt.Ensures.update
    rintro disk ⟨-, archive, harchive, -, hdigest⟩
    exact ⟨archive, hdigest, congrArg (Option.map contents) harchive⟩

theorem ensures_extractZip (hnone : start.bootx64 = none) (hpossible : Possible contents start o)
    (hlast : LoaderLast contents o) :
    Attempt.Ensures (fun disk => disk.limine = start.limine ∧ ArchiveChecked sha256 o disk)
      (extractZip contents o) (fun _ => Verified sha256 contents) (Sound sha256 contents) := by
  unfold extractZip
  refine .current_bind fun disk => .bind ?_ fun _ => ensures_unpack hlast
  split_ifs with hexists
  · exact (ensures_clearLimineCache hnone hpossible).weaken (fun _ h => h.2) (fun _ _ h => h)
      fun _ h => h
  · apply Attempt.Ensures.pure
    rintro _ ⟨rfl, -, hchecked⟩
    exact ⟨Option.not_isSome_iff_eq_none.mp hexists, hchecked⟩

theorem ensures_downloadAndExtractLimine (hnone : start.bootx64 = none)
    (hpossible : Possible contents start o) (hlast : LoaderLast contents o) :
    Attempt.Ensures (fun disk => disk.limine = start.limine)
      (downloadAndExtractLimine sha256 contents o) (fun _ => Verified sha256 contents)
      (Sound sha256 contents) := by
  have hkept : ∀ disk : Disk, disk.limine = start.limine → Sound sha256 contents disk := by
    intro disk hlimine
    exact sound_of_bootx64 (by rw [Disk.bootx64, hlimine]; exact hnone)
  unfold downloadAndExtractLimine
  apply Attempt.Ensures.expect_bind hkept
  apply Attempt.Ensures.bind (ensures_downloadFile.weaken (fun _ h => h) (fun _ _ h => h) hkept)
  intro _
  apply Attempt.Ensures.bind (ensures_verifySha256.weaken (fun _ h => h) (fun _ _ h => h) hkept)
  intro _
  exact ensures_extractZip hnone hpossible hlast

theorem ensures_ensureLimineBundle (hpossible : Possible contents start o)
    (hlast : LoaderLast contents o) (hsound : Sound sha256 contents start) :
    Attempt.Ensures (fun disk => disk = start) (ensureLimineBundle sha256 contents o)
      (fun _ disk => Verified sha256 contents disk ∧ disk.bootx64.isSome)
      (Sound sha256 contents) := by
  unfold ensureLimineBundle
  refine .current_bind fun disk => ?_
  split_ifs with hcached
  · -- the cached bundle is what earlier runs left
    apply Attempt.Ensures.pure
    rintro _ ⟨rfl, rfl⟩
    exact ⟨hsound hcached, hcached⟩
  · refine .bind (Q := fun _ => Verified sha256 contents) ?_
      fun _ => .current_bind fun disk' => ?_
    · rintro _ ⟨rfl, rfl⟩
      have hnone := Option.not_isSome_iff_eq_none.mp hcached
      exact ensures_downloadAndExtractLimine hnone hpossible hlast _ rfl
    · split_ifs with hloader
      · apply Attempt.Ensures.pure
        rintro _ ⟨rfl, hverified⟩
        exact ⟨hverified, hloader⟩
      · exact .fail fun _ h _ => h.2

/-! ## Staging -/

def Available (sha256 : Bytes → Str) (contents : Bytes → Tree) (disk : Disk) : Prop :=
  Verified sha256 contents disk ∧ disk.bootx64.isSome

theorem Available.sound {disk : Disk} (h : Available sha256 contents disk) :
    Sound sha256 contents disk := fun _ => h.1

theorem ensures_recreateStage :
    Attempt.Ensures (Available sha256 contents) (recreateStage o)
      (fun _ => Available sha256 contents) (Sound sha256 contents) := by
  unfold recreateStage
  split
  · exact .update fun _ h => h
  · exact .bind (.update (Q := fun _ => Available sha256 contents) fun _ h => h)
      fun _ => .fail fun _ h => h.sound

theorem ensures_copyBootx64 :
    Attempt.Ensures (Available sha256 contents) (copyBootx64 o)
      (fun _ disk => Available sha256 contents disk ∧ disk.staged = disk.bootx64)
      (Sound sha256 contents) := by
  unfold copyBootx64
  split
  · exact .update fun _ h => ⟨h, rfl⟩
  · exact .bind (.update (Q := fun _ => Available sha256 contents) fun _ h => h)
      fun _ => .fail fun _ h => h.sound

theorem ensures_stageBootTree (hpossible : Possible contents start o)
    (hlast : LoaderLast contents o) (hsound : Sound sha256 contents start) :
    Attempt.Ensures (fun disk => disk = start) (stageBootTree sha256 contents o)
      (fun _ disk => Available sha256 contents disk ∧ disk.staged = disk.bootx64)
      (Sound sha256 contents) := by
  have hkeeps : ∀ disk, Available sha256 contents disk → Sound sha256 contents disk :=
    fun _ h => h.sound
  unfold stageBootTree
  apply Attempt.Ensures.expect_bind fun _ h => h ▸ hsound
  apply Attempt.Ensures.bind (ensures_ensureLimineBundle hpossible hlast hsound)
  intro _
  apply Attempt.Ensures.expect_bind hkeeps
  apply Attempt.Ensures.expect_bind hkeeps
  apply Attempt.Ensures.bind ensures_recreateStage
  intro _
  apply Attempt.Ensures.expect_bind hkeeps
  apply Attempt.Ensures.expect_bind hkeeps
  apply Attempt.Ensures.expect_bind hkeeps
  apply Attempt.Ensures.expect_bind hkeeps
  exact ensures_copyBootx64

/-! ## Runs -/

/-- Each outcome is possible on this disk, and an extraction that fails leaves
`BOOTX64.EFI` behind only together with the rest of the archive. -/
def Orderly (contents : Bytes → Tree) (disk : Disk) (o : Outcomes) : Prop :=
  Possible contents disk o ∧ LoaderLast contents o

theorem sound_runXtask {disk : Disk} (hsound : Sound sha256 contents disk)
    (horderly : Orderly contents disk o) :
    Sound sha256 contents (runXtask sha256 contents disk o) := by
  have hends := ensures_stageBootTree horderly.1 horderly.2 hsound disk rfl
  unfold runXtask
  cases hrun : stageBootTree sha256 contents o disk with
  | none => exact hsound
  | some finish =>
      obtain ⟨result, disk'⟩ := finish
      cases result with
      | ok => exact (hends.1 () disk' hrun).1.sound
      | error e => exact hends.2 e disk' hrun

theorem sound_runs {runs : List Outcomes}
    (h : Runs.Along (runXtask sha256 contents) (Orderly contents) .empty runs) :
    Sound sha256 contents (Runs.exec (runXtask sha256 contents) .empty runs) :=
  Runs.exec_invariant_along (fun _ _ hsound horderly => sound_runXtask hsound horderly)
    (sound_of_bootx64 rfl) h

/-- After any runs that leave no partial bundle with `BOOTX64.EFI` in it, a
bundle that is accepted is verified and complete, and so is a loader that is
staged. -/
theorem accepted_bundle_verified (sha256 : Bytes → Str) (contents : Bytes → Tree)
    {runs : List Outcomes} {o : Outcomes} {disk : Disk}
    (hruns : Runs.Along (runXtask sha256 contents) (Orderly contents) .empty runs)
    (hdisk : disk = Runs.exec (runXtask sha256 contents) .empty runs)
    (horderly : Orderly contents disk o) :
    (∀ disk', ensureLimineBundle sha256 contents o disk = some (.ok (), disk') →
      Verified sha256 contents disk') ∧
    ∀ disk', stageBootTree sha256 contents o disk = some (.ok (), disk') →
      ∃ archive loader, sha256 archive = limineDownloadSha256 ∧
        contents archive limineBootx64Name = some loader ∧ disk'.staged = some loader := by
  have hsound : Sound sha256 contents disk := hdisk ▸ sound_runs hruns
  constructor
  · intro disk' hrun
    exact ((ensures_ensureLimineBundle horderly.1 horderly.2 hsound disk rfl).1 () disk' hrun).1
  · intro disk' hrun
    obtain ⟨⟨⟨archive, hdigest, hcontents⟩, hsome⟩, hstaged⟩ :=
      (ensures_stageBootTree horderly.1 horderly.2 hsound disk rfl).1 () disk' hrun
    obtain ⟨loader, hloader⟩ := Option.isSome_iff_exists.mp hsome
    refine ⟨archive, loader, hdigest, ?_, hstaged.trans hloader⟩
    rw [Disk.bootx64, hcontents, Option.bind_some] at hloader
    exact hloader

end Proofs

/-! ## Two histories -/

def pinnedArchive : Bytes := [0x50, 0x4B, 0x03, 0x04]

def pinnedSha256 (bytes : Bytes) : Str :=
  if bytes = pinnedArchive then limineDownloadSha256 else []

def pinnedContents (bytes : Bytes) : Tree := fun name =>
  if bytes ≠ pinnedArchive then none
  else if name = limineBootx64Name then some [0x4D, 0x5A]
  else if name = "limine.h".toList then some [0x2F]
  else none

def smoothRun : Outcomes where
  build := true
  createCache := true
  download := .done (some pinnedArchive)
  readArchive := true
  clear := .done
  extract := .done
  locateKernel := true
  locateConfig := true
  recreateStage := .done
  createEfiBoot := true
  copyKernel := true
  copyConfig := true
  copyEfiConfig := true
  copyBootx64 := .done

def interruptedRun (left : Tree) : Outcomes := { smoothRun with extract := .failed (some left) }

/-- The header was written, the loader was not. -/
def headerOnly : Tree := fun name => if name = "limine.h".toList then some [0x2F] else none

theorem orderly_smoothRun (disk : Disk) : Orderly pinnedContents disk smoothRun := by
  refine ⟨⟨?_, ?_⟩, ?_⟩
  · intro tree hclear
    cases hclear
  · intro tree archive hextract
    cases hextract
  · intro tree archive hextract
    cases hextract

theorem possible_interruptedRun {left : Tree} (disk : Disk)
    (h : ∀ name bytes, left name = some bytes →
      ∃ full, pinnedContents pinnedArchive name = some full ∧ bytes <+: full) :
    Possible pinnedContents disk (interruptedRun left) := by
  constructor
  · intro tree hclear
    cases hclear
  · intro tree archive hextract hdownload
    cases hextract
    cases hdownload
    exact h

/-- A run that was interrupted before the loader, and another attempt. -/
theorem accepted_bundle_verified_retry :
    ∃ disk', stageBootTree pinnedSha256 pinnedContents smoothRun
        (Runs.exec (runXtask pinnedSha256 pinnedContents) .empty [interruptedRun headerOnly]) =
          some (.ok (), disk') ∧
      ∃ archive loader, pinnedSha256 archive = limineDownloadSha256 ∧
        pinnedContents archive limineBootx64Name = some loader ∧ disk'.staged = some loader := by
  have hpossible : Possible pinnedContents .empty (interruptedRun headerOnly) := by
    apply possible_interruptedRun
    intro name bytes h
    unfold headerOnly at h
    split_ifs at h with hname
    cases h
    subst hname
    exact ⟨[0x2F], rfl, by decide⟩
  have hlast : LoaderLast pinnedContents (interruptedRun headerOnly) := by
    intro tree archive hextract _ hloader
    cases hextract
    exact absurd rfl hloader
  have hruns : Runs.Along (runXtask pinnedSha256 pinnedContents) (Orderly pinnedContents) .empty
      [interruptedRun headerOnly] := ⟨⟨hpossible, hlast⟩, trivial⟩
  refine ⟨_, rfl, ?_⟩
  exact (accepted_bundle_verified pinnedSha256 pinnedContents hruns rfl (orderly_smoothRun _)).2 _
    rfl

def truncatedLoader : Tree := fun name => if name = limineBootx64Name then some [0x4D] else none

/-- The next run takes the truncated loader from the cache. -/
theorem truncated_loader_accepted :
    Possible pinnedContents .empty (interruptedRun truncatedLoader) ∧
      ∃ disk', ensureLimineBundle pinnedSha256 pinnedContents smoothRun
          (Runs.exec (runXtask pinnedSha256 pinnedContents) .empty
            [interruptedRun truncatedLoader]) = some (.ok (), disk') ∧
        ¬Verified pinnedSha256 pinnedContents disk' ∧
        ∃ disk'', stageBootTree pinnedSha256 pinnedContents smoothRun disk' =
            some (.ok (), disk'') ∧ disk''.staged = some [0x4D] := by
  constructor
  · apply possible_interruptedRun
    intro name bytes h
    unfold truncatedLoader at h
    split_ifs at h with hname
    cases h
    subst hname
    exact ⟨[0x4D, 0x5A], rfl, by decide⟩
  · refine ⟨_, rfl, ?_, _, rfl, rfl⟩
    rintro ⟨archive, hdigest, hcontents⟩
    have harchive : archive = pinnedArchive := by
      by_contra hne
      rw [pinnedSha256, if_neg hne] at hdigest
      cases hdigest
    subst harchive
    have hloader := congrFun (Option.some.inj hcontents) limineBootx64Name
    revert hloader
    decide

end AetherOs.Xtask
