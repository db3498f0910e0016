import AetherOs.Kernel.Scancodes
/-!
# Scripted typing

`send_shell_command` of `tools/xtask/src/main.rs` types a command through the
QEMU monitor, one `sendkey` line per character, and the keyboard driver of the
kernel decodes the scancodes that QEMU makes of it.  QEMU is a parameter:
`Sendkey` is what its manual promises.
-/

namespace AetherOs.Xtask

open AetherOs.Support AetherOs.Support.Text AetherOs.Drivers.Keyboard AetherOs.Kernel

/-- `unsupported shell-check key: {ch:?}` -/
structure UnsupportedKey where
  ch : Char
  deriving DecidableEq, Repr

def qemuSendkeyName (ch : Char) : Except UnsupportedKey Str :=
  if ('a' ≤ ch ∧ ch ≤ 'z') ∨ ('0' ≤ ch ∧ ch ≤ '9') then .ok [ch]
  else if 'A' ≤ ch ∧ ch ≤ 'Z' then .ok ("shift-".toList ++ [ch.toLower])
  else if ch = ' ' then .ok "spc".toList
  else if ch = '-' then .ok "minus".toList
  else if ch = '=' then .ok "equal".toList
  else if ch = '[' then .ok "bracket_left".toList
  else if ch = ']' then .ok "bracket_right".toList
  else if ch = ';' then .ok "semicolon".toList
  else if ch = '\'' then .ok "apostrophe".toList
  else if ch = ',' then .ok "comma".toList
  else if ch = '.' then .ok "dot".toList
  else if ch = '/' then .ok "slash".toList
  else if ch = '\\' then .ok "backslash".toList
  else .error ⟨ch⟩

def sendkeyLine (name : Str) : Str := "sendkey ".toList ++ name

/-- The loop of `send_shell_command`: the lines sent to the monitor and, if a
key is not supported, the error that ends it. -/
def sendKeys : Str → List Str × Except UnsupportedKey Unit
  | [] => ([], .ok ())
  | key :: keys =>
      match qemuSendkeyName key with
      | .error error => ([], .error error)
      | .ok name => (sendkeyLine name :: (sendKeys keys).1, (sendKeys keys).2)

def sendShellCommand (command : Str) : List Str × Except UnsupportedKey Unit :=
  match sendKeys command with
  | (lines, .error error) => (lines, .error error)
  | (lines, .ok ()) => (lines ++ [sendkeyLine "ret".toList], .ok ())

/-! ## QEMU -/

/-- The key names of QEMU that the script uses, with the make codes of a US
keyboard in set 1. -/
def keyTable : List (Str × UInt8) := [
  ("1".toList, 0x02), ("2".toList, 0x03), ("3".toList, 0x04), ("4".toList, 0x05),
  ("5".toList, 0x06), ("6".toList, 0x07), ("7".toList, 0x08), ("8".toList, 0x09),
  ("9".toList, 0x0A), ("0".toList, 0x0B), ("minus".toList, 0x0C), ("equal".toList, 0x0D),
  ("q".toList, 0x10), ("w".toList, 0x11), ("e".toList, 0x12), ("r".toList, 0x13),
  ("t".toList, 0x14), ("y".toList, 0x15), ("u".toList, 0x16), ("i".toList, 0x17),
  ("o".toList, 0x18), ("p".toList, 0x19), ("bracket_left".toList, 0x1A),
  ("bracket_right".toList, 0x1B), ("ret".toList, 0x1C), ("a".toList, 0x1E), ("s".toList, 0x1F),
  ("d".toList, 0x20), ("f".toList, 0x21), ("g".toList, 0x22), ("h".toList, 0x23),
  ("j".toList, 0x24), ("k".toList, 0x25), ("l".toList, 0x26), ("semicolon".toList, 0x27),
  ("apostrophe".toList, 0x28), ("shift".toList, 0x2A), ("backslash".toList, 0x2B),
  ("z".toList, 0x2C), ("x".toList, 0x2D), ("c".toList, 0x2E), ("v".toList, 0x2F),
  ("b".toList, 0x30), ("n".toList, 0x31), ("m".toList, 0x32), ("comma".toList, 0x33),
  ("dot".toList, 0x34), ("slash".toList, 0x35), ("spc".toList, 0x39) ]

def makeCode (name : Str) : Option UInt8 := keyTable.lookup name

def breakCode (make : UInt8) : UInt8 := make ||| 0x80

def chordLine (names : List Str) : Str := sendkeyLine (['-'].intercalate names)

/-- `sendkey` presses the keys of a chord in order and releases them afterwards,
in any order. -/
def Sendkey (deliver : Str → List UInt8) : Prop :=
  ∀ names makes, names ≠ [] → names.mapM makeCode = some makes →
    ∃ breaks, breaks.Perm (makes.map breakCode) ∧ deliver (chordLine names) = makes ++ breaks

/-! ## Releases -/

theorem decodeScancode_release {code : UInt8} (h : code &&& 0x80 ≠ 0) (shift : Bool) :
    decodeScancode code shift = (shift && !decide (code = 0xAA ∨ code = 0xB6), none) := by
  have hnot : ¬(code = 0x2A ∨ code = 0x36) := by
    rintro (rfl | rfl)
    · exact h (by decide)
    · exact h (by decide)
  rw [decodeScancode, classify, if_neg hnot]
  by_cases hshift : code = 0xAA ∨ code = 0xB6
  · rw [if_pos hshift]
    simp [hshift]
  · rw [if_neg hshift, if_pos h]
    simp [hshift]

theorem decodeAll_releases {codes : List UInt8} (h : ∀ code ∈ codes, code &&& 0x80 ≠ 0)
    (shift : Bool) : decodeAll shift codes = [] := by
  induction codes generalizing shift with
  | nil => rfl
  | cons code codes ih =>
      rw [decodeAll, decodeScancode_release (h code (by simp))]
      exact ih (fun code' hcode' => h code' (by simp [hcode'])) _

theorem shiftAfter_releases {codes : List UInt8} (h : ∀ code ∈ codes, code &&& 0x80 ≠ 0)
    {shift : Bool} (hshift : shift = false ∨ 0xAA ∈ codes) : shiftAfter shift codes = false := by
  induction codes generalizing shift with
  | nil => simpa [shiftAfter] using hshift
  | cons code codes ih =>
      have hcodes : ∀ code' ∈ codes, code' &&& 0x80 ≠ 0 := fun code' hcode' =>
        h code' (by simp [hcode'])
      rw [shiftAfter, List.foldl_cons, decodeScancode_release (h code (by simp))]
      apply ih hcodes
      rcases hshift with rfl | hmem
      · exact Or.inl rfl
      · rcases List.mem_cons.mp hmem with rfl | hlater
        · left
          simp
        · exact Or.inr hlater

/-! ## The two tables agree -/

structure Types (ch : Char) (makes : List UInt8) : Prop where
  event : decodeAll false makes = [.char ch]
  releases : ∀ code ∈ makes.map breakCode, code &&& 0x80 ≠ 0
  shift : shiftAfter false makes = false ∨ 0xAA ∈ makes.map breakCode

instance (ch : Char) (makes : List UInt8) : Decidable (Types ch makes) :=
  -- go through the list, not through all bytes
  letI := List.decidableBAll (fun code : UInt8 => code &&& 0x80 ≠ 0) (makes.map breakCode)
  decidable_of_iff
    (decodeAll false makes = [.char ch] ∧ (∀ code ∈ makes.map breakCode, code &&& 0x80 ≠ 0) ∧
      (shiftAfter false makes = false ∨ 0xAA ∈ makes.map breakCode))
    ⟨fun h => ⟨h.1, h.2.1, h.2.2⟩, fun h => ⟨h.event, h.releases, h.shift⟩⟩

def spelled (ch : Char) : Bool :=
  match qemuSendkeyName ch with
  | .error _ => true
  | .ok name =>
      let names := name.splitOn '-'
      match names.mapM makeCode with
      | none => false
      | some makes => names ≠ [] ∧ ['-'].intercalate names = name ∧ Types ch makes

theorem spelled_ascii : ∀ n < 128, spelled (Char.ofNat n) = true := by decide +kernel

theorem lt_of_qemuSendkeyName {ch : Char} {name : Str} (h : qemuSendkeyName ch = .ok name) :
    ch.toNat < 128 := by
  by_contra hlarge
  have hgt : ∀ last : Char, last.toNat < 128 → ¬ch ≤ last :=
    fun last hlast hle => hlarge (lt_of_le_of_lt hle hlast)
  have hne : ∀ c : Char, c.toNat < 128 → ch ≠ c :=
    fun c hc heq => hlarge (heq ▸ hc)
  have hlower : ¬(('a' ≤ ch ∧ ch ≤ 'z') ∨ ('0' ≤ ch ∧ ch ≤ '9')) := by
    rintro (hlower | hdigit)
    · exact hgt 'z' (by decide) hlower.2
    · exact hgt '9' (by decide) hdigit.2
  have hupper : ¬('A' ≤ ch ∧ ch ≤ 'Z') := fun hupper => hgt 'Z' (by decide) hupper.2
  rw [qemuSendkeyName, if_neg hlower, if_neg hupper, if_neg (hne ' ' (by decide)),
    if_neg (hne '-' (by decide)), if_neg (hne '=' (by decide)), if_neg (hne '[' (by decide)),
    if_neg (hne ']' (by decide)), if_neg (hne ';' (by decide)), if_neg (hne '\'' (by decide)),
    if_neg (hne ',' (by decide)), if_neg (hne '.' (by decide)), if_neg (hne '/' (by decide)),
    if_neg (hne '\\' (by decide))] at h
  cases h

theorem types_of_qemuSendkeyName {ch : Char} {name : Str} (h : qemuSendkeyName ch = .ok name) :
    ∃ names makes, names ≠ [] ∧ names.mapM makeCode = some makes ∧
      sendkeyLine name = chordLine names ∧ Types ch makes := by
  have hspelled := spelled_ascii ch.toNat (lt_of_qemuSendkeyName h)
  rw [Char.ofNat_toNat, spelled, h] at hspelled
  dsimp only at hspelled
  split at hspelled
  · cases hspelled
  · next makes hmakes =>
      obtain ⟨hne, hname, htypes⟩ := of_decide_eq_true hspelled
      refine ⟨name.splitOn '-', makes, hne, hmakes, ?_, htypes⟩
      rw [chordLine, hname]

/-- Whatever was typed before, the key of a character types that character. -/
theorem decode_key {deliver : Str → List UInt8} (hdeliver : Sendkey deliver) {ch : Char}
    {name : Str} (h : qemuSendkeyName ch = .ok name) :
    decodeAll false (deliver (sendkeyLine name)) = [.char ch] ∧
      shiftAfter false (deliver (sendkeyLine name)) = false := by
  obtain ⟨names, makes, hne, hmakes, hline, htypes⟩ := types_of_qemuSendkeyName h
  obtain ⟨breaks, hperm, hcodes⟩ := hdeliver names makes hne hmakes
  have hreleases : ∀ code ∈ breaks, code &&& 0x80 ≠ 0 := fun code hcode =>
    htypes.releases code (hperm.mem_iff.mp hcode)
  rw [hline, hcodes, decodeAll_append, shiftAfter_append, decodeAll_releases hreleases,
    htypes.event]
  refine ⟨rfl, shiftAfter_releases hreleases ?_⟩
  rw [hperm.mem_iff]
  exact htypes.shift

theorem deliver_ret {deliver : Str → List UInt8} (hdeliver : Sendkey deliver) :
    deliver (sendkeyLine "ret".toList) = [0x1C, 0x9C] := by
  obtain ⟨breaks, hperm, hcodes⟩ := hdeliver ["ret".toList] [0x1C] (by simp) (by decide)
  have hbreaks : breaks = [0x9C] := List.perm_singleton.mp hperm
  rw [hbreaks] at hcodes
  exact hcodes

/-! ## Whole commands -/

def Accepted (command : Str) : Prop := ∀ ch ∈ command, ∃ name, qemuSendkeyName ch = .ok name

theorem sendKeys_spec {deliver : Str → List UInt8} (hdeliver : Sendkey deliver) {command : Str}
    (h : Accepted command) :
    (sendKeys command).2 = .ok () ∧
      decodeAll false ((sendKeys command).1.flatMap deliver) = command.map .char ∧
      shiftAfter false ((sendKeys command).1.flatMap deliver) = false := by
  induction command with
  | nil => exact ⟨rfl, rfl, rfl⟩
  | cons key keys ih =>
      obtain ⟨name, hname⟩ := h key (by simp)
      obtain ⟨hok, hevents, hshift⟩ := ih fun ch hch => h ch (by simp [hch])
      obtain ⟨hevent, hreleased⟩ := decode_key hdeliver hname
      simp only [sendKeys, hname, List.flatMap_cons, decodeAll_append, shiftAfter_append, hevent,
        hreleased, hevents, hshift, hok, List.map_cons, List.singleton_append, and_self]

theorem sendShellCommand_eq {command : Str} (h : (sendKeys command).2 = .ok ()) :
    sendShellCommand command = ((sendKeys command).1 ++ [sendkeyLine "ret".toList], .ok ()) := by
  have hpair : sendKeys command = ((sendKeys command).1, .ok ()) := Prod.ext rfl h
  rw [sendShellCommand, hpair]

theorem feedScancode_enter (s : KernelState) :
    (feedScancode 0x1C).run s = (onKey .enter).run s := by
  rw [feedScancode, run_decode]
  rfl

theorem feedScancode_enterReleased (s : KernelState) : (feedScancode 0x9C).run s = some s := by
  rw [feedScancode, run_decode]
  rfl

theorem runAll_ret (s : KernelState) :
    Prog.runAll (([0x1C, 0x9C] : List UInt8).map feedScancode) s = (onKey .enter).run s := by
  rw [List.map_cons, Prog.runAll_cons, feedScancode_enter]
  cases (onKey .enter).run s with
  | none => rfl
  | some s' =>
      rw [Option.bind_some, List.map_singleton, Prog.runAll_cons, feedScancode_enterReleased]
      rfl

theorem executedLines_ret {s : KernelState} (hup : s.shell.initialized = true) :
    executedLines [0x1C, 0x9C] s = s.shell.enteredLine.toList := by
  have hby : executedBy s 0x1C = s.shell.enteredLine := if_pos ⟨rfl, hup⟩
  -- the release executes nothing, whatever state the command left
  have hreleased : ∀ s', executedLines [0x9C] s' = [] := by
    intro s'
    rw [executedLines, feedScancode_enterReleased]
    rfl
  rw [executedLines, hby]
  split
  · rw [hreleased, List.append_nil]
  · exact List.append_nil _

/-- A scripted command arrives intact: the shell executes it trimmed and nothing
else, and is ready for the next one. -/
theorem scripted_command_arrives {deliver : Str → List UInt8} (hdeliver : Sendkey deliver)
    {command : Str} (haccepted : Accepted command) (hlen : command.length ≤ maxLineLen)
    {s : KernelState} (hup : s.shell.initialized = true) (hempty : s.shell.len = 0)
    (hshift : s.shiftPressed = false) :
    let codes := (sendShellCommand command).1.flatMap deliver
    (sendShellCommand command).2 = .ok () ∧
      executedLines codes s = (if trim command = [] then [] else [trim command]) ∧
      (∃ typed,
        Prog.runAll (((sendKeys command).1.flatMap deliver).map feedScancode) s = some typed ∧
        typed.shell.line = some (trim command) ∧
        Prog.runAll (codes.map feedScancode) s =
          (Prog.seq [print ['\n'], reply typed.shell, updateShell Shell.clearLine, prompt]).run
            typed) ∧
      ∀ s', Prog.runAll (codes.map feedScancode) s = some s' →
        s'.shiftPressed = false ∧ s'.shell.len = 0 := by
  obtain ⟨hok, hevents, hreleased⟩ := sendKeys_spec hdeliver haccepted
  have hcodes : (sendShellCommand command).1.flatMap deliver =
      (sendKeys command).1.flatMap deliver ++ [0x1C, 0x9C] := by
    rw [sendShellCommand_eq hok, List.flatMap_append, List.flatMap_singleton, deliver_ret hdeliver]
  have hstart := follows_nil hup hempty
  have hevents' : decodeAll s.shiftPressed ((sendKeys command).1.flatMap deliver) =
      command.map .char := by
    rw [hshift]
    exact hevents
  have henter : .enter ∉ decodeAll s.shiftPressed ((sendKeys command).1.flatMap deliver) := by
    rw [hevents']
    simp
  obtain ⟨typed, htyped⟩ := hstart.scancodes_complete henter
  obtain ⟨hfollows, htypedShift⟩ := hstart.scancodes htyped
  rw [hshift, hreleased] at htypedShift
  have hsurviving : surviving ((decodeAll s.shiftPressed
      ((sendKeys command).1.flatMap deliver)).foldl restart []) = command := by
    rw [hevents', ← sinceRestart, sinceRestart_chars hlen, surviving_chars]
  have hline : typed.shell.line = some (trim command) := by
    have hascii : Ascii command := fun ch hch =>
      (haccepted ch hch).elim fun _ hname => lt_of_qemuSendkeyName hname
    rw [line_of_ascii hfollows (by rw [hsurviving]; exact hascii), hsurviving]
  intro codes
  have hrun : Prog.runAll (codes.map feedScancode) s = (onKey .enter).run typed := by
    change Prog.runAll (((sendShellCommand command).1.flatMap deliver).map feedScancode) s = _
    rw [hcodes, List.map_append, Prog.runAll_append, htyped, Option.bind_some, runAll_ret]
  refine ⟨by rw [sendShellCommand_eq hok], ?_, ⟨typed, htyped, hline, ?_⟩, ?_⟩
  · change executedLines ((sendShellCommand command).1.flatMap deliver) s = _
    rw [hcodes, executedLines_append htyped, hstart.executedLines_eq_nil henter, List.nil_append,
      executedLines_ret hfollows.initialized, Shell.enteredLine, hline]
    by_cases hblank : trim command = [] <;> simp [hblank, Option.filter]
  · rw [hrun, run_onKey_enter hfollows.initialized]
  · intro s' hs'
    rw [hrun] at hs'
    rw [onKey_spec hfollows.initialized hs']
    exact ⟨htypedShift, rfl⟩

/-! ## QEMU as it is -/

/-- `sendkey` releases the keys in the opposite order. -/
def qemuSendkey (line : Str) : List UInt8 :=
  match stripPrefix "sendkey ".toList line with
  | none => []
  | some chord =>
      match (chord.splitOn '-').mapM makeCode with
      | none => []
      | some makes => makes ++ (makes.map breakCode).reverse

theorem notMem_dash_of_makeCode {name : Str} {make : UInt8} (h : makeCode name = some make) :
    '-' ∉ name := by
  obtain ⟨before, after, htable, -⟩ := List.lookup_eq_some_iff.mp h
  have hmem : (name, make) ∈ keyTable := by
    rw [htable]
    simp
  have hnames : ∀ entry ∈ keyTable, '-' ∉ entry.1 := by decide
  exact hnames _ hmem

theorem notMem_dash_of_mapM {names : List Str} {makes : List UInt8}
    (h : names.mapM makeCode = some makes) : ∀ name ∈ names, '-' ∉ name := by
  induction names generalizing makes with
  | nil => simp
  | cons name names ih =>
      simp only [List.mapM_cons, Option.bind_eq_bind, Option.bind_eq_some_iff] at h
      obtain ⟨make, hmake, makes', hmakes, -⟩ := h
      intro name' hname'
      rcases List.mem_cons.mp hname' with rfl | hlater
      · exact notMem_dash_of_makeCode hmake
      · exact ih hmakes name' hlater

theorem sendkey_qemuSendkey : Sendkey qemuSendkey := by
  intro names makes hne hmakes
  refine ⟨(makes.map breakCode).reverse, List.reverse_perm _, ?_⟩
  have hstrip : stripPrefix "sendkey ".toList (chordLine names) = some (['-'].intercalate names) :=
    stripPrefix_append _ _
  have hsplit : (['-'].intercalate names).splitOn '-' = names :=
    List.splitOn_intercalate _ (notMem_dash_of_mapM hmakes) hne
  rw [qemuSendkey, hstrip]
  dsimp only
  rw [hsplit, hmakes]

def scriptedWrite : Str := " write /Notes.txt Hi ".toList

theorem accepted_scriptedWrite : Accepted scriptedWrite := by
  have hok : ∀ ch ∈ scriptedWrite, (qemuSendkeyName ch).isOk = true := by decide
  intro ch hch
  have hch := hok ch hch
  cases hname : qemuSendkeyName ch with
  | error error =>
      rw [hname] at hch
      cases hch
  | ok name => exact ⟨name, rfl⟩

theorem scripted_command_arrives_write :
    Sendkey qemuSendkey ∧ Accepted scriptedWrite ∧ scriptedWrite.length ≤ maxLineLen ∧
      shellUp.shell.initialized = true ∧ shellUp.shell.len = 0 ∧ shellUp.shiftPressed = false ∧
      executedLines ((sendShellCommand scriptedWrite).1.flatMap qemuSendkey) shellUp =
        ["write /Notes.txt Hi".toList] := by
  have harrives := scripted_command_arrives sendkey_qemuSendkey accepted_scriptedWrite
    (by decide) (s := shellUp) rfl rfl rfl
  exact ⟨sendkey_qemuSendkey, accepted_scriptedWrite, by decide, rfl, rfl, rfl,
    harrives.2.1.trans (by decide)⟩

end AetherOs.Xtask
