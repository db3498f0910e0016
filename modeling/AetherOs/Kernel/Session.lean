import AetherOs.Fs.Listing
import AetherOs.Kernel.Scancodes
/-!
# Files typed at the shell

A session is what a user does at the keyboard, in any order and with whatever
the rest of the kernel does in between.  In every state of a session the overlay
stands for a map whose keys are words that can be typed, so a file written with
`write` is what `cat` prints later, and every name that `ls` lists can be given
to `cat` and `rm`.
-/

namespace AetherOs.Kernel

open AetherOs.Support AetherOs.Support.Text AetherOs.Support.Word AetherOs.Fs AetherOs.Drivers
open AetherOs.Drivers.Keyboard

/-! ## Typing a line -/

def typeLine (line : Str) : List KeyEvent := line.map .char ++ [.enter]

/-- Typing text that fits echoes it and stores it. -/
theorem run_typing (text : Str) {s : KernelState} (hup : s.shell.initialized = true)
    (hroom : s.shell.len + text.length ≤ maxLineLen) :
    ∃ shell, shell.initialized = true ∧ shell.lineBytes = s.shell.lineBytes ++ stored text ∧
      Prog.runAll ((text.map KeyEvent.char).map onKey) s =
        some { s with shell := shell, serial := s.serial ++ text } := by
  induction text generalizing s with
  | nil =>
      refine ⟨s.shell, hup, (List.append_nil _).symm, ?_⟩
      rw [List.append_nil]
      rfl
  | cons c text ih =>
      rw [List.length_cons] at hroom
      have hlt : s.shell.len < maxLineLen := by omega
      let s₁ : KernelState := { s with shell := s.shell.push c, serial := s.serial ++ [c] }
      have hbytes : s₁.shell.lineBytes = s.shell.lineBytes ++ stored [c] := Shell.push_of_lt hlt c
      have hlen : s₁.shell.len = s.shell.len + 1 := by
        rw [← Shell.length_lineBytes, hbytes, List.length_append, Shell.length_lineBytes]
        rfl
      have hup₁ : s₁.shell.initialized = true := by
        change (s.shell.push c).initialized = true
        rw [Shell.push, dif_pos (Nat.succ_le_of_lt hlt)]
        exact hup
      obtain ⟨shell, hinit, hline, hrun⟩ := ih hup₁ (by omega)
      refine ⟨shell, hinit, ?_, ?_⟩
      · rw [hline, hbytes, List.append_assoc, ← stored_append]
        rfl
      · rw [List.map_cons, List.map_cons, Prog.runAll_cons, run_onKey_char hup hlt,
          Option.bind_some, hrun]
        simp [s₁]

/-- Typing a line on an empty one executes it, if it is not blank. -/
theorem run_typeLine {line command : Str} {s : KernelState} (hup : s.shell.initialized = true)
    (hempty : s.shell.len = 0) (hlen : line.length ≤ maxLineLen) (hascii : Ascii line)
    (htrim : trim line = command) (hne : command ≠ []) :
    ∃ shell, shell.initialized = true ∧
      Prog.runAll ((typeLine line).map onKey) s =
        ((executeCommand command).run
          { s with shell := shell, serial := s.serial ++ line ++ ['\n'] }).map
          fun s' => { s' with
            shell := s'.shell.clearLine
            serial := s'.serial ++ "aether> ".toList } := by
  obtain ⟨shell, hinit, hbytes, htyped⟩ := run_typing line hup (by omega)
  have hnil : s.shell.lineBytes = [] :=
    List.eq_nil_of_length_eq_zero (by rw [Shell.length_lineBytes, hempty])
  rw [hnil, List.nil_append, stored, ← asBytes_of_ascii hascii] at hbytes
  have hline : shell.line = some command := by
    rw [Shell.line, hbytes, fromUtf8_asBytes, Option.map_some, htrim]
  have hreply : reply shell = executeCommand command :=
    reply_of_some (Shell.enteredLine_eq_some.mpr ⟨hline, hne⟩)
  refine ⟨shell, hinit, ?_⟩
  rw [typeLine, List.map_append, Prog.runAll_append, htyped, Option.bind_some, List.map_singleton,
    Prog.runAll_cons, run_onKey_enter hinit, hreply]
  simp only [Prog.run_seq_cons, run_print, Option.bind_some]
  cases (executeCommand command).run
      { s with shell := shell, serial := s.serial ++ line ++ ['\n'] } with
  | none => rfl
  | some s' => rfl

/-! ## Commands on files -/

variable {s s' : KernelState} {M : FileMap}

theorem run_vfsRead (h : Refines s.overlay M) (path : Str) (k : Option Str → Program) :
    (vfsRead path k).run s = (k (M.read path)).run s := by
  unfold vfsRead FileMap.read
  rw [normalizePath_eq]
  cases normalForm path with
  | error error => rfl
  | ok key =>
      dsimp only
      rw [Prog.run_lock, Prog.run_inspect, Prog.run_unlock, h.readOverlay_eq]
      cases M.lookup key <;> rfl

theorem run_vfsPerform (h : Refines s.overlay M) (op : Op) (k : Except VfsError Unit → Program) :
    (vfsPerform op k).run s =
      (k ((M.perform op).map fun _ => ())).run { s with overlay := op.apply s.overlay } := by
  have hagrees := h.perform_agrees op
  rw [vfsPerform, Prog.run_lock, Prog.run_act]
  cases hperform : M.perform op with
  | error error =>
      rw [hperform] at hagrees
      rw [show op.perform s.overlay = .ok (s.overlay, .error error) from hagrees]
      rfl
  | ok M' =>
      rw [hperform] at hagrees
      obtain ⟨overlay, hconcrete, -⟩ := hagrees
      rw [hconcrete]
      rfl

/-- An operation that fails its checks is the abstract operation too. -/
theorem run_of_error (h : Refines s.overlay M) (op : Op) {error : VfsError}
    (hop : M.perform op = .error error) (k : Except VfsError Unit → Program) :
    (k (.error error)).run s =
      (k ((M.perform op).map fun _ => ())).run { s with overlay := op.apply s.overlay } := by
  rw [hop, h.apply_of_error hop]
  rfl

theorem run_vfsWrite (h : Refines s.overlay M) (path contents : Str)
    (k : Except VfsError Unit → Program) :
    (vfsWrite path contents k).run s =
      (k ((M.write path contents).map fun _ => ())).run
        { s with overlay := (Op.write path contents).apply s.overlay } := by
  unfold vfsWrite
  rw [normalizePath_eq]
  cases hkey : normalForm path with
  | error error =>
      refine run_of_error h (.write path contents) ?_ k
      simp only [FileMap.perform, FileMap.write, hkey]
  | ok key =>
      dsimp only
      split_ifs with hlong
      · refine run_of_error h (.write path contents) ?_ k
        simp only [FileMap.perform, FileMap.write, hkey]
        exact if_pos hlong
      · exact run_vfsPerform h (.write path contents) k

theorem run_vfsRemove (h : Refines s.overlay M) (path : Str)
    (k : Except VfsError Unit → Program) :
    (vfsRemove path k).run s =
      (k ((M.remove path).map fun _ => ())).run
        { s with overlay := (Op.remove path).apply s.overlay } := by
  unfold vfsRemove
  rw [normalizePath_eq]
  cases hkey : normalForm path with
  | error error =>
      refine run_of_error h (.remove path) ?_ k
      simp only [FileMap.perform, FileMap.remove, hkey]
  | ok key => exact run_vfsPerform h (.remove path) k

def fileReply (M : FileMap) : Op → Str
  | .write path contents =>
      match M.write path contents with
      | .ok _ => "written: ".toList ++ path
      | .error error => "write failed: ".toList ++ error.message
  | .remove path =>
      match M.remove path with
      | .ok _ => "removed: ".toList ++ path
      | .error error => "remove failed: ".toList ++ error.message

theorem run_fileCommand (h : Refines s.overlay M) (op : Op) :
    (fileCommand op).run s = some { s with
      overlay := op.apply s.overlay
      serial := s.serial ++ fileReply M op ++ ['\n'] } := by
  cases op with
  | write path contents =>
      rw [fileCommand, run_vfsWrite h, fileReply]
      cases M.write path contents <;> exact run_println _ _
  | remove path =>
      rw [fileCommand, run_vfsRemove h, fileReply]
      cases M.remove path <;> exact run_println _ _

/-! ## Sessions -/

/-- What happens at the keyboard: keys of printable characters, `Enter` on lines
that are `allowed`, and between two keys anything that leaves the shell and the
files alone. -/
inductive Session (allowed : Str → Prop) (start : KernelState) : KernelState → Prop
  | refl : Session allowed start start
  | key {s s' : KernelState} {event : KeyEvent} (before : Session allowed start s)
      (printable : ∀ c, event = .char c → Printable c)
      (entered : event = .enter → ∀ command ∈ s.shell.enteredLine, allowed command)
      (run : (onKey event).run s = some s') : Session allowed start s'
  | background {s s' : KernelState} (before : Session allowed start s)
      (shell : s'.shell = s.shell) (overlay : s'.overlay = s.overlay) : Session allowed start s'

/-- A state of a session that began with an empty overlay and an empty line. -/
def Reachable (s : KernelState) : Prop :=
  ∃ start, start.shell.initialized = true ∧ start.shell.len = 0 ∧ start.overlay = .empty ∧
    Session (fun _ => True) start s

/-- A word that can be typed: printable and without spaces. -/
structure Token (text : Str) : Prop where
  ne_nil : text ≠ []
  printable : ∀ c ∈ text, Printable c
  notMem_space : ' ' ∉ text

theorem isWhitespace_of_printable {c : Char} (h : Printable c) (hne : c ≠ ' ') :
    isWhitespace c = false := by
  obtain ⟨hlow, hhigh⟩ := h
  have hspace : c.toNat ≠ 0x20 := fun heq => hne (Char.ext (UInt32.toNat_inj.mp heq))
  unfold isWhitespace
  simp only [Bool.or_eq_false_iff, Bool.and_eq_false_iff, decide_eq_false_iff_not]
  omega

theorem Token.solid {text : Str} (h : Token text) : Solid text := by
  intro c hc
  apply isWhitespace_of_printable (h.printable c hc)
  rintro rfl
  exact h.notMem_space hc

def Typable (M : FileMap) : Prop := ∀ key ∈ M.keys, Token key

def PrintableLine (shell : Shell) : Prop :=
  ∃ events, Follows events shell ∧ ∀ c, .char c ∈ events → Printable c

theorem mem_of_mem_restart {events : List KeyEvent} {event event' : KeyEvent}
    (h : event' ∈ restart events event) : event' ∈ events ∨ event' = event := by
  cases event with
  | enter => cases h
  | backspace => simpa [restart] using h
  | char character =>
      rw [restart] at h
      split_ifs at h
      · simpa using h
      · cases h

theorem PrintableLine.afterKey {shell : Shell} {event : KeyEvent} (h : PrintableLine shell)
    (hevent : ∀ c, event = .char c → Printable c) : PrintableLine (shell.afterKey event) := by
  obtain ⟨events, hfollows, hprintable⟩ := h
  refine ⟨restart events event, hfollows.afterKey event, fun c hc => ?_⟩
  rcases mem_of_mem_restart hc with hold | hnew
  · exact hprintable c hold
  · exact hevent c hnew.symm

theorem PrintableLine.entered {shell : Shell} {command : Str} (h : PrintableLine shell)
    (hcommand : shell.enteredLine = some command) : ∀ c ∈ command, Printable c := by
  obtain ⟨events, hfollows, hprintable⟩ := h
  have hsurviving : ∀ c ∈ surviving events, Printable c := fun c hc =>
    hprintable c (surviving_subset hc)
  have hline := (lineHolds_of_follows hfollows hsurviving).line
  rw [(Shell.enteredLine_eq_some.mp hcommand).1, Option.some.injEq] at hline
  intro c hc
  rw [hline] at hc
  exact hsurviving c (mem_of_mem_trim hc)

/-! ## What a command does to the files -/

def filesAfter (M : FileMap) (command : Str) : FileMap :=
  match commandOp command with
  | some op => M.apply op
  | none => M

theorem refines_executeCommand {command : Str} (h : Refines s.overlay M)
    (hrun : (executeCommand command).run s = some s') :
    Refines s'.overlay (filesAfter M command) := by
  unfold filesAfter
  cases hop : commandOp command with
  | none =>
      have hkeeps : Keeps Set.univ Output ∅ (executeCommand command) :=
        takes_executeCommand_of_none (free_univ _) (free_univ _) (free_univ _)
          (fun _ => free_univ _) hop
      rw [hkeeps.run_keeps Output.refl Output.trans hrun]
      exact h
  | some op =>
      rw [executeCommand_of_commandOp hop, run_fileCommand h, Option.some.injEq] at hrun
      rw [← hrun]
      exact h.apply op

theorem token_of_normalForm {path key : Str} (hpath : ∀ c ∈ path, Printable c ∧ c ≠ ' ')
    (hkey : normalForm path = .ok key) : Token key := by
  unfold normalForm at hkey
  split_ifs at hkey
  cases hkey
  have hmem : ∀ c ∈ withSlash (trim path), Printable c ∧ c ≠ ' ' := by
    intro c hc
    unfold withSlash at hc
    split_ifs at hc
    · exact hpath c (mem_of_mem_trim hc)
    · rcases List.mem_cons.mp hc with rfl | htrim
      · decide
      · exact hpath c (mem_of_mem_trim htrim)
  exact ⟨withSlash_ne_nil _, fun c hc => (hmem c hc).1, fun hspace => (hmem ' ' hspace).2 rfl⟩

theorem mem_of_commandOp_write {command path contents : Str} {c : Char}
    (h : commandOp command = some (.write path contents)) (hc : c ∈ path) :
    c ∈ command ∧ c ≠ ' ' := by
  unfold commandOp at h
  split at h
  · cases h
  · split at h
    · obtain ⟨⟨path', contents'⟩, hparts, heq⟩ := Option.map_eq_some_iff.mp h
      cases heq
      obtain ⟨rest, hrest, hsplit⟩ := Option.bind_eq_some_iff.mp hparts
      have hmem := mem_of_splitOnce hsplit hc
      refine ⟨?_, hmem.2⟩
      unfold stripPrefix at hrest
      split_ifs at hrest
      cases hrest
      exact List.mem_of_mem_drop hmem.1
    · obtain ⟨path', -, heq⟩ := Option.map_eq_some_iff.mp h
      cases heq
    · cases h

theorem typable_filesAfter {command : Str} (hprintable : ∀ c ∈ command, Printable c)
    (h : Typable M) : Typable (filesAfter M command) := by
  unfold filesAfter
  cases hop : commandOp command with
  | none => exact h
  | some op =>
      intro key hkey
      rcases FileMap.mem_keys_apply hkey with hold | ⟨path, contents, rfl, hnormal⟩
      · exact h key hold
      · refine token_of_normalForm (fun c hc => ?_) hnormal
        obtain ⟨hmem, hne⟩ := mem_of_commandOp_write hop hc
        exact ⟨hprintable c hmem, hne⟩

/-! ## Invariants of a session -/

structure Holds (P : FileMap → Prop) (s : KernelState) : Prop where
  line : PrintableLine s.shell
  files : ∃ M, Refines s.overlay M ∧ Typable M ∧ P M

theorem Holds.key {P : FileMap → Prop} {allowed : Str → Prop} {event : KeyEvent}
    (hP : ∀ M command, allowed command → P M → P (filesAfter M command)) (h : Holds P s)
    (hevent : ∀ c, event = .char c → Printable c)
    (hallowed : event = .enter → ∀ command ∈ s.shell.enteredLine, allowed command)
    (hrun : (onKey event).run s = some s') : Holds P s' := by
  obtain ⟨M, hrefines, htypable, hM⟩ := h.files
  have hup : s.shell.initialized = true := h.line.elim fun _ hline => hline.1.initialized
  constructor
  · rw [onKey_spec hup hrun]
    exact h.line.afterKey hevent
  · by_cases henter : event = .enter
    · subst henter
      obtain ⟨s₁, hreply, rfl⟩ := onKey_enter_spec hup hrun
      cases hentered : s.shell.enteredLine with
      | none =>
          rw [output_reply_of_none hentered hreply]
          exact ⟨M, hrefines, htypable, hM⟩
      | some command =>
          rw [reply_of_some hentered] at hreply
          have hafter : Refines s₁.overlay (filesAfter M command) :=
            refines_executeCommand (s := { s with serial := s.serial ++ ['\n'] }) hrefines hreply
          have htypable' := typable_filesAfter (h.line.entered hentered) htypable
          exact ⟨filesAfter M command, hafter, htypable',
            hP M command (hallowed rfl command hentered) hM⟩
    · rw [onKey_edit_spec hup henter hrun]
      exact ⟨M, hrefines, htypable, hM⟩

theorem Session.holds {P : FileMap → Prop} {allowed : Str → Prop} {start : KernelState}
    (hP : ∀ M command, allowed command → P M → P (filesAfter M command))
    (h : Session allowed start s) (hstart : Holds P start) : Holds P s := by
  induction h with
  | refl => exact hstart
  | key _ printable entered run ih => exact ih.key hP printable entered run
  | background _ shell overlay ih =>
      refine ⟨?_, ?_⟩
      · rw [shell]
        exact ih.line
      · rw [overlay]
        exact ih.files

theorem Reachable.holds (h : Reachable s) : Holds (fun _ => True) s := by
  obtain ⟨start, hup, hempty, hoverlay, hsession⟩ := h
  refine hsession.holds (fun _ _ _ _ => trivial) ⟨?_, ?_⟩
  · exact ⟨[], follows_nil hup hempty, fun c hc => by cases hc⟩
  · rw [hoverlay]
    refine ⟨BoundedMap.empty, refines_empty, fun key hkey => ?_, trivial⟩
    simp [BoundedMap.empty] at hkey

/-! ## Lines -/

theorem Token.last {text : Str} (h : Token text) :
    ∃ c ∈ text.getLast?, isWhitespace c = false := by
  refine ⟨text.getLast h.ne_nil, List.getLast?_eq_getLast_of_ne_nil h.ne_nil, ?_⟩
  exact h.solid _ (List.getLast_mem h.ne_nil)

theorem splitWhitespace_verb (verb : Str) {word : Str} (hne : verb ≠ []) (hverb : Solid verb)
    (hword : Token word) : splitWhitespace (verb ++ ' ' :: word) = [verb, word] := by
  rw [splitWhitespace_cons hne hverb, splitWhitespace_word hword.ne_nil hword.solid]

theorem executeCommand_cat {name : Str} (h : Token name) :
    executeCommand ("cat ".toList ++ name) = catCommand [name] := by
  have hwords : splitWhitespace ("cat ".toList ++ name) = ["cat".toList, name] :=
    splitWhitespace_verb "cat".toList (by decide) (by decide) h
  exact executeCommand_of_cat hwords

theorem commandOp_rm {name : Str} (h : Token name) :
    commandOp ("rm ".toList ++ name) = some (.remove name) := by
  have hwords : splitWhitespace ("rm ".toList ++ name) = ["rm".toList, name] :=
    splitWhitespace_verb "rm".toList (by decide) (by decide) h
  exact commandOp_of_rm hwords

def writeLine (file text : Str) : Str := "write ".toList ++ (file ++ ' ' :: text)

-- the equation that Lean makes of the definition evaluates the string
theorem writeLine_eq (file text : Str) :
    writeLine file text = "write ".toList ++ (file ++ ' ' :: text) := rfl

theorem length_writeLine_le {file text : Str} {n : Nat} (h : 7 + file.length + text.length ≤ n) :
    (writeLine file text).length ≤ n := by
  simp [writeLine_eq]
  omega

/-- The line has no blanks at its ends, whatever stands before the last character. -/
theorem trim_writeLine {file text : Str} (htext : ∀ c ∈ text, Printable c)
    (hlast : ∃ c ∈ text.getLast?, c ≠ ' ') : trim (writeLine file text) = writeLine file text := by
  obtain ⟨c, hc, hne⟩ := hlast
  have hprintable := htext c (List.mem_of_getLast? hc)
  apply trim_append ⟨'w', rfl, by decide⟩
  refine ⟨c, ?_, isWhitespace_of_printable hprintable hne⟩
  rw [List.getLast?_append, List.getLast?_cons, Option.mem_def.mp hc]
  rfl

theorem commandOp_writeLine {file text : Str} (h : Token file) :
    commandOp (writeLine file text) = some (.write file text) := by
  have hwords : ∃ args, splitWhitespace (writeLine file text) = "write".toList :: args :=
    ⟨_, splitWhitespace_cons (show "write".toList ≠ [] by decide) (by decide) _⟩
  obtain ⟨args, hargs⟩ := hwords
  have hparts : (stripPrefix "write ".toList (writeLine file text)).bind (splitOnce ' ') =
      some (file, text) := by
    rw [writeLine_eq, stripPrefix_append, Option.bind_some, splitOnce_append h.notMem_space]
  rw [commandOp_of_write hargs, hparts]
  rfl

theorem run_seq_println (lines : List Str) (s : KernelState) :
    (Prog.seq (lines.map println)).run s =
      some { s with serial := s.serial ++ lines.flatMap (· ++ ['\n']) } := by
  induction lines generalizing s with
  | nil => simp
  | cons line lines ih =>
      rw [List.map_cons, Prog.run_seq_cons, run_println, Option.bind_some, ih]
      simp

/-! ## The round trip -/

/-- Typing the line leads to `s'`, with `output` between the echo and the next prompt. -/
structure Prints (s : KernelState) (line output : Str) (s' : KernelState) : Prop where
  run : Prog.runAll ((typeLine line).map onKey) s = some s'
  serial : s'.serial = s.serial ++ line ++ ['\n'] ++ output ++ "aether> ".toList

variable {P : FileMap → Prop}

theorem ascii_of_printable {text : Str} (h : ∀ c ∈ text, Printable c) : Ascii text :=
  fun c hc => lt_of_le_of_lt (h c hc).2 (by decide)

theorem printable_append {text text' : Str} (h : ∀ c ∈ text, Printable c)
    (h' : ∀ c ∈ text', Printable c) : ∀ c ∈ text ++ text', Printable c := by
  intro c hc
  rcases List.mem_append.mp hc with hleft | hright
  · exact h c hleft
  · exact h' c hright

theorem prints_of_run {line output : Str} {overlay : Overlay} (h : Holds P s)
    (hempty : s.shell.len = 0) (hlen : line.length ≤ maxLineLen)
    (hprintable : ∀ c ∈ line, Printable c) (htrim : trim line = line) (hne : line ≠ [])
    (hexec : ∀ s₁ : KernelState, s₁.overlay = s.overlay → (executeCommand line).run s₁ =
      some { s₁ with overlay := overlay, serial := s₁.serial ++ output }) :
    ∃ s', Prints s line output s' ∧ s'.overlay = overlay ∧ PrintableLine s'.shell := by
  have hup : s.shell.initialized = true := h.line.elim fun _ hline => hline.1.initialized
  obtain ⟨shell, hinit, hrun⟩ := run_typeLine hup hempty hlen (ascii_of_printable hprintable)
    htrim hne
  have hcommand := hexec { s with shell := shell, serial := s.serial ++ line ++ ['\n'] } rfl
  rw [hcommand, Option.map_some] at hrun
  refine ⟨_, ⟨hrun, rfl⟩, rfl, [], follows_nil hinit rfl, fun c hc => ?_⟩
  cases hc

theorem prints_cat {name contents : Str} (h : Holds P s) (hempty : s.shell.len = 0)
    (hrefines : Refines s.overlay M) (hname : Token name) (hlen : 4 + name.length ≤ maxLineLen)
    (hread : M.read name = some contents) :
    ∃ s', Prints s ("cat ".toList ++ name) (contents ++ ['\n']) s' := by
  have hexec : ∀ s₁ : KernelState, s₁.overlay = s.overlay →
      (executeCommand ("cat ".toList ++ name)).run s₁ =
        some { s₁ with overlay := s.overlay, serial := s₁.serial ++ (contents ++ ['\n']) } := by
    intro s₁ hoverlay
    rw [← hoverlay] at hrefines ⊢
    rw [executeCommand_cat hname, catCommand, run_vfsRead hrefines, hread]
    dsimp only
    rw [run_println, List.append_assoc]
  obtain ⟨s', hprints, -⟩ := prints_of_run h hempty (by simp; omega)
    (printable_append (by decide) hname.printable)
    (trim_append ⟨'c', rfl, by decide⟩ hname.last) (by simp) hexec
  exact ⟨s', hprints⟩

theorem prints_fileCommand {line : Str} {op : Op} (h : Holds P s) (hempty : s.shell.len = 0)
    (hrefines : Refines s.overlay M) (hlen : line.length ≤ maxLineLen)
    (hprintable : ∀ c ∈ line, Printable c) (htrim : trim line = line) (hne : line ≠ [])
    (hop : commandOp line = some op) :
    ∃ s', Prints s line (fileReply M op ++ ['\n']) s' ∧ s'.overlay = op.apply s.overlay ∧
      PrintableLine s'.shell := by
  refine prints_of_run h hempty hlen hprintable htrim hne fun s₁ hoverlay => ?_
  rw [← hoverlay] at hrefines ⊢
  rw [executeCommand_of_commandOp hop, run_fileCommand hrefines, List.append_assoc]

theorem prints_ls (h : Holds P s) (hempty : s.shell.len = 0) :
    ∃ s', Prints s "ls".toList ((forEachEntry s.overlay).flatMap (· ++ ['\n'])) s' := by
  have hexec : ∀ s₁ : KernelState, s₁.overlay = s.overlay →
      (executeCommand "ls".toList).run s₁ = some { s₁ with
        overlay := s.overlay
        serial := s₁.serial ++ (forEachEntry s.overlay).flatMap (· ++ ['\n']) } := by
    intro s₁ hoverlay
    have hls : executeCommand "ls".toList = lsCommand := rfl
    rw [hls, lsCommand, Prog.run_withLock, Prog.run_inspect, run_seq_println, ← hoverlay]
  obtain ⟨s', hprints, -⟩ := prints_of_run h hempty (by decide) (by decide) (by decide) (by decide)
    hexec
  exact ⟨s', hprints⟩

structure NamesTypeBack (s : KernelState) : Prop where
  ls : ∃ s', Prints s "ls".toList ((forEachEntry s.overlay).flatMap (· ++ ['\n'])) s'
  cat : ∀ name ∈ forEachEntry s.overlay, ∃ contents s', read s.overlay name = .ok (some contents) ∧
    Prints s ("cat ".toList ++ name) (contents ++ ['\n']) s'
  rm : ∀ name ∈ forEachEntry s.overlay, (s.overlay.slotAt name).isSome →
    ∃ s', Prints s ("rm ".toList ++ name) ("removed: ".toList ++ name ++ ['\n']) s' ∧
      s'.overlay.slotAt name = none

theorem token_of_mem_files : ∀ file ∈ files, Token file.path := by
  have hpaths : ∀ file ∈ files,
      file.path ≠ [] ∧ (∀ c ∈ file.path, Printable c) ∧ ' ' ∉ file.path := by decide
  exact fun file hfile => ⟨(hpaths file hfile).1, (hpaths file hfile).2.1, (hpaths file hfile).2.2⟩

theorem token_of_mem_forEachEntry (hrefines : Refines s.overlay M) (htypable : Typable M)
    {name : Str} (h : name ∈ forEachEntry s.overlay) : Token name := by
  rcases hrefines.mem_forEachEntry.mp h with hkey | hfound
  · exact htypable name hkey
  · obtain ⟨file, hfile, rfl⟩ := List.mem_map.mp (find_isSome_iff.mp hfound)
    exact token_of_mem_files file hfile

theorem length_le_of_normalForm {path key : Str} (hkey : normalForm path = .ok key)
    (hascii : Ascii key) : key.length ≤ maxPathLen := by
  have hbytes := length_asBytes_of_normalForm hkey
  rw [asBytes_of_ascii hascii, List.length_map] at hbytes
  exact hbytes

theorem namesTypeBack (h : Holds P s) (hempty : s.shell.len = 0) : NamesTypeBack s := by
  obtain ⟨M, hrefines, htypable, -⟩ := h.files
  have hlen : ∀ {name}, name ∈ forEachEntry s.overlay → 4 + name.length ≤ maxLineLen := by
    intro name hname
    have htoken := token_of_mem_forEachEntry hrefines htypable hname
    have hle := length_le_of_normalForm (hrefines.normalForm_of_mem hname)
      (ascii_of_printable htoken.printable)
    exact (Nat.add_le_add_left hle 4).trans (by decide)
  refine ⟨prints_ls h hempty, fun name hname => ?_, fun name hname hslot => ?_⟩
  · have htoken := token_of_mem_forEachEntry hrefines htypable hname
    have hnormal := hrefines.normalForm_of_mem hname
    have hexists := hrefines.pathExists_iff.mpr ⟨name, hnormal, hname⟩
    rw [hrefines.pathExists_eq, Except.ok.injEq] at hexists
    obtain ⟨contents, hread⟩ := Option.isSome_iff_exists.mp hexists
    obtain ⟨s', hprints⟩ := prints_cat h hempty hrefines htoken (hlen hname) hread
    exact ⟨contents, s', by rw [hrefines.read_eq, hread], hprints⟩
  · have htoken := token_of_mem_forEachEntry hrefines htypable hname
    have hmem : name ∈ M.keys := hrefines.slotAt_isSome.mp hslot
    have hremove : M.remove name = .ok (M.erase name) := by
      simp only [FileMap.remove, hrefines.normalForm_of_mem hname, if_pos hmem]
    have hlength : ("rm ".toList ++ name).length ≤ maxLineLen := by
      have hname' := hlen hname
      simp
      omega
    obtain ⟨s', hprints, hoverlay, -⟩ := prints_fileCommand h hempty hrefines hlength
      (printable_append (by decide) htoken.printable)
      (trim_append ⟨'r', rfl, by decide⟩ htoken.last) (by simp) (commandOp_rm htoken)
    rw [fileReply, hremove] at hprints
    refine ⟨s', hprints, ?_⟩
    have hafter : Refines s'.overlay (M.erase name) := by
      have happly := hrefines.apply (.remove name)
      rw [FileMap.apply, show M.perform (.remove name) = .ok (M.erase name) from hremove,
        ← hoverlay] at happly
      exact happly
    rw [← Option.not_isSome_iff_eq_none, hafter.slotAt_isSome]
    simp [BoundedMap.erase]

def Spares (key command : Str) : Prop :=
  ∀ op, commandOp command = some op → normalizePath op.path ≠ .ok (.ok key)

theorem lookup_filesAfter {key command : Str} (h : Spares key command) :
    (filesAfter M command).lookup key = M.lookup key := by
  unfold filesAfter
  cases hop : commandOp command with
  | none => rfl
  | some op =>
      apply FileMap.lookup_apply_of_ne
      intro hkey
      apply h op hop
      rw [normalizePath_eq, hkey]

/-- A file written at the shell is read back at the shell, whatever else is
typed in between, and every name that `ls` prints can be typed back. -/
theorem write_cat_round_trip {s : KernelState} (hreach : Reachable s) (hempty : s.shell.len = 0)
    {file text key : Str} (hfile : Token file) (hkey : normalizePath file = .ok (.ok key))
    (htext : ∀ c ∈ text, Printable c) (hlast : ∃ c ∈ text.getLast?, c ≠ ' ')
    (hlen : 7 + file.length + text.length ≤ maxLineLen)
    (hroom : (s.overlay.slotAt key).isSome ∨ s.overlay.freeSlot.isSome) :
    ∃ s₁, Prints s (writeLine file text) ("written: ".toList ++ file ++ ['\n']) s₁ ∧
      ∀ s₂, Session (Spares key) s₁ s₂ → s₂.shell.len = 0 →
        (∃ s₃, Prints s₂ ("cat ".toList ++ file) (text ++ ['\n']) s₃) ∧ NamesTypeBack s₂ := by
  have h := hreach.holds
  obtain ⟨M, hrefines, htypable, -⟩ := h.files
  rw [normalizePath_eq, Except.ok.injEq] at hkey
  have hmapRoom : key ∈ M.keys ∨ M.keys.card < maxOverlayFiles := by
    rcases hroom with hslot | hfree
    · exact Or.inl (hrefines.slotAt_isSome.mp hslot)
    · right
      by_contra hfull
      rw [hrefines.freeSlot_eq_none_iff.mpr hfull] at hfree
      cases hfree
  have hwrite : M.write file text = .ok (M.insert key text hmapRoom) := by
    have hshort : ¬maxContentLen < len text := by
      rw [len, asBytes_of_ascii (ascii_of_printable htext), List.length_map]
      have hsmall : maxLineLen ≤ maxContentLen := by decide
      omega
    simp only [FileMap.write, hkey, if_neg hshort, dif_pos hmapRoom]
  have hprintable : ∀ c ∈ writeLine file text, Printable c :=
    printable_append (by decide) (printable_append hfile.printable
      (printable_append (show ∀ c ∈ [' '], Printable c by decide) htext))
  have hop : commandOp (writeLine file text) = some (.write file text) := commandOp_writeLine hfile
  obtain ⟨s₁, hprints, hoverlay, hline⟩ := prints_fileCommand h hempty hrefines
    (length_writeLine_le hlen) hprintable (trim_writeLine htext hlast) (by simp [writeLine_eq]) hop
  rw [fileReply, hwrite] at hprints
  refine ⟨s₁, hprints, fun s₂ hsession hempty₂ => ?_⟩
  have hstart : Holds (fun M => M.lookup key = some text) s₁ := by
    have happly : M.apply (.write file text) = M.insert key text hmapRoom := by
      rw [FileMap.apply, show M.perform (.write file text) = _ from hwrite]
    have htypable₁ := typable_filesAfter hprintable htypable
    rw [filesAfter, hop] at htypable₁
    refine ⟨hline, M.apply (.write file text), ?_, htypable₁, ?_⟩
    · rw [hoverlay]
      exact hrefines.apply _
    · rw [happly]
      exact Function.update_self ..
  have h₂ := hsession.holds
    (fun M command hspares hM => (lookup_filesAfter hspares).trans hM) hstart
  obtain ⟨M₂, hrefines₂, -, hlookup⟩ := h₂.files
  refine ⟨prints_cat h₂ hempty₂ hrefines₂ hfile (by omega) ?_, namesTypeBack h₂ hempty₂⟩
  simp only [FileMap.read, hkey, hlookup, Option.some_or]

/-- The blanks before and inside the text are part of it. -/
theorem write_cat_round_trip_notes :
    Reachable shellUp ∧ Token "notes".toList ∧
      ∃ s₁, Prints shellUp (writeLine "notes".toList " two  words".toList)
          "written: notes\n".toList s₁ ∧
        ∀ s₂, Session (Spares "/notes".toList) s₁ s₂ → s₂.shell.len = 0 →
          (∃ s₃, Prints s₂ "cat notes".toList " two  words\n".toList s₃) ∧ NamesTypeBack s₂ := by
  have hreach : Reachable shellUp := ⟨shellUp, rfl, rfl, rfl, .refl⟩
  have htoken : Token "notes".toList := ⟨by decide, by decide, by decide⟩
  have hkey : normalizePath "notes".toList = .ok (.ok "/notes".toList) := by decide
  have htext : ∀ c ∈ " two  words".toList, Printable c := by decide
  refine ⟨hreach, htoken, ?_⟩
  exact write_cat_round_trip hreach rfl htoken hkey htext ⟨'s', by decide, by decide⟩ (by decide)
    (.inr (by decide))

end AetherOs.Kernel
