import AetherOs.Kernel.Footprints
/-!
# The line editor

What stands in the line buffer after any key events, and which line an `Enter`
passes to `execute_command`.  The events that still count are those since the
last restart of the line: since the last `Enter`, or since the last character
that found the buffer full and was rejected with `input too long`.
-/

namespace AetherOs.Kernel

open AetherOs.Support AetherOs.Support.Text AetherOs.Drivers AetherOs.Drivers.Keyboard

/-! ## Editing a line -/

def edit (text : Str) : KeyEvent → Str
  | .char character => text ++ [character]
  | .backspace => text.dropLast
  | .enter => text

def surviving (events : List KeyEvent) : Str := events.foldl edit []

@[simp] theorem surviving_concat (events : List KeyEvent) (event : KeyEvent) :
    surviving (events ++ [event]) = edit (surviving events) event := by
  rw [surviving, List.foldl_append]
  rfl

/-- The events since the last restart of the line, after one more event. -/
def restart (events : List KeyEvent) : KeyEvent → List KeyEvent
  | .enter => []
  | .backspace => events ++ [.backspace]
  | .char character =>
      if (surviving events).length < maxLineLen then events ++ [.char character] else []

def sinceRestart (events : List KeyEvent) : List KeyEvent := events.foldl restart []

def sinceEnter (events : List KeyEvent) : List KeyEvent := events.rtakeWhile (· ≠ .enter)

theorem sinceRestart_concat (events : List KeyEvent) (event : KeyEvent) :
    sinceRestart (events ++ [event]) = restart (sinceRestart events) event := by
  rw [sinceRestart, List.foldl_append]
  rfl

theorem sinceEnter_concat_enter (events : List KeyEvent) :
    sinceEnter (events ++ [.enter]) = [] := by
  rw [sinceEnter, List.rtakeWhile_concat_neg _ _ _ (by simp)]

theorem sinceEnter_concat_of_ne {events : List KeyEvent} {event : KeyEvent} (h : event ≠ .enter) :
    sinceEnter (events ++ [event]) = sinceEnter events ++ [event] := by
  rw [sinceEnter, List.rtakeWhile_concat_pos _ _ _ (by simpa using h)]
  rfl

/-- The text typed since the last `Enter` never outgrew the line. -/
def WithinLimit (events : List KeyEvent) : Prop :=
  ∀ typed, typed <+: sinceEnter events → (surviving typed).length ≤ maxLineLen

theorem sinceRestart_of_withinLimit {events : List KeyEvent} (h : WithinLimit events) :
    sinceRestart events = sinceEnter events := by
  induction events using List.reverseRecOn with
  | nil => rfl
  | append_singleton events event ih =>
      rw [sinceRestart_concat]
      by_cases henter : event = .enter
      · subst henter
        rw [sinceEnter_concat_enter]
        rfl
      · have hconcat : sinceEnter (events ++ [event]) = sinceEnter events ++ [event] :=
          sinceEnter_concat_of_ne henter
        have hbefore : WithinLimit events := by
          intro typed htyped
          apply h typed
          rw [hconcat]
          exact htyped.trans (List.prefix_append _ _)
        rw [ih hbefore, hconcat]
        cases event with
        | enter => exact absurd rfl henter
        | backspace => rfl
        | char character =>
            have hlen := h (sinceEnter (events ++ [.char character])) (List.prefix_refl _)
            rw [hconcat, surviving_concat, edit, List.length_append] at hlen
            exact if_pos hlen

/-- A restart forgets events, and forgets none later than it. -/
theorem sinceRestart_suffix (events : List KeyEvent) :
    sinceRestart events <:+ sinceEnter events := by
  induction events using List.reverseRecOn with
  | nil => exact List.suffix_refl _
  | append_singleton events event ih =>
      rw [sinceRestart_concat]
      obtain ⟨forgotten, hforgotten⟩ := ih
      cases event with
      | enter => exact List.nil_suffix
      | backspace =>
          rw [sinceEnter_concat_of_ne (by simp), ← hforgotten, List.append_assoc]
          exact List.suffix_append _ _
      | char character =>
          rw [sinceEnter_concat_of_ne (by simp), ← hforgotten, List.append_assoc, restart]
          split_ifs
          · exact List.suffix_append _ _
          · exact List.nil_suffix

theorem surviving_chars (text : Str) : surviving (text.map .char) = text := by
  induction text using List.reverseRecOn with
  | nil => rfl
  | append_singleton text c ih =>
      rw [List.map_append, List.map_singleton, surviving_concat, ih]
      rfl

theorem sinceRestart_chars {text : Str} (h : text.length ≤ maxLineLen) :
    sinceRestart (text.map .char) = text.map .char := by
  induction text using List.reverseRecOn with
  | nil => rfl
  | append_singleton text c ih =>
      rw [List.length_append, List.length_singleton] at h
      rw [List.map_append, List.map_singleton, sinceRestart_concat, ih (by omega), restart,
        surviving_chars, if_pos (by omega)]

/-! ## The buffer -/

def stored (text : Str) : List UInt8 := text.map fun character => UInt8.ofNat character.toNat

theorem stored_append (text text' : Str) : stored (text ++ text') = stored text ++ stored text' :=
  List.map_append

theorem stored_dropLast (text : Str) : stored text.dropLast = (stored text).dropLast :=
  List.map_dropLast

namespace Shell

def afterKey (shell : Shell) : KeyEvent → Shell
  | .enter => shell.clearLine
  | .backspace => if 0 < shell.len then shell.dropLast else shell
  | .char character => if shell.len < maxLineLen then shell.push character else shell.clearLine

theorem length_lineBytes (shell : Shell) : shell.lineBytes.length = shell.len :=
  Buffer.length_front shell.len_le

theorem lineBytes_dropLast (shell : Shell) :
    shell.dropLast.lineBytes = shell.lineBytes.dropLast := by
  rw [List.dropLast_eq_take, length_lineBytes]
  change shell.lineBuffer.cells.take (shell.len - 1) = _
  rw [lineBytes, Buffer.front, List.take_take, Nat.min_eq_left (Nat.sub_le _ _)]

theorem push_of_lt {shell : Shell} (h : shell.len < maxLineLen) (character : Char) :
    (shell.push character).lineBytes = shell.lineBytes ++ stored [character] := by
  have hroom : shell.len + (stored [character]).length ≤ maxLineLen := h
  rw [push, dif_pos (Nat.succ_le_of_lt h)]
  exact Buffer.front_overwrite shell.lineBuffer hroom

theorem initialized_afterKey (shell : Shell) (event : KeyEvent) :
    (shell.afterKey event).initialized = shell.initialized := by
  cases event with
  | enter => rfl
  | backspace =>
      rw [afterKey]
      split_ifs <;> rfl
  | char character =>
      rw [afterKey, push]
      split_ifs <;> rfl

end Shell

/-- The shell is up, and its line is what is left of the events. -/
structure Follows (events : List KeyEvent) (shell : Shell) : Prop where
  initialized : shell.initialized = true
  lineBytes : shell.lineBytes = stored (surviving events)

theorem Follows.len {events : List KeyEvent} {shell : Shell} (h : Follows events shell) :
    shell.len = (surviving events).length := by
  rw [← shell.length_lineBytes, h.lineBytes, stored, List.length_map]

theorem follows_nil {shell : Shell} (hup : shell.initialized = true) (hlen : shell.len = 0) :
    Follows [] shell := by
  refine ⟨hup, ?_⟩
  rw [Shell.lineBytes, hlen]
  rfl

theorem Follows.afterKey {events : List KeyEvent} {shell : Shell} (h : Follows events shell)
    (event : KeyEvent) : Follows (restart events event) (shell.afterKey event) := by
  refine ⟨(shell.initialized_afterKey event).trans h.initialized, ?_⟩
  cases event with
  | enter => rfl
  | backspace =>
      rw [restart, surviving_concat, edit, stored_dropLast, ← h.lineBytes, Shell.afterKey]
      split_ifs with hlen
      · exact shell.lineBytes_dropLast
      · -- on an empty line there is nothing to delete
        have hnil : shell.lineBytes = [] := by
          apply List.eq_nil_of_length_eq_zero
          rw [shell.length_lineBytes]
          omega
        rw [hnil]
        rfl
  | char character =>
      rw [restart, Shell.afterKey, ← h.len]
      split_ifs with hlen
      · rw [Shell.push_of_lt hlen, surviving_concat, edit, stored_append, ← h.lineBytes]
      · rfl

/-! ## Runs of key events -/

@[simp] theorem run_print (text : Str) (s : KernelState) :
    (print text).run s = some { s with serial := s.serial ++ text } :=
  Prog.run_withLock ..

@[simp] theorem run_println (text : Str) (s : KernelState) :
    (println text).run s = some { s with serial := s.serial ++ text ++ ['\n'] } := by
  rw [println, run_print, List.append_assoc]

@[simp] theorem run_updateShell (f : Shell → Shell) (s : KernelState) :
    (updateShell f).run s = some { s with shell := f s.shell } := rfl

theorem reports_executeCommand {command : Str} {s s' : KernelState}
    (h : (executeCommand command).run s = some s') : Reports s s' := by
  have hkeeps : Keeps Set.univ Reports ∅ (executeCommand command) :=
    takes_executeCommand (free_univ _) (free_univ _) (free_univ _) fun _ => free_univ _
  exact hkeeps.run_keeps Reports.refl Reports.trans h

def Shell.enteredLine (shell : Shell) : Option Str := shell.line.filter (· ≠ [])

def reply (shell : Shell) : Program :=
  match shell.enteredLine with
  | some command => executeCommand command
  | none => if shell.line = none then println "invalid input".toList else .done

theorem run_onKey_enter {s : KernelState} (hup : s.shell.initialized = true) :
    (onKey .enter).run s =
      (Prog.seq [print ['\n'], reply s.shell, updateShell Shell.clearLine, prompt]).run s := by
  have hline : ∀ s₁ : KernelState, (runLine s.shell.line).run s₁ =
      (Prog.seq [reply s.shell, updateShell Shell.clearLine]).run s₁ := by
    intro s₁
    unfold reply Shell.enteredLine
    cases s.shell.line with
    | none => rfl
    | some command => cases command <;> rfl
  simp [onKey, shellOnKey, hup, handleKey, executeCurrentLine, hline, Option.bind_assoc]

theorem reply_of_some {shell : Shell} {command : Str} (h : shell.enteredLine = some command) :
    reply shell = executeCommand command := by
  rw [reply, h]

theorem output_reply_of_none {shell : Shell} {s s' : KernelState} (h : shell.enteredLine = none)
    (hrun : (reply shell).run s = some s') : Output s s' := by
  rw [reply, h] at hrun
  dsimp only at hrun
  split_ifs at hrun
  · rw [run_println, Option.some.injEq] at hrun
    rw [← hrun]
    rfl
  · rw [Prog.run_done, Option.some.injEq] at hrun
    rw [← hrun]
    rfl

theorem reports_reply {shell : Shell} {s s' : KernelState} (h : (reply shell).run s = some s') :
    Reports s s' := by
  cases hentered : shell.enteredLine with
  | none => exact (output_reply_of_none hentered h).reports
  | some command =>
      rw [reply_of_some hentered] at h
      exact reports_executeCommand h

/-- `Enter` prints, replies to the line and empties it. -/
theorem onKey_enter_spec {s s' : KernelState} (hup : s.shell.initialized = true)
    (h : (onKey .enter).run s = some s') :
    ∃ s₁, (reply s.shell).run { s with serial := s.serial ++ ['\n'] } = some s₁ ∧
      s' = { s₁ with
        shell := s₁.shell.clearLine
        serial := s₁.serial ++ "aether> ".toList } := by
  rw [run_onKey_enter hup] at h
  simp only [Prog.run_seq_cons, run_print, Option.bind_some, run_updateShell, prompt,
    Prog.run_seq_nil, Option.bind_eq_some_iff, Option.some.injEq] at h
  obtain ⟨s₁, hreply, rfl⟩ := h
  exact ⟨s₁, hreply, rfl⟩

theorem run_onKey_char {s : KernelState} (hup : s.shell.initialized = true)
    (hroom : s.shell.len < maxLineLen) (c : Char) :
    (onKey (.char c)).run s =
      some { s with shell := s.shell.push c, serial := s.serial ++ [c] } := by
  simp only [onKey, shellOnKey, Prog.run_withLock, Prog.run_inspect, hup, if_true, handleKey,
    if_pos hroom, Prog.run_seq_cons, run_updateShell, Option.bind_some, run_print,
    Prog.run_seq_nil]

theorem run_onKey_char_of_full {s : KernelState} (hup : s.shell.initialized = true)
    (hfull : ¬ s.shell.len < maxLineLen) (c : Char) :
    (onKey (.char c)).run s = some { s with
      shell := s.shell.clearLine
      serial := s.serial ++ ['\n'] ++ "input too long".toList ++ ['\n'] ++ "aether> ".toList } := by
  simp only [onKey, shellOnKey, Prog.run_withLock, Prog.run_inspect, hup, if_true, handleKey,
    if_neg hfull, Prog.run_seq_cons, run_updateShell, Option.bind_some, run_print, run_println,
    prompt, Prog.run_seq_nil]

theorem run_onKey_backspace {s : KernelState} (hup : s.shell.initialized = true)
    (hlen : 0 < s.shell.len) :
    (onKey .backspace).run s =
      some { s with shell := s.shell.dropLast, serial := s.serial ++ eraseText } := by
  simp only [onKey, shellOnKey, Prog.run_withLock, Prog.run_inspect, hup, if_true, handleKey,
    if_pos hlen, Prog.run_seq_cons, run_updateShell, Option.bind_some, run_print,
    Prog.run_seq_nil]

theorem run_onKey_backspace_of_empty {s : KernelState} (hup : s.shell.initialized = true)
    (hlen : ¬ 0 < s.shell.len) : (onKey .backspace).run s = some s := by
  simp only [onKey, shellOnKey, Prog.run_withLock, Prog.run_inspect, hup, if_true, handleKey,
    if_neg hlen, Prog.run_done]

theorem onKey_edit_spec {s s' : KernelState} {event : KeyEvent} (hup : s.shell.initialized = true)
    (hevent : event ≠ .enter) (h : (onKey event).run s = some s') :
    Output { s with shell := s.shell.afterKey event } s' := by
  cases event with
  | enter => exact absurd rfl hevent
  | backspace =>
      by_cases hlen : 0 < s.shell.len
      · rw [run_onKey_backspace hup hlen, Option.some.injEq] at h
        rw [Shell.afterKey, if_pos hlen, ← h]
        rfl
      · rw [run_onKey_backspace_of_empty hup hlen, Option.some.injEq] at h
        rw [Shell.afterKey, if_neg hlen, ← h]
        rfl
  | char character =>
      by_cases hroom : s.shell.len < maxLineLen
      · rw [run_onKey_char hup hroom, Option.some.injEq] at h
        rw [Shell.afterKey, if_pos hroom, ← h]
        rfl
      · rw [run_onKey_char_of_full hup hroom, Option.some.injEq] at h
        rw [Shell.afterKey, if_neg hroom, ← h]
        rfl

/-- A key event changes the line, and what a command may change. -/
theorem onKey_spec {s s' : KernelState} {event : KeyEvent} (hup : s.shell.initialized = true)
    (h : (onKey event).run s = some s') :
    Reports { s with shell := s.shell.afterKey event } s' := by
  by_cases hevent : event = .enter
  · subst hevent
    obtain ⟨s₁, hreply, rfl⟩ := onKey_enter_spec hup h
    rw [reports_reply hreply]
    rfl
  · exact (onKey_edit_spec hup hevent h).reports

theorem Follows.step {events : List KeyEvent} {s s' : KernelState} {event : KeyEvent}
    (h : Follows events s.shell) (hrun : (onKey event).run s = some s') :
    Follows (restart events event) s'.shell := by
  rw [onKey_spec h.initialized hrun]
  exact h.afterKey event

theorem Follows.runAll {typed events : List KeyEvent} {s s' : KernelState}
    (h : Follows typed s.shell) (hrun : Prog.runAll (events.map onKey) s = some s') :
    Follows (events.foldl restart typed) s'.shell := by
  induction events generalizing typed s with
  | nil =>
      rw [List.map_nil, Prog.runAll_nil, Option.some.injEq] at hrun
      rw [← hrun]
      exact h
  | cons event events ih =>
      rw [List.map_cons, Prog.runAll_cons, Option.bind_eq_some_iff] at hrun
      obtain ⟨s₁, hfirst, hrest⟩ := hrun
      exact ih (h.step hfirst) hrest

/-- Editing a line always completes. -/
theorem run_onKey_of_ne_enter {event : KeyEvent} (h : event ≠ .enter) (s : KernelState) :
    ∃ s', (onKey event).run s = some s' := by
  rw [← Option.isSome_iff_exists]
  simp only [onKey, shellOnKey, Prog.run_withLock, Prog.run_inspect]
  split_ifs
  · cases event with
    | enter => exact absurd rfl h
    | backspace =>
        rw [handleKey]
        split_ifs <;> simp
    | char character =>
        rw [handleKey]
        split_ifs <;> simp [prompt]
  · rfl

theorem runAll_of_notMem_enter {events : List KeyEvent} (h : .enter ∉ events) (s : KernelState) :
    ∃ s', Prog.runAll (events.map onKey) s = some s' := by
  induction events generalizing s with
  | nil => exact ⟨s, rfl⟩
  | cons event events ih =>
      rw [List.mem_cons, not_or] at h
      obtain ⟨s₁, hfirst⟩ := run_onKey_of_ne_enter (Ne.symm h.1) s
      obtain ⟨s₂, hrest⟩ := ih h.2 s₁
      refine ⟨s₂, ?_⟩
      rw [List.map_cons, Prog.runAll_cons, hfirst]
      exact hrest

theorem surviving_subset {events : List KeyEvent} {c : Char} (h : c ∈ surviving events) :
    .char c ∈ events := by
  induction events using List.reverseRecOn with
  | nil => cases h
  | append_singleton events event ih =>
      rw [surviving_concat] at h
      rw [List.mem_append, List.mem_singleton]
      cases event with
      | enter => exact Or.inl (ih h)
      | backspace => exact Or.inl (ih (List.mem_of_mem_dropLast h))
      | char character =>
          rcases List.mem_append.mp h with hold | hnew
          · exact Or.inl (ih hold)
          · exact Or.inr (by rw [List.mem_singleton.mp hnew])

theorem line_of_follows {events : List KeyEvent} {shell : Shell} (h : Follows events shell) :
    shell.line = (fromUtf8 (stored (surviving events))).map trim := by
  rw [Shell.line, h.lineBytes]

theorem line_of_ascii {events : List KeyEvent} {shell : Shell} (h : Follows events shell)
    (hascii : Ascii (surviving events)) : shell.line = some (trim (surviving events)) := by
  rw [line_of_follows h, stored, ← asBytes_of_ascii hascii, fromUtf8_asBytes, Option.map_some]

theorem Shell.enteredLine_eq_some {shell : Shell} {command : Str} :
    shell.enteredLine = some command ↔ shell.line = some command ∧ command ≠ [] := by
  simp [Shell.enteredLine, Option.filter_eq_some_iff]

/-- The line an `Enter` passes to `execute_command` is what the events since the
last restart of the line leave, trimmed. -/
theorem entered_line_since_restart {s s' : KernelState} {events : List KeyEvent}
    (hup : s.shell.initialized = true) (hempty : s.shell.len = 0)
    (hrun : Prog.runAll (events.map onKey) s = some s') :
    (onKey .enter).run s' =
        (Prog.seq [print ['\n'], reply s'.shell, updateShell Shell.clearLine, prompt]).run s' ∧
      (∀ command, s'.shell.enteredLine = some command →
        (fromUtf8 (stored (surviving (sinceRestart events)))).map trim = some command ∧
        (Ascii (surviving (sinceRestart events)) →
          command = trim (surviving (sinceRestart events)))) ∧
      sinceRestart events <:+ sinceEnter events ∧
      (WithinLimit events → sinceRestart events = sinceEnter events) := by
  have hfollows : Follows (sinceRestart events) s'.shell := (follows_nil hup hempty).runAll hrun
  refine ⟨run_onKey_enter hfollows.initialized, ?_, sinceRestart_suffix events,
    sinceRestart_of_withinLimit⟩
  intro command hcommand
  have hline := (Shell.enteredLine_eq_some.mp hcommand).1
  constructor
  · rw [← hline]
    exact (line_of_follows hfollows).symm
  · intro hascii
    rw [line_of_ascii hfollows hascii, Option.some.injEq] at hline
    exact hline.symm

def shellUp : KernelState :=
  { KernelState.initial with shell := { Shell.new with initialized := true } }

def typedLs : List KeyEvent := [.char 'l', .char 't', .backspace, .char 's']

theorem entered_line_since_restart_ls :
    shellUp.shell.initialized = true ∧ shellUp.shell.len = 0 ∧
    ∃ s', Prog.runAll (typedLs.map onKey) shellUp = some s' ∧
      s'.shell.enteredLine = some "ls".toList ∧
      (Ascii (surviving (sinceRestart typedLs)) →
        "ls".toList = trim (surviving (sinceRestart typedLs))) := by
  have hedit : .enter ∉ typedLs := by decide
  obtain ⟨s', hrun⟩ := runAll_of_notMem_enter hedit shellUp
  have hfollows : Follows (sinceRestart typedLs) s'.shell := (follows_nil rfl rfl).runAll hrun
  have hentered : s'.shell.enteredLine = some "ls".toList := by
    rw [Shell.enteredLine_eq_some, line_of_ascii hfollows (by decide)]
    decide
  refine ⟨rfl, rfl, s', hrun, hentered, ?_⟩
  exact ((entered_line_since_restart rfl rfl hrun).2.1 _ hentered).2

/-- A line of 129 characters and the start of a command. -/
def overlongRemove : List KeyEvent :=
  List.replicate 129 (.char 'a') ++ "rm x".toList.map .char

/-- The rejected line is over, so the characters after it are a line of their own. -/
theorem overlong_tail_executed :
    ∃ s', Prog.runAll (overlongRemove.map onKey) shellUp = some s' ∧
      s'.shell.enteredLine = some "rm x".toList ∧
      trim (surviving (sinceEnter overlongRemove)) ≠ "rm x".toList := by
  have hedit : KeyEvent.enter ∉ overlongRemove := by decide
  obtain ⟨s', hrun⟩ := runAll_of_notMem_enter hedit shellUp
  have hfollows : Follows (sinceRestart overlongRemove) s'.shell :=
    (follows_nil rfl rfl).runAll hrun
  have htail : surviving (sinceRestart overlongRemove) = "rm x".toList := by decide +kernel
  refine ⟨s', hrun, ?_, by decide +kernel⟩
  rw [Shell.enteredLine_eq_some, line_of_ascii hfollows (by rw [htail]; decide), htail]
  decide

end AetherOs.Kernel
