import AetherOs.Kernel.Scancodes
import AetherOs.Support.Terminal
/-!
# What the user sees

The output of the shell on a terminal.  Commands print whole lines, whatever
they print, so a prompt always starts a line; echo and erasing keep what stands
behind the prompt equal to the line buffer.

The rest of the kernel may do anything between two key events that leaves the
shell alone; what it prints is not part of the shell's output.
-/

namespace AetherOs.Kernel

open AetherOs.Support AetherOs.Support.Text AetherOs.Drivers AetherOs.Drivers.Keyboard

def Decoded (event : KeyEvent) : Prop :=
  ∃ code shift, (decodeScancode code shift).2 = some event

def emitted (s s' : KernelState) : Str := s'.serial.drop s.serial.length

/-- The shell and its output, from its initialisation on, after any key events. -/
inductive ShellRun : Shell → Str → Prop
  | start {s s' : KernelState} (new : s.shell = Shell.new)
      (run : shellInitialize.run s = some s') : ShellRun s'.shell (emitted s s')
  | key {output : Str} {event : KeyEvent} {s s' : KernelState} (before : ShellRun s.shell output)
      (decoded : Decoded event) (run : (onKey event).run s = some s') :
      ShellRun s'.shell (output ++ emitted s s')

/-- `line_buffer[..len]` as text. -/
def Shell.lineText (shell : Shell) : Str :=
  shell.lineBytes.map fun byte => Char.ofNat byte.toNat

/-! ## Commands print whole lines -/

def WholeLines (text : Str) : Prop := text = [] ∨ ∃ lines, text = lines ++ ['\n']

theorem WholeLines.append {text text' : Str} (h : WholeLines text) (h' : WholeLines text') :
    WholeLines (text ++ text') := by
  rcases h' with rfl | ⟨lines, rfl⟩
  · rwa [List.append_nil]
  · exact .inr ⟨text ++ lines, (List.append_assoc _ _ _).symm⟩

def PrintsLines (s s' : KernelState) : Prop :=
  s'.shell = s.shell ∧ ∃ text, s'.serial = s.serial ++ text ∧ WholeLines text

theorem PrintsLines.refl (s : KernelState) : PrintsLines s s :=
  ⟨rfl, [], (List.append_nil _).symm, .inl rfl⟩

theorem PrintsLines.trans (s s' s'' : KernelState) (h : PrintsLines s s')
    (h' : PrintsLines s' s'') : PrintsLines s s'' := by
  obtain ⟨hshell, text, hserial, hlines⟩ := h
  obtain ⟨hshell', text', hserial', hlines'⟩ := h'
  refine ⟨hshell'.trans hshell, text ++ text', ?_, hlines.append hlines'⟩
  rw [hserial', hserial, List.append_assoc]

instance admitsFiles_printsLines : AdmitsFiles PrintsLines where
  refl := PrintsLines.refl
  line := fun _ text => ⟨rfl, _, rfl, .inr ⟨text, rfl⟩⟩
  files := fun _ _ => ⟨rfl, [], (List.append_nil _).symm, .inl rfl⟩

theorem printsLines_reply {shell : Shell} {s s' : KernelState}
    (h : (reply shell).run s = some s') : PrintsLines s s' := by
  have hkeeps : Keeps Set.univ PrintsLines ∅ (reply shell) := by
    unfold reply
    split
    · exact takes_executeCommand (free_univ _) (free_univ _) (free_univ _) fun _ => free_univ _
    · split_ifs
      · exact takes_println (free_univ _) _
      · rfl
  exact hkeeps.run_keeps PrintsLines.refl PrintsLines.trans h

/-! ## The screen -/

def promptText : Str := "aether> ".toList

/-- The line holds the printable text `typed`, and the screen shows it. -/
structure Shown (shell : Shell) (output typed : Str) : Prop where
  initialized : shell.initialized = true
  lineBytes : shell.lineBytes = stored typed
  printable : ∀ c ∈ typed, Printable c
  screen : Terminal.blank.render output = Terminal.written (promptText ++ typed)

theorem plain_of_printable {c : Char} (h : Printable c) : Terminal.Plain c := by
  constructor
  · rintro rfl
    exact absurd h (by decide)
  · rintro rfl
    exact absurd h (by decide)

theorem render_promptText : (Terminal.written []).render promptText =
    Terminal.written promptText :=
  Terminal.render_written (fun c hc => plain_of_printable (by revert c; decide)) []

theorem render_prompt (terminal : Terminal) (lines : Str) :
    terminal.render (lines ++ ['\n'] ++ promptText) = Terminal.written (promptText ++ []) := by
  rw [Terminal.render_append, Terminal.render_line, render_promptText, List.append_nil]

theorem emitted_eq {s s' : KernelState} {text : Str} (h : s'.serial = s.serial ++ text) :
    emitted s s' = text := by
  rw [emitted, h, List.drop_left]

variable {shell : Shell} {output typed : Str} {s s' : KernelState}

theorem Shown.len (h : Shown shell output typed) : shell.len = typed.length := by
  rw [← shell.length_lineBytes, h.lineBytes, stored, List.length_map]

theorem shown_initialize (hnew : s.shell = Shell.new) (hrun : shellInitialize.run s = some s') :
    Shown s'.shell (emitted s s') [] := by
  have hdown : s.shell.initialized = false := by rw [hnew]; rfl
  simp only [shellInitialize, Prog.run_withLock, Prog.run_inspect, hdown, Bool.false_eq_true,
    if_false, Prog.run_seq_cons, run_updateShell, run_println, prompt, run_print,
    Option.bind_some, Prog.run_seq_nil, Option.some.injEq] at hrun
  have houtput : emitted s s' = "AetherOS shell ready".toList ++ ['\n'] ++
      "Type 'help' to list commands.".toList ++ ['\n'] ++ promptText := by
    apply emitted_eq
    rw [← hrun]
    simp only [List.append_assoc]
    rfl
  constructor
  · rw [← hrun]
  · rw [← hrun, hnew]
    rfl
  · exact fun c hc => by cases hc
  · rw [houtput]
    exact render_prompt _ _

/-! ## Key events -/

theorem Shown.enter (h : Shown s.shell output typed) (hrun : (onKey .enter).run s = some s') :
    Shown s'.shell (output ++ emitted s s') [] := by
  obtain ⟨s₁, hreply, hs'⟩ := onKey_enter_spec h.initialized hrun
  obtain ⟨hshell, text, hserial, hlines⟩ := printsLines_reply hreply
  have houtput : emitted s s' = ['\n'] ++ text ++ promptText := by
    apply emitted_eq
    rw [hs']
    simp only [hserial, List.append_assoc]
    rfl
  constructor
  · rw [hs']
    change s₁.shell.initialized = true
    rw [hshell]
    exact h.initialized
  · rw [hs']
    rfl
  · exact fun c hc => by cases hc
  · rw [houtput, ← List.append_assoc]
    rcases hlines with rfl | ⟨lines, rfl⟩
    · rw [List.append_nil]
      exact render_prompt _ _
    · have hassoc : output ++ (['\n'] ++ (lines ++ ['\n'])) =
          output ++ ['\n'] ++ lines ++ ['\n'] := by simp
      rw [hassoc]
      exact render_prompt _ _

theorem Shown.backspace (h : Shown s.shell output typed)
    (hrun : (onKey .backspace).run s = some s') :
    Shown s'.shell (output ++ emitted s s') typed.dropLast := by
  have hlen := h.len
  by_cases hpos : 0 < s.shell.len
  · rw [run_onKey_backspace h.initialized hpos, Option.some.injEq] at hrun
    have houtput : emitted s s' = eraseText := emitted_eq (by rw [← hrun])
    rw [← hrun] at houtput ⊢
    have hne : typed ≠ [] := by
      intro hnil
      rw [hnil, List.length_nil] at hlen
      omega
    have hlast : promptText ++ typed = promptText ++ typed.dropLast ++ [typed.getLast hne] := by
      rw [List.append_assoc, List.dropLast_append_getLast hne]
    constructor
    · exact h.initialized
    · rw [stored_dropLast, ← h.lineBytes]
      exact s.shell.lineBytes_dropLast
    · exact fun c hc => h.printable c (List.mem_of_mem_dropLast hc)
    · rw [houtput, Terminal.render_append, h.screen, hlast]
      exact Terminal.render_erase _ _
  · rw [run_onKey_backspace_of_empty h.initialized hpos, Option.some.injEq] at hrun
    have houtput : emitted s s' = [] := emitted_eq (by rw [← hrun, List.append_nil])
    have hnil : typed = [] := List.eq_nil_of_length_eq_zero (by omega)
    rw [houtput, List.append_nil, ← hrun, hnil]
    rw [hnil] at h
    exact h

theorem Shown.char {c : Char} (h : Shown s.shell output typed) (hc : Printable c)
    (hrun : (onKey (.char c)).run s = some s') :
    ∃ typed', Shown s'.shell (output ++ emitted s s') typed' := by
  by_cases hroom : s.shell.len < maxLineLen
  · rw [run_onKey_char h.initialized hroom, Option.some.injEq] at hrun
    have houtput : emitted s s' = [c] := emitted_eq (by rw [← hrun])
    have hafter := s.shell.initialized_afterKey (.char c)
    rw [Shell.afterKey, if_pos hroom, h.initialized] at hafter
    rw [← hrun] at houtput ⊢
    refine ⟨typed ++ [c], hafter, ?_, ?_, ?_⟩
    · rw [stored_append, ← h.lineBytes]
      exact Shell.push_of_lt hroom c
    · intro c' hc'
      rcases List.mem_append.mp hc' with hold | hnew
      · exact h.printable c' hold
      · rw [List.mem_singleton.mp hnew]
        exact hc
    · have hplain : ∀ c' ∈ [c], Terminal.Plain c' := by
        simpa using plain_of_printable hc
      rw [houtput, Terminal.render_append, h.screen, Terminal.render_written hplain,
        List.append_assoc]
  · rw [run_onKey_char_of_full h.initialized hroom, Option.some.injEq] at hrun
    have houtput : emitted s s' = ['\n'] ++ "input too long".toList ++ ['\n'] ++ promptText := by
      apply emitted_eq
      rw [← hrun]
      simp only [List.append_assoc]
      rfl
    refine ⟨[], ?_, ?_, ?_, ?_⟩
    · rw [← hrun]
      exact h.initialized
    · rw [← hrun]
      rfl
    · exact fun c hc => by cases hc
    · rw [houtput, ← List.append_assoc, ← List.append_assoc]
      exact render_prompt _ _

theorem Shown.key {event : KeyEvent} (h : Shown s.shell output typed) (hevent : Decoded event)
    (hrun : (onKey event).run s = some s') :
    ∃ typed', Shown s'.shell (output ++ emitted s s') typed' := by
  cases event with
  | enter => exact ⟨_, h.enter hrun⟩
  | backspace => exact ⟨_, h.backspace hrun⟩
  | char c =>
      obtain ⟨code, shift, hcode⟩ := hevent
      exact h.char (printable_decodeScancode hcode) hrun

theorem ShellRun.shown (h : ShellRun shell output) : ∃ typed, Shown shell output typed := by
  induction h with
  | start new run => exact ⟨[], shown_initialize new run⟩
  | key _ decoded run ih =>
      obtain ⟨typed, htyped⟩ := ih
      exact htyped.key decoded run

theorem Shown.lineText (h : Shown shell output typed) : shell.lineText = typed := by
  rw [Shell.lineText, h.lineBytes, stored, List.map_map]
  conv_rhs => rw [← List.map_id typed]
  apply List.map_congr_left
  intro c hc
  simp only [Function.comp_apply, toNat_stored (h.printable c hc), Char.ofNat_toNat, id_eq]

theorem screen_shows_line (h : ShellRun shell output) :
    (Terminal.blank.render output).textLeft = "aether> ".toList ++ shell.lineText ∧
      ∀ column, (Terminal.blank.render output).cursor ≤ column →
        (Terminal.blank.render output).cells column = ' ' := by
  obtain ⟨typed, htyped⟩ := h.shown
  rw [htyped.screen, htyped.lineText]
  exact ⟨Terminal.textLeft_written _, fun _ hcolumn => Terminal.blank_behind_written hcolumn⟩

/-- The shell comes up, `l` is typed, and the screen shows it behind the prompt. -/
theorem screen_shows_line_l :
    ∃ shell output, ShellRun shell output ∧
      (Terminal.blank.render output).textLeft = "aether> l".toList := by
  have hsome : (shellInitialize.run KernelState.initial).isSome = true := rfl
  obtain ⟨s₁, hstart⟩ := Option.isSome_iff_exists.mp hsome
  have hshown := shown_initialize rfl hstart
  have hkey := run_onKey_char hshown.initialized (by rw [hshown.len]; decide) 'l'
  have hdecoded : Decoded (.char 'l') := ⟨0x26, false, by decide⟩
  have hrun := ShellRun.key (.start rfl hstart) hdecoded hkey
  have hline : (s₁.shell.push 'l').lineText = ['l'] := by
    rw [Shell.lineText, Shell.push_of_lt (by rw [hshown.len]; decide), hshown.lineBytes]
    decide
  refine ⟨_, _, hrun, ?_⟩
  have hscreen := (screen_shows_line hrun).1
  rw [hline] at hscreen
  exact hscreen

end AetherOs.Kernel
