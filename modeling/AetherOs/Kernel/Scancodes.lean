import AetherOs.Kernel.LineEditor
/-!
# From scancodes to the line

The keyboard driver decodes scancodes with the shift flag as its only memory,
and hands the key events to the shell.  Whatever the scancodes are, what stands
in the line is printable ASCII, so storing a character as one byte loses
nothing and the line is always valid UTF-8.
-/

namespace AetherOs.Kernel

open AetherOs.Support AetherOs.Support.Text AetherOs.Support.Interrupts
open AetherOs.Drivers AetherOs.Drivers.Keyboard

/-- A scancode on its way through `decode_scancode` and `shell::on_key`. -/
def feedScancode (scancode : UInt8) : Program :=
  decode scancode fun
    | some event => onKey event
    | none => .done

def readScancode : Program :=
  .act (fun s => { s with scancodes := s.scancodes.tail }) fun s =>
    feedScancode (s.scancodes.headD 0)

theorem onInterrupt_eq :
    onInterrupt = .inspect fun s => if s.keyboardInitialized then readScancode else .done := rfl

def shiftAfter (shift : Bool) (codes : List UInt8) : Bool :=
  codes.foldl (fun shift code => (decodeScancode code shift).1) shift

def decodeAll (shift : Bool) : List UInt8 → List KeyEvent
  | [] => []
  | code :: codes =>
      (decodeScancode code shift).2.toList ++ decodeAll (decodeScancode code shift).1 codes

theorem decodeAll_append (shift : Bool) (codes codes' : List UInt8) :
    decodeAll shift (codes ++ codes') =
      decodeAll shift codes ++ decodeAll (shiftAfter shift codes) codes' := by
  induction codes generalizing shift with
  | nil => rfl
  | cons code codes ih =>
      rw [List.cons_append, decodeAll, decodeAll, ih, List.append_assoc]
      rfl

theorem shiftAfter_append (shift : Bool) (codes codes' : List UInt8) :
    shiftAfter shift (codes ++ codes') = shiftAfter (shiftAfter shift codes) codes' :=
  List.foldl_append

/-! ## Printable characters -/

def Printable (c : Char) : Prop := 0x20 ≤ c.toNat ∧ c.toNat ≤ 0x7E

instance : DecidablePred Printable :=
  fun c => inferInstanceAs (Decidable (0x20 ≤ c.toNat ∧ c.toNat ≤ 0x7E))

theorem printable_decodePrintable {scancode : UInt8} {shift : Bool} {c : Char}
    (h : decodePrintable scancode shift = some c) : Printable c := by
  unfold decodePrintable at h
  split at h <;> cases h <;> cases shift <;> decide

theorem printable_decodeScancode {scancode : UInt8} {shift : Bool} {c : Char}
    (h : (decodeScancode scancode shift).2 = some (.char c)) : Printable c := by
  unfold decodeScancode at h
  split at h
  case h_5 =>
    obtain ⟨c', hc', heq⟩ := Option.map_eq_some_iff.mp h
    cases heq
    exact printable_decodePrintable hc'
  all_goals cases h

theorem printable_decodeAll {shift : Bool} {codes : List UInt8} {c : Char}
    (h : .char c ∈ decodeAll shift codes) : Printable c := by
  induction codes generalizing shift with
  | nil => cases h
  | cons code codes ih =>
      rcases List.mem_append.mp h with hfirst | hrest
      · exact printable_decodeScancode (Option.mem_toList.mp hfirst)
      · exact ih hrest

theorem sinceRestart_subset {events : List KeyEvent} {event : KeyEvent}
    (h : event ∈ sinceRestart events) : event ∈ events :=
  (List.rtakeWhile_suffix _ _).subset ((sinceRestart_suffix events).subset h)

theorem printable_typed {shift : Bool} {codes : List UInt8} {c : Char}
    (h : c ∈ surviving (sinceRestart (decodeAll shift codes))) : Printable c :=
  printable_decodeAll (sinceRestart_subset (surviving_subset h))

/-! ## Runs of scancodes -/

theorem run_decode (scancode : UInt8) (k : Option KeyEvent → Program) (s : KernelState) :
    (decode scancode k).run s =
      (k (decodeScancode scancode s.shiftPressed).2).run
        { s with shiftPressed := (decodeScancode scancode s.shiftPressed).1 } := by
  rcases decode_cases scancode k with hlocked | ⟨event, hevent, hplain⟩
  · rw [hlocked]
    rfl
  · rw [hplain, hevent]

theorem feedScancode_spec {events : List KeyEvent} {s s' : KernelState} {code : UInt8}
    (h : Follows events s.shell) (hrun : (feedScancode code).run s = some s') :
    Follows ((decodeScancode code s.shiftPressed).2.toList.foldl restart events) s'.shell ∧
      s'.shiftPressed = (decodeScancode code s.shiftPressed).1 := by
  rw [feedScancode, run_decode] at hrun
  cases hevent : (decodeScancode code s.shiftPressed).2 with
  | none =>
      rw [hevent, Prog.run_done, Option.some.injEq] at hrun
      rw [← hrun]
      exact ⟨h, rfl⟩
  | some event =>
      rw [hevent] at hrun
      let shifted := { s with shiftPressed := (decodeScancode code s.shiftPressed).1 }
      have hshifted : Follows events shifted.shell := h
      refine ⟨hshifted.step hrun, ?_⟩
      rw [onKey_spec hshifted.initialized hrun]

theorem Follows.scancodes {events : List KeyEvent} {s s' : KernelState} {codes : List UInt8}
    (h : Follows events s.shell) (hrun : Prog.runAll (codes.map feedScancode) s = some s') :
    Follows ((decodeAll s.shiftPressed codes).foldl restart events) s'.shell ∧
      s'.shiftPressed = shiftAfter s.shiftPressed codes := by
  induction codes generalizing events s with
  | nil =>
      rw [List.map_nil, Prog.runAll_nil, Option.some.injEq] at hrun
      rw [← hrun]
      exact ⟨h, rfl⟩
  | cons code codes ih =>
      rw [List.map_cons, Prog.runAll_cons, Option.bind_eq_some_iff] at hrun
      obtain ⟨s₁, hfirst, hrest⟩ := hrun
      obtain ⟨hfollows, hshift⟩ := feedScancode_spec h hfirst
      have hlater := ih hfollows hrest
      rw [hshift] at hlater
      rw [decodeAll, List.foldl_append]
      exact hlater

/-- Scancodes that do not enter the line always get through. -/
theorem Follows.scancodes_complete {events : List KeyEvent} {s : KernelState} {codes : List UInt8}
    (h : Follows events s.shell) (henter : .enter ∉ decodeAll s.shiftPressed codes) :
    ∃ s', Prog.runAll (codes.map feedScancode) s = some s' := by
  induction codes generalizing events s with
  | nil => exact ⟨s, rfl⟩
  | cons code codes ih =>
      rw [decodeAll, List.mem_append, not_or] at henter
      have hfirst : ∃ s₁, (feedScancode code).run s = some s₁ := by
        rw [feedScancode, run_decode]
        cases hevent : (decodeScancode code s.shiftPressed).2 with
        | none => exact ⟨_, rfl⟩
        | some event =>
            rw [hevent, Option.toList_some, List.mem_singleton] at henter
            exact run_onKey_of_ne_enter (Ne.symm henter.1) _
      obtain ⟨s₁, hfirst⟩ := hfirst
      obtain ⟨hfollows, hshift⟩ := feedScancode_spec h hfirst
      obtain ⟨s₂, hrest⟩ := ih hfollows (by rw [hshift]; exact henter.2)
      refine ⟨s₂, ?_⟩
      rw [List.map_cons, Prog.runAll_cons, hfirst]
      exact hrest

/-! ## Through the interrupt handler -/

def acknowledged (s : KernelState) : KernelState :=
  if s.picInitialized then { s with inService := endOfInterrupt s.inService } else s

theorem run_notifyEndOfInterrupt (s : KernelState) :
    notifyEndOfInterrupt.run s = some (acknowledged s) := by
  rw [notifyEndOfInterrupt, Prog.run_inspect, acknowledged]
  split_ifs
  · rw [Prog.run_withLock, Prog.run_update]
  · rw [Prog.run_done]

theorem run_keyboardHandler {s : KernelState} (hinit : s.keyboardInitialized = true) :
    (interruptHandler .keyboard).run s =
      ((feedScancode (s.scancodes.headD 0)).run { s with scancodes := s.scancodes.tail }).map
        acknowledged := by
  rw [interruptHandler, Prog.run_andThen, onInterrupt_eq, Prog.run_inspect, if_pos hinit,
    readScancode, Prog.run_act, funext run_notifyEndOfInterrupt]
  exact Option.map_eq_bind.symm

/-- IRQ1 in a kernel that holds no mutex feeds the first scancode and returns. -/
theorem keyboardInterrupt_feeds (policy : KernelState → Irq → Bool) {s s' : KernelState}
    {main : Context KernelState Mutex} (hfree : main.held = ∅)
    (hinit : s.keyboardInitialized = true)
    (hdeliver : (kernelSystem policy).deliverable s .keyboard = true)
    (hrun : (feedScancode (s.scancodes.headD 0)).run
      { s with scancodes := s.scancodes.tail, inService := insert .keyboard s.inService } =
        some s') :
    ∃ n, Runs.exec (step (kernelSystem policy)) ⟨s, main, none⟩
      (.interrupt .keyboard :: List.replicate n .run) = ⟨acknowledged s', main, none⟩ := by
  let s₀ : KernelState := (kernelSystem policy).deliver .keyboard s
  have hhandler : (interruptHandler .keyboard).run s₀ = some (acknowledged s') := by
    rw [run_keyboardHandler (s := s₀) hinit]
    exact congrArg (Option.map acknowledged) hrun
  have hheld : ∀ m ∈ Set.univ, m ∉ main.held := by simp [hfree]
  obtain ⟨n, hn⟩ := exec_handler_returns (kernelSystem policy) main
    (static_interruptHandler .keyboard) hheld hhandler
  refine ⟨n, ?_⟩
  have hentered : step (kernelSystem policy) ⟨s, main, none⟩ (.interrupt .keyboard) =
      ⟨s₀, main, some ⟨interruptHandler .keyboard, ∅⟩⟩ := by
    simp only [step, if_pos hdeliver]
    rfl
  rw [Runs.exec_cons, hentered]
  exact hn

/-! ## Executed lines -/

def executedBy (s : KernelState) (code : UInt8) : Option Str :=
  if (decodeScancode code s.shiftPressed).2 = some .enter ∧ s.shell.initialized then
    s.shell.enteredLine
  else none

def executedLines : List UInt8 → KernelState → List Str
  | [], _ => []
  | code :: codes, s =>
      (executedBy s code).toList ++
        match (feedScancode code).run s with
        | some s' => executedLines codes s'
        | none => []

theorem executedLines_append {codes codes' : List UInt8} {s s' : KernelState}
    (h : Prog.runAll (codes.map feedScancode) s = some s') :
    executedLines (codes ++ codes') s = executedLines codes s ++ executedLines codes' s' := by
  induction codes generalizing s with
  | nil =>
      rw [List.map_nil, Prog.runAll_nil, Option.some.injEq] at h
      rw [h]
      rfl
  | cons code codes ih =>
      rw [List.map_cons, Prog.runAll_cons, Option.bind_eq_some_iff] at h
      obtain ⟨s₁, hfirst, hrest⟩ := h
      rw [List.cons_append, executedLines, executedLines, hfirst]
      dsimp only
      rw [ih hrest, List.append_assoc]

theorem Follows.executedLines_eq_nil {events : List KeyEvent} {s : KernelState}
    {codes : List UInt8} (h : Follows events s.shell)
    (henter : .enter ∉ decodeAll s.shiftPressed codes) : executedLines codes s = [] := by
  induction codes generalizing events s with
  | nil => rfl
  | cons code codes ih =>
      rw [decodeAll, List.mem_append, not_or] at henter
      have hnone : executedBy s code = none := by
        apply if_neg
        intro hentered
        rw [hentered.1] at henter
        exact henter.1 (by simp)
      rw [executedLines, hnone]
      cases hfirst : (feedScancode code).run s with
      | none => rfl
      | some s₁ =>
          obtain ⟨hfollows, hshift⟩ := feedScancode_spec h hfirst
          exact ih hfollows (by rw [hshift]; exact henter.2)

/-! ## The invariant -/

/-- What holds of the line when `typed` is left of what was typed on it. -/
structure LineHolds (typed : Str) (shell : Shell) : Prop where
  /-- the part of the buffer in use is inside it -/
  len_le : shell.len ≤ maxLineLen
  length_lineBytes : shell.lineBytes.length = shell.len
  printable : ∀ byte ∈ shell.lineBytes, 0x20 ≤ byte ∧ byte ≤ 0x7E
  characters : shell.lineBytes.map UInt8.toNat = typed.map Char.toNat
  /-- a character that finds room is stored behind the others -/
  push : ∀ character, shell.len < maxLineLen →
    (shell.push character).lineBytes = shell.lineBytes ++ [UInt8.ofNat character.toNat]
  /-- the bytes are valid UTF-8 -/
  line : shell.line = some (trim typed)

theorem toNat_stored {c : Char} (h : Printable c) : (UInt8.ofNat c.toNat).toNat = c.toNat := by
  have hlt : c.toNat < 256 := lt_of_le_of_lt h.2 (by decide)
  rw [UInt8.toNat_ofNat', Nat.mod_eq_of_lt hlt]

theorem lineHolds_of_follows {events : List KeyEvent} {shell : Shell} (h : Follows events shell)
    (hprintable : ∀ c ∈ surviving events, Printable c) : LineHolds (surviving events) shell where
  len_le := shell.len_le
  length_lineBytes := shell.length_lineBytes
  printable := by
    intro byte hbyte
    rw [h.lineBytes] at hbyte
    obtain ⟨c, hc, rfl⟩ := List.mem_map.mp hbyte
    rw [UInt8.le_iff_toNat_le, UInt8.le_iff_toNat_le, toNat_stored (hprintable c hc)]
    exact hprintable c hc
  characters := by
    rw [h.lineBytes, stored, List.map_map]
    exact List.map_congr_left fun c hc => toNat_stored (hprintable c hc)
  push := fun character hlen => Shell.push_of_lt hlen character
  line := line_of_ascii h fun c hc => lt_of_le_of_lt (hprintable c hc).2 (by decide)

/-- After any scancodes, the line holds the characters decoded since its last
restart, less those deleted, and no cast has changed one. -/
theorem scancodes_leave_printable_line {s s' : KernelState} {codes : List UInt8}
    (hup : s.shell.initialized = true) (hempty : s.shell.len = 0)
    (hrun : Prog.runAll (codes.map feedScancode) s = some s') :
    LineHolds (surviving (sinceRestart (decodeAll s.shiftPressed codes))) s'.shell ∧
      ∀ c, .char c ∈ decodeAll s.shiftPressed codes →
        (UInt8.ofNat c.toNat).toNat = c.toNat := by
  have hfollows := ((follows_nil hup hempty).scancodes hrun).1
  constructor
  · exact lineHolds_of_follows hfollows fun c hc => printable_typed hc
  · exact fun c hc => toNat_stored (printable_decodeAll hc)

def typedHi : List UInt8 := [0x2A, 0x23, 0xA3, 0xAA, 0x17]

theorem scancodes_leave_printable_line_hi :
    shellUp.shell.initialized = true ∧ shellUp.shell.len = 0 ∧
    ∃ s', Prog.runAll (typedHi.map feedScancode) shellUp = some s' ∧
      LineHolds "Hi".toList s'.shell := by
  have hsome : (Prog.runAll (typedHi.map feedScancode) shellUp).isSome = true := by rfl
  obtain ⟨s', hrun⟩ := Option.isSome_iff_exists.mp hsome
  exact ⟨rfl, rfl, s', hrun, (scancodes_leave_printable_line rfl rfl hrun).1⟩

end AetherOs.Kernel
