import AetherOs.Kernel.Console
import AetherOs.Kernel.KeyboardController
import AetherOs.Kernel.Tasks
import AetherOs.Kernel.Uptime
/-!
# Runs of the console

Whatever an idle kernel is interrupted by, what has been typed and read is what
the console has been used for: `Used` says which scancodes the kernel has read,
where that has brought the console, and what of it stands in the log.
-/

namespace AetherOs.Kernel

open AetherOs.Support AetherOs.Support.Text AetherOs.Support.Word AetherOs.Support.Interrupts
open AetherOs.Fs AetherOs.Drivers AetherOs.Drivers.Keyboard

/-- From `s` to `s'` the scancodes `typed` arrived and `taken` were read. -/
structure Used (c : Console) (typed taken : List UInt8) (s s' : KernelState) : Prop where
  queue : s.scancodes ++ typed = taken ++ s'.scancodes
  state : Realises s' (taken.foldl Console.scancode c)
  log : ∃ texts new, Told c taken texts ∧ s'.serial = s.serial ++ new ∧ Embeds texts new

variable {c : Console} {s s' s'' : KernelState} {typed typed' taken taken' : List UInt8}

theorem told_append {codes codes' : List UInt8} {texts texts' : List Str}
    (h : Told c codes texts) (h' : Told (codes.foldl Console.scancode c) codes' texts') :
    Told c (codes ++ codes') (texts ++ texts') := by
  induction codes generalizing c texts with
  | nil =>
      rw [show texts = [] from h]
      exact h'
  | cons code codes ih =>
      rw [List.cons_append]
      unfold Told at h ⊢
      cases hevent : (decodeScancode code c.shift).2 with
      | none =>
          rw [hevent] at h
          exact ih h h'
      | some event =>
          rw [hevent] at h
          obtain ⟨text, rest, rfl, hreply, hrest⟩ := h
          exact ⟨text, rest ++ texts', rfl, hreply, ih hrest h'⟩

theorem Used.trans (h : Used c typed taken s s')
    (h' : Used (taken.foldl Console.scancode c) typed' taken' s' s'') :
    Used c (typed ++ typed') (taken ++ taken') s s'' := by
  obtain ⟨texts, new, htold, hserial, hembeds⟩ := h.log
  obtain ⟨texts', new', htold', hserial', hembeds'⟩ := h'.log
  refine ⟨?_, ?_, texts ++ texts', new ++ new', told_append htold htold', ?_,
    hembeds.append hembeds'⟩
  · rw [← List.append_assoc, h.queue, List.append_assoc, h'.queue, List.append_assoc]
  · rw [List.foldl_append]
    exact h'.state
  · rw [hserial', hserial, List.append_assoc]

/-! ## One event -/

structure SameConsole (s s' : KernelState) : Prop where
  keyboard : s'.keyboardInitialized = s.keyboardInitialized
  shell : s'.shell = s.shell
  shift : s'.shiftPressed = s.shiftPressed
  overlay : s'.overlay = s.overlay

theorem Realises.same (h : Realises s c) (hs : SameConsole s s') : Realises s' c where
  keyboard := hs.keyboard.trans h.keyboard
  shell := by
    rw [hs.shell]
    exact h.shell
  shift := hs.shift.trans h.shift
  line := by
    rw [hs.shell]
    exact h.line
  printable := h.printable
  files := by
    rw [hs.overlay]
    exact h.files

theorem sameConsole_acknowledged (s : KernelState) : SameConsole s (acknowledged s) := by
  unfold acknowledged
  split_ifs <;> exact ⟨rfl, rfl, rfl, rfl⟩

theorem acknowledged_scancodes (s : KernelState) : (acknowledged s).scancodes = s.scancodes := by
  unfold acknowledged
  split_ifs <;> rfl

theorem acknowledged_serial (s : KernelState) : (acknowledged s).serial = s.serial := by
  unfold acknowledged
  split_ifs <;> rfl

theorem Realises.feed {code : UInt8} (h : Realises s c)
    (hrun : (feedScancode code).run s = some s') :
    Realises s' (c.scancode code) ∧
      ∃ texts, Told c [code] texts ∧ s'.serial = s.serial ++ texts.flatten := by
  rw [feedScancode, run_decode, h.shift] at hrun
  have hshifted : Realises { s with shiftPressed := (decodeScancode code c.shift).1 }
      { c with shift := (decodeScancode code c.shift).1 } :=
    ⟨h.keyboard, h.shell, rfl, h.line, h.printable, h.files⟩
  unfold Console.scancode Told
  cases hdecoded : decodeScancode code c.shift with
  | mk shift event =>
      rw [hdecoded] at hrun hshifted
      cases event with
      | none =>
          rw [Prog.run_done, Option.some.injEq] at hrun
          rw [← hrun]
          exact ⟨hshifted, [], rfl, (List.append_nil _).symm⟩
      | some event =>
          have hevent : ∀ character, event = .char character → Printable character := by
            rintro character rfl
            have hchar : (decodeScancode code c.shift).2 = some (.char character) := by
              rw [hdecoded]
            exact printable_decodeScancode hchar
          obtain ⟨hstate, text, hserial, hreply⟩ := hshifted.key hevent hrun
          have hreply' : Replies c text event := by cases event <;> exact hreply
          refine ⟨hstate, [text], ⟨text, [], rfl, hreply', rfl⟩, ?_⟩
          rw [hserial]
          simp

theorem used_keyboard {policy : KernelState → Irq → Bool} (h : Realises s c)
    (hatomic : atomic (kernelSystem policy) s (.served .keyboard) = some s') :
    ∃ code, Used c [] [code] s s' := by
  obtain ⟨hdeliver, hrun⟩ := atomic_served hatomic
  obtain ⟨code, rest, hqueue⟩ : ∃ code rest, s.scancodes = code :: rest := by
    apply List.exists_cons_of_ne_nil
    have hraised : raised s .keyboard = true := by
      simp only [kernelSystem, Bool.and_eq_true] at hdeliver
      exact hdeliver.1.2
    simpa [raised] using hraised
  let s₀ : KernelState := (kernelSystem policy).deliver .keyboard s
  have hinit : s₀.keyboardInitialized = true := h.keyboard
  change (interruptHandler .keyboard).run s₀ = some s' at hrun
  rw [run_keyboardHandler hinit, Option.map_eq_some_iff] at hrun
  obtain ⟨s₁, hfeed, rfl⟩ := hrun
  have hcode : s₀.scancodes.headD 0 = code := by
    change s.scancodes.headD 0 = code
    rw [hqueue]
    rfl
  have hread : Realises { s₀ with scancodes := s₀.scancodes.tail } c :=
    h.same ⟨rfl, rfl, rfl, rfl⟩
  rw [hcode] at hfeed
  obtain ⟨hstate, texts, htold, hserial⟩ := hread.feed hfeed
  have hkept : s₁.scancodes = rest := by
    have hstatic : Keeps Set.univ KeepsScancodes ∅ (feedScancode code) :=
      takes_decode_onKey (fun _ => trivial) code
    have hkeeps := Prog.Static.run_keeps (G := KeepsScancodes) (fun _ => rfl)
      (fun _ _ _ h h' => Eq.trans h' h) hstatic hfeed
    rw [show s₁.scancodes = s.scancodes.tail from hkeeps, hqueue]
    rfl
  refine ⟨code, ?_, hstate.same (sameConsole_acknowledged s₁), texts, texts.flatten, htold, ?_,
    embeds_flatten texts⟩
  · rw [acknowledged_scancodes, hkept, hqueue, List.append_nil]
    rfl
  · rw [acknowledged_serial, hserial]
    rfl

def ticked (s : KernelState) : KernelState :=
  { s with
    ticks := s.ticks + 1
    scheduler := s.scheduler.runNext
    currentTaskId := s.scheduler.runNext.currentTaskId
    serial := s.serial ++ tickText s.ticks }

theorem run_onTick (s : KernelState) :
    onTick.run s = if s.ticks + 1 < wordLimit then some (ticked s) else none := by
  rw [onTick, Prog.run_act]
  split_ifs with hlimit hlog
  · have htext : tickText s.ticks =
        "AetherOS: uptime ticks=".toList ++ decimal (s.ticks + 1) ++ ['\n'] := if_pos hlog
    rw [Prog.run_andThen, run_schedulerTick, Option.bind_some, run_println, ticked, htext,
      Nat.mod_eq_of_lt hlimit]
    simp
  · have htext : tickText s.ticks = [] := if_neg hlog
    rw [Prog.run_andThen, run_schedulerTick, Option.bind_some, Prog.run_done, ticked, htext,
      Nat.mod_eq_of_lt hlimit, List.append_nil]
  · exact run_panic _ _

theorem run_timerHandler {s s' : KernelState} (h : (interruptHandler .timer).run s = some s') :
    s' = acknowledged (ticked s) := by
  rw [interruptHandler, Prog.run_andThen, run_onTick] at h
  split_ifs at h
  · rw [Option.bind_some, run_notifyEndOfInterrupt, Option.some.injEq] at h
    exact h.symm
  · cases h

theorem used_timer {policy : KernelState → Irq → Bool} (h : Realises s c)
    (hatomic : atomic (kernelSystem policy) s (.served .timer) = some s') : Used c [] [] s s' := by
  obtain ⟨-, hrun⟩ := atomic_served hatomic
  let s₀ : KernelState := (kernelSystem policy).deliver .timer s
  have hs' : s' = acknowledged (ticked s₀) := run_timerHandler hrun
  have hticked : Realises (ticked s₀) c := h.same ⟨rfl, rfl, rfl, rfl⟩
  rw [hs']
  refine ⟨?_, hticked.same (sameConsole_acknowledged _), [], tickText s.ticks, rfl, ?_, trivial⟩
  · rw [acknowledged_scancodes, List.append_nil]
    rfl
  · rw [acknowledged_serial]
    rfl

theorem used_arrive (h : Realises s c) (code : UInt8) : Used c [code] [] s (arrive code s) where
  queue := rfl
  state := h.same ⟨rfl, rfl, rfl, rfl⟩
  log := ⟨[], [], rfl, (List.append_nil _).symm, trivial⟩

theorem Realises.used_refl (h : Realises s c) : Used c [] [] s s where
  queue := List.append_nil _
  state := h
  log := ⟨[], [], rfl, (List.append_nil _).symm, trivial⟩

/-! ## Every run -/

theorem Realises.replay {policy : KernelState → Irq → Bool} (h : Realises s c)
    {events : List (Event Irq UInt8)} (hrun : replay (kernelSystem policy) s events = some s') :
    ∃ taken, taken.length = events.count (.served .keyboard) ∧
      Used c (Event.moves events) taken s s' := by
  induction events generalizing c s with
  | nil =>
      rw [show s = s' from Option.some.inj hrun] at h ⊢
      exact ⟨[], rfl, h.used_refl⟩
  | cons event events ih =>
      rw [replay_cons, Option.bind_eq_some_iff] at hrun
      obtain ⟨s₁, hatomic, hrest⟩ := hrun
      have hfirst : ∃ taken, taken.length = [event].count (.served .keyboard) ∧
          Used c (Event.moves [event]) taken s s₁ := by
        match event with
        | .move code =>
            rw [← show arrive code s = s₁ from Option.some.inj hatomic]
            exact ⟨[], rfl, used_arrive h code⟩
        | .served .timer => exact ⟨[], rfl, used_timer h hatomic⟩
        | .served .keyboard =>
            obtain ⟨code, hused⟩ := used_keyboard h hatomic
            exact ⟨[code], rfl, hused⟩
      obtain ⟨taken, hcount, hused⟩ := hfirst
      obtain ⟨taken', hcount', hused'⟩ := ih hused.state hrest
      refine ⟨taken ++ taken', ?_, ?_⟩
      · rw [List.length_append, hcount, hcount', ← List.count_append]
        rfl
      · have hmoves : Event.moves (event :: events) =
            Event.moves [event] ++ Event.moves events := List.filterMap_append (l := [event])
        rw [hmoves]
        exact hused.trans hused'

/-- Every key typed at an idle kernel counts once and in its turn: after every
run that ends between two handlers, the scancodes read are the first ones that
were typed, one for each keyboard interrupt; the shift flag, the line and the
files are what the console has made of them; and the log has what the console
says to each key, in the order of the keys and each reply in one piece. -/
theorem kernel_realises_console (policy : KernelState → Irq → Bool)
    (st : State KernelState Mutex) (hidle : st.main.prog = .done) (hrest : st.handler = none)
    {c : Console} (hstart : Realises st.shared c) (labels : List (Label Irq UInt8))
    (hend : (Runs.exec (step (kernelSystem policy)) st labels).handler = none) :
    ∃ taken,
      taken.length = (history (kernelSystem policy) st labels).count (.served .keyboard) ∧
      Used c (moves labels) taken st.shared
        (Runs.exec (step (kernelSystem policy)) st labels).shared := by
  have hreplay := serial_order (blind_interruptHandler policy) hidle hrest hend
  rw [← moves_history (kernelSystem policy) st labels]
  exact hstart.replay hreplay

def consoleWithFile : State KernelState Mutex where
  shared := { consoleState.shared with
    overlay := Overlay.run [.write "/note".toList "hello".toList] }
  main := ⟨.done, ∅⟩
  handler := none

def catNoteKeys : List UInt8 := [0x2E, 0x1E, 0x14, 0x39, 0x31, 0x18, 0x14, 0x12, 0x1C]

/-- Each key is answered before the next one, up to the last two: they come while the
hundredth tick is being counted. -/
def catNote : List (Label Irq UInt8) :=
  ((catNoteKeys.take 7).flatMap fun code =>
    [.environment code, .interrupt .keyboard] ++ List.replicate 20 .run) ++
  [.interrupt .timer, .run, .environment 0x12, .run, .environment 0x1C] ++
    List.replicate 14 .run ++ .interrupt .keyboard :: List.replicate 20 .run ++
    .interrupt .keyboard :: List.replicate 36 .run

theorem kernel_realises_console_catNote :
    let s' := (Runs.exec (step (kernelSystem unblocked)) consoleWithFile catNote).shared
    ∃ taken, taken.length = 9 ∧
      Used ⟨false, [], FileMap.run [.write "/note".toList "hello".toList]⟩ catNoteKeys taken
        consoleWithFile.shared s' := by
  have hstart : Realises consoleWithFile.shared
      ⟨false, [], FileMap.run [.write "/note".toList "hello".toList]⟩ := by
    refine ⟨rfl, rfl, rfl, rfl, fun _ hc => ?_, run_refines _⟩
    cases hc
  have hend : (Runs.exec (step (kernelSystem unblocked)) consoleWithFile catNote).handler = none :=
    Option.isNone_iff_eq_none.mp (by decide +kernel)
  have hcount : (history (kernelSystem unblocked) consoleWithFile catNote).count
      (.served .keyboard) = 9 := by decide +kernel
  have hmain := kernel_realises_console unblocked consoleWithFile rfl rfl hstart catNote hend
  rw [hcount] at hmain
  exact hmain

end AetherOs.Kernel
