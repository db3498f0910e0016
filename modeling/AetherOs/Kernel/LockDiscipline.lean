import AetherOs.Kernel.Session
import AetherOs.Kernel.Tasks
import AetherOs.Kernel.Totality
import AetherOs.Support.LockInvariants
/-!
# What the mutexes guard

Every routine of the kernel changes what a mutex guards only while it holds the
mutex, and gives it back with the value in order: the task statics agree with
the table, the line and the files are printable text, the stored framebuffer is
that of the boot information.  `TidyRoutine` says so of one routine.  This
module has the drivers, the task table and the file system.
-/

namespace AetherOs.Kernel

open AetherOs.Support AetherOs.Support.Text AetherOs.Support.Word AetherOs.Boot AetherOs.Fs
open AetherOs.Support.Interrupts
open AetherOs.Task AetherOs.Memory.Heap AetherOs.Memory.Frames AetherOs.Drivers
open AetherOs.Drivers.Keyboard

/-! ## Legible text -/

/-- What the kernel logs: printable characters, ends of lines, and the backspaces
of the line editor. -/
def Legible (text : Str) : Prop := ∀ c ∈ text, Printable c ∨ c = '\n' ∨ c = Char.ofNat 8

instance : DecidablePred Legible :=
  fun text => inferInstanceAs (Decidable (∀ c ∈ text, Printable c ∨ c = '\n' ∨ c = Char.ofNat 8))

theorem legible_of_printable {text : Str} (h : ∀ c ∈ text, Printable c) : Legible text :=
  fun c hc => Or.inl (h c hc)

theorem Legible.append {text text' : Str} (h : Legible text) (h' : Legible text') :
    Legible (text ++ text') := by
  intro c hc
  rcases List.mem_append.mp hc with hold | hnew
  · exact h c hold
  · exact h' c hnew

/-- A literal is the list of its characters; its bytes need not be decoded. -/
theorem legible_literal {characters : List Char} (h : Legible characters) :
    Legible (String.ofList characters).toList := by
  rw [String.toList_ofList]
  exact h

theorem legible_toDigits {base : Nat} (hbase : 1 < base) (hsixteen : base ≤ 16) (n : Nat) :
    Legible (Nat.toDigits base n) := by
  have hdigit : ∀ d < 16, Printable d.digitChar := by decide
  apply legible_of_printable
  intro c hc
  obtain ⟨d, hd, rfl⟩ := exists_digit_of_mem_toDigits hbase hc
  exact hdigit d (lt_of_lt_of_le hd hsixteen)

theorem legible_decimal (n : Nat) : Legible (decimal n) :=
  legible_toDigits (by decide) (by decide) n

theorem legible_hexadecimal (n : Nat) : Legible (hexadecimal n) :=
  Legible.append (legible_literal (by decide)) (legible_toDigits (by decide) (by decide) n)

/-! ## The discipline -/

def Guarded : Mutex → Type
  | .scheduler => Scheduler × Nat × Nat
  | .serial1 => Str
  | .shell => Shell
  | .shiftPressed => Bool
  | .framebuffer => Option FramebufferInfo
  | .writableFiles => Overlay
  | .pics => Unit

/-- The task statics are written under the mutex of the table. -/
def guarded : (m : Mutex) → KernelState → Guarded m
  | .scheduler, s => (s.scheduler, s.taskCount, s.currentTaskId)
  | .serial1, s => s.serial
  | .shell, s => s.shell
  | .shiftPressed, s => s.shiftPressed
  | .framebuffer, s => s.framebuffer
  | .writableFiles, s => s.overlay
  | .pics, _ => ()

def TypedLine (shell : Shell) : Prop :=
  ∃ typed, shell.lineBytes = stored typed ∧ ∀ c ∈ typed, Printable c

structure PrintableFiles (M : FileMap) : Prop where
  names : Typable M
  contents : ∀ key contents, M.lookup key = some contents → ∀ c ∈ contents, Printable c

def InGoodOrder (parameters : BootParameters) : (m : Mutex) → Guarded m → Prop
  | .scheduler, (table, count, current) =>
      ∃ calls : List TaskCall, table = Scheduler.after (calls.flatMap TaskCall.ops) ∧
        count = table.len ∧ current = table.currentTaskId
  | .serial1, _ => True
  | .shell, shell => TypedLine shell
  | .shiftPressed, _ => True
  | .framebuffer, framebuffer =>
      ∀ info, framebuffer = some info → parameters.bootInfo.framebuffer = some info
  | .writableFiles, overlay => ∃ M, Refines overlay M ∧ PrintableFiles M
  | .pics, _ => True

/-- A context may halt only if `halts`; otherwise the tick counter must not be
about to overflow. -/
def kernelDiscipline (parameters : BootParameters) (halts : Prop) :
    Discipline KernelState Mutex where
  Guarded := Guarded
  read := guarded
  Good := InGoodOrder parameters
  Always := fun s => Legible s.serial
  Given := fun s => halts ∨ s.ticks + 1 < wordLimit
  Halts := halts

abbrev TidyRoutine (parameters : BootParameters) (halts : Prop) (own : Finset Mutex)
    (p : Program) : Prop :=
  (kernelDiscipline parameters halts).Tidy own p

variable {parameters : BootParameters} {halts : Prop} {own : Finset Mutex}

/-! ## Output -/

theorem tidy_print (h : .serial1 ∉ own) {text : Str} (htext : Legible text) :
    TidyRoutine parameters halts own (print text) := by
  refine Discipline.Tidy.withLock_update h (fun s m hne => ?_) fun s hs _ => ?_
  · cases m <;> first | rfl | exact absurd rfl hne
  · exact ⟨Legible.append hs htext, trivial⟩

theorem tidy_println (h : .serial1 ∉ own) {text : Str} (htext : Legible text) :
    TidyRoutine parameters halts own (println text) :=
  tidy_print h (htext.append (by decide))

theorem tidy_literal (h : .serial1 ∉ own) {characters : List Char} (hline : Legible characters) :
    TidyRoutine parameters halts own (println (String.ofList characters).toList) :=
  tidy_println h (legible_literal hline)

theorem tidy_caption (h : .serial1 ∉ own) {characters : List Char} (hcaption : Legible characters)
    {text : Str} (htext : Legible text) :
    TidyRoutine parameters halts own (println ((String.ofList characters).toList ++ text)) :=
  tidy_println h (Legible.append (legible_literal hcaption) htext)

theorem tidy_printlnWith (h : .serial1 ∉ own) {text : KernelState → Str}
    (htext : ∀ s, Legible (text s)) : TidyRoutine parameters halts own (printlnWith text) :=
  .inspect fun s _ _ _ => tidy_println h (htext s)

theorem tidy_seq_println (h : .serial1 ∉ own) {lines : List Str} (hlines : ∀ l ∈ lines, Legible l) :
    TidyRoutine parameters halts own (.seq (lines.map println)) := by
  apply Discipline.Tidy.seq
  intro p hp
  obtain ⟨text, htext, rfl⟩ := List.mem_map.mp hp
  exact tidy_println h (hlines text htext)

theorem legible_unsafePrecondition {requirement : Str} (h : Legible requirement) :
    Legible (unsafePrecondition requirement) :=
  Legible.append (Legible.append (Legible.append (legible_literal (by decide)) h)
    (legible_literal (by decide))) (legible_literal (by decide))

theorem legible_describe (reason : Panic) : Legible (describe reason) := by
  cases reason with
  | overflow => exact legible_literal (by decide)
  | outOfBounds => exact legible_literal (by decide)
  | expectFailed => exact legible_literal (by decide)
  | pointerOverflow => exact legible_unsafePrecondition (legible_literal (by decide))
  | misaligned => exact legible_unsafePrecondition (legible_literal (by decide))

theorem tidy_panic (h : .serial1 ∉ own) (hhalts : halts) (reason : Panic) :
    TidyRoutine parameters halts own (panic reason) := by
  have htext := legible_describe reason
  refine (tidy_print h ?_).andThen ((tidy_literal h (by decide)).andThen
    ((tidy_println h ?_).andThen (Discipline.Tidy.halt hhalts)))
  · exact Legible.append (Legible.append (legible_literal (by decide)) htext) (by decide)
  · exact Legible.append (legible_literal (by decide)) htext

theorem tidy_update {f : KernelState → KernelState} (hread : ∀ s m, guarded m (f s) = guarded m s) :
    TidyRoutine parameters halts own (.update f) := by
  refine Discipline.Tidy.update hread fun s hs => ?_
  have hserial : (f s).serial = s.serial := hread s .serial1
  change Legible (f s).serial
  rw [hserial]
  exact hs

/-! ## Tasks -/

theorem legible_name_of_currentTask {s : KernelState}
    (h : (kernelDiscipline parameters halts).Inv .scheduler s) {task : Process}
    (htask : s.scheduler.currentTask = some task) : Legible task.name := by
  obtain ⟨calls, htable, -⟩ := h
  rw [show s.scheduler = _ from htable] at htask
  obtain ⟨q, hq, heq⟩ := currentTask_eq htask
  rw [heq]
  rcases hq with rfl | rfl
  · exact (by decide : Legible "idle".toList)
  · exact (by decide : Legible "init".toList)

theorem tidy_currentTask {α : Type} (h : .scheduler ∉ own) {field : Process → α}
    {k : Option α → Program}
    (hk : ∀ task : Option Process, (∀ t ∈ task, Legible t.name) →
      TidyRoutine parameters halts own (k (task.map field))) :
    TidyRoutine parameters halts own (currentTask field k) := by
  refine Discipline.Tidy.locked h (fun _ _ _ => rfl) (fun _ _ _ => rfl)
    (fun _ hs hinv => ⟨hs, hinv⟩) fun s _ _ hinv => hk s.scheduler.currentTask ?_
  exact fun t ht => legible_name_of_currentTask hinv ht

def setTasks (g : Scheduler × Nat × Nat → Scheduler × Nat × Nat) (s : KernelState) : KernelState :=
  { s with
    scheduler := (g (s.scheduler, s.taskCount, s.currentTaskId)).1
    taskCount := (g (s.scheduler, s.taskCount, s.currentTaskId)).2.1
    currentTaskId := (g (s.scheduler, s.taskCount, s.currentTaskId)).2.2 }

theorem local_setTasks (g : Scheduler × Nat × Nat → Scheduler × Nat × Nat) :
    (kernelDiscipline parameters halts).Local .scheduler (setTasks g) where
  others := fun s m hne => by cases m <;> first | rfl | exact absurd rfl hne
  congr := fun _ _ heq => congrArg g heq
  always := fun _ hs => hs

theorem tidy_schedulerTick (h : .scheduler ∉ own) :
    TidyRoutine parameters halts own schedulerTick := by
  have hbody : TidyRoutine parameters halts (insert .scheduler own) (.seq ([
      fun s => { s with scheduler := s.scheduler.runNext },
      fun s => { s with currentTaskId := s.scheduler.currentTaskId } ].map .update)) := by
    refine Discipline.Tidy.updates (Finset.mem_insert_self _ _) (fun f hf => ?_) ?_
    · simp only [List.mem_cons, List.not_mem_nil, or_false] at hf
      rcases hf with rfl | rfl
      · exact local_setTasks fun v => (v.1.runNext, v.2)
      · exact local_setTasks fun v => (v.1, v.2.1, v.1.currentTaskId)
    · rintro s ⟨calls, htable, hcount, -⟩
      refine ⟨calls ++ [.tick], ?_, hcount.trans Scheduler.runNext_len.symm, rfl⟩
      rw [List.flatMap_append, Scheduler.after, Runs.exec_append]
      change s.scheduler.runNext = (Scheduler.after _).runNext
      rw [show s.scheduler = _ from htable]
  exact .withLock h hbody

theorem tidy_taskInitialize (h : .scheduler ∉ own) :
    TidyRoutine parameters halts own taskInitialize := by
  have hbody : TidyRoutine parameters halts (insert .scheduler own) (.seq ([
      fun s => { s with scheduler := s.scheduler.add (.new 0 "idle".toList) },
      fun s => { s with scheduler := s.scheduler.add (.new 1 "init".toList) },
      fun s => { s with scheduler := s.scheduler.runNext },
      fun s => { s with taskCount := s.scheduler.len },
      fun s => { s with currentTaskId := s.scheduler.currentTaskId } ].map .update)) := by
    refine Discipline.Tidy.updates (Finset.mem_insert_self _ _) (fun f hf => ?_) ?_
    · simp only [List.mem_cons, List.not_mem_nil, or_false] at hf
      rcases hf with rfl | rfl | rfl | rfl | rfl
      · exact local_setTasks fun v => (v.1.add (.new 0 "idle".toList), v.2)
      · exact local_setTasks fun v => (v.1.add (.new 1 "init".toList), v.2)
      · exact local_setTasks fun v => (v.1.runNext, v.2)
      · exact local_setTasks fun v => (v.1, v.1.len, v.2.2)
      · exact local_setTasks fun v => (v.1, v.2.1, v.1.currentTaskId)
    · rintro s ⟨calls, htable, -, -⟩
      refine ⟨calls ++ [.initializeTasks], ?_, rfl, rfl⟩
      rw [List.flatMap_append, Scheduler.after, Runs.exec_append]
      change Runs.exec Scheduler.apply s.scheduler TaskCall.initializeTasks.ops =
        Runs.exec Scheduler.apply (Scheduler.after _) TaskCall.initializeTasks.ops
      rw [show s.scheduler = _ from htable]
  exact .withLock h hbody

/-! ## Files -/

def PrintableOp (op : Op) : Prop :=
  ∀ path contents, op = .write path contents →
    (∀ c ∈ path, Printable c ∧ c ≠ ' ') ∧ ∀ c ∈ contents, Printable c

theorem printableFiles_empty : PrintableFiles BoundedMap.empty where
  names := fun key hkey => by simp [BoundedMap.empty] at hkey
  contents := fun _ _ hlookup => by cases hlookup

/-- Contents are those of before or those of a write. -/
theorem lookup_apply_cases {M : FileMap} {op : Op} {key contents : Str}
    (h : (M.apply op).lookup key = some contents) :
    M.lookup key = some contents ∨
      ∃ path, op = .write path contents ∧ normalForm path = .ok key := by
  by_cases hpath : normalForm op.path = .ok key
  · unfold FileMap.apply at h
    cases hperform : M.perform op with
    | error error =>
        rw [hperform] at h
        exact Or.inl h
    | ok M' =>
        rw [hperform] at h
        cases op with
        | remove path =>
            have hkey : normalForm path = .ok key := hpath
            simp only [FileMap.perform, FileMap.remove, hkey] at hperform
            split_ifs at hperform
            cases hperform
            simp [BoundedMap.erase] at h
        | write path text =>
            have hkey : normalForm path = .ok key := hpath
            simp only [FileMap.perform, FileMap.write, hkey] at hperform
            split_ifs at hperform
            cases hperform
            simp only [BoundedMap.insert, Function.update_self, Option.some.injEq] at h
            exact Or.inr ⟨path, by rw [h], hkey⟩
  · rw [FileMap.lookup_apply_of_ne hpath] at h
    exact Or.inl h

theorem PrintableFiles.apply {M : FileMap} {op : Op} (h : PrintableFiles M) (hop : PrintableOp op) :
    PrintableFiles (M.apply op) := by
  constructor
  · intro key hkey
    rcases FileMap.mem_keys_apply hkey with hold | ⟨path, contents, heq, hnormal⟩
    · exact h.names key hold
    · exact token_of_normalForm (hop path contents heq).1 hnormal
  · intro key contents hlookup
    rcases lookup_apply_cases hlookup with hold | ⟨path, heq, -⟩
    · exact h.contents key contents hold
    · exact (hop path contents heq).2

theorem legible_of_mem_files : ∀ file ∈ files, Legible file.contents := by
  simp only [files, buildInitramfs, String.toList_append, List.forall_mem_cons]
  refine ⟨?_, ?_, ?_, ?_, fun _ h => by cases h⟩ <;>
    exact Legible.append (legible_literal (by decide)) (legible_literal (by decide))

theorem legible_of_find {path : Str} {file : InitramfsFile} (h : find path = some file) :
    Legible file.contents :=
  legible_of_mem_files file (List.mem_of_find?_eq_some h)

theorem tidy_vfsRead (hfiles : .writableFiles ∉ own) (path : Str) {k : Option Str → Program}
    (hk : ∀ value, (∀ text ∈ value, Legible text) → TidyRoutine parameters halts own (k value)) :
    TidyRoutine parameters halts own (vfsRead path k) := by
  unfold vfsRead
  rw [normalizePath_eq]
  cases normalForm path with
  | error error => exact hk none fun _ h => by cases h
  | ok key =>
      refine Discipline.Tidy.locked hfiles (fun _ _ _ => rfl) (fun _ _ _ => rfl)
        (fun _ hs hinv => ⟨hs, hinv⟩) fun s _ _ hinv => ?_
      obtain ⟨M, hrefines, hprintable⟩ := hinv
      have hread : readOverlay s.overlay key = M.lookup key := hrefines.readOverlay_eq key
      rw [hread]
      cases hlookup : M.lookup key with
      | some contents =>
          refine hk _ fun text htext => ?_
          cases htext
          exact legible_of_printable (hprintable.contents key contents hlookup)
      | none =>
          refine hk _ fun text htext => ?_
          obtain ⟨file, hfile, rfl⟩ := Option.mem_map.mp htext
          exact legible_of_find hfile

def performed (op : Op) (overlay : Overlay) : Except VfsError Unit :=
  match op.perform overlay with
  | .error _ => .ok ()
  | .ok (_, result) => result

theorem tidy_vfsPerform (hfiles : .writableFiles ∉ own) {op : Op} (hop : PrintableOp op)
    {k : Except VfsError Unit → Program}
    (hk : ∀ value, TidyRoutine parameters halts own (k value)) :
    TidyRoutine parameters halts own (vfsPerform op k) := by
  have hstep : ∀ s : KernelState, (kernelDiscipline parameters halts).Inv .writableFiles s →
      ∃ overlay, op.perform s.overlay = .ok (overlay, performed op s.overlay) := by
    rintro s ⟨M, hrefines, -⟩
    have hagrees := hrefines.perform_agrees op
    cases hperform : M.perform op with
    | error error =>
        rw [hperform] at hagrees
        have hconcrete : op.perform s.overlay = .ok (s.overlay, .error error) := hagrees
        exact ⟨s.overlay, by rw [performed, hconcrete]⟩
    | ok M' =>
        rw [hperform] at hagrees
        obtain ⟨overlay, hconcrete, -⟩ := hagrees
        have hconcrete : op.perform s.overlay = .ok (overlay, .ok ()) := hconcrete
        exact ⟨overlay, by rw [performed, hconcrete]⟩
  apply Discipline.Tidy.locked (k := fun s => k (performed op s.overlay)) hfiles
  · intro s _ hinv
    obtain ⟨overlay, hperform⟩ := hstep s hinv
    simp only [hperform]
  · intro s m hne
    cases m <;> first | rfl | exact absurd rfl hne
  · rintro s hs ⟨M, hrefines, hprintable⟩
    exact ⟨hs, M.apply op, hrefines.apply op, hprintable.apply hop⟩
  · exact fun s _ _ _ => hk _

theorem tidy_vfsWrite (hfiles : .writableFiles ∉ own) {path contents : Str}
    (hop : PrintableOp (.write path contents)) {k : Except VfsError Unit → Program}
    (hk : ∀ value, TidyRoutine parameters halts own (k value)) :
    TidyRoutine parameters halts own (vfsWrite path contents k) := by
  unfold vfsWrite
  rw [normalizePath_eq]
  cases normalForm path with
  | error error => exact hk _
  | ok key =>
      dsimp only
      split_ifs
      · exact hk _
      · exact tidy_vfsPerform hfiles hop hk

theorem tidy_vfsRemove (hfiles : .writableFiles ∉ own) (path : Str)
    {k : Except VfsError Unit → Program}
    (hk : ∀ value, TidyRoutine parameters halts own (k value)) :
    TidyRoutine parameters halts own (vfsRemove path k) := by
  unfold vfsRemove
  rw [normalizePath_eq]
  cases normalForm path with
  | error error => exact hk _
  | ok key => exact tidy_vfsPerform hfiles (fun _ _ heq => by cases heq) hk

/-! ## The screen -/

def Drawable (halts : Prop) (framebuffer : FramebufferInfo) : Prop :=
  halts ∨ (framebuffer.bpp = 32 → Vga.Paintable framebuffer)

theorem tidy_renderBootVisual (h : .serial1 ∉ own) {framebuffer : FramebufferInfo}
    (hdraw : Drawable halts framebuffer) :
    TidyRoutine parameters halts own (renderBootVisual framebuffer) := by
  unfold renderBootVisual
  split_ifs with hbpp
  · exact tidy_caption h (by decide) (legible_decimal _)
  · split
    · next reason hreason =>
        refine tidy_panic h (hdraw.resolve_right fun hscreen => ?_) reason
        rw [Vga.returns_bootVisual (hscreen (not_not.mp hbpp))] at hreason
        cases hreason
    · exact tidy_update fun _ _ => rfl

theorem tidy_redraw (h : .serial1 ∉ own) (hfb : .framebuffer ∉ own)
    (hdraw : ∀ info ∈ parameters.bootInfo.framebuffer, Drawable halts info) :
    TidyRoutine parameters halts own redrawBootShellSurface := by
  have hserial : Mutex.serial1 ∉ insert Mutex.framebuffer own := by simp [h]
  refine Discipline.Tidy.withLock hfb (Discipline.Tidy.inspect fun s _ _ hwhole => ?_)
  split
  · next info hinfo =>
      have hinv := hwhole .framebuffer (Finset.mem_insert_self _ _)
      exact tidy_renderBootVisual hserial (hdraw info (hinv info hinfo))
  · exact tidy_literal hserial (by decide)

end AetherOs.Kernel
