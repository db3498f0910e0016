import AetherOs.Memory.Heap
/-!
# Which requests the heap satisfies

The addresses that could hold a request are described without the mask
arithmetic of `alloc`: the aligned ones between the cursor and the end of the
heap.  As long as `current + align_mask` is a word, one pass of the loop finds
the first of them or knows that there is none.

That addition is the only one of `alloc` that is not checked.  The last section
says which runs it does not end.
-/

namespace AetherOs.Memory.Heap

open AetherOs.Support AetherOs.Support.Word

variable {start size : Nat} {s : Config} {layout : Layout} {current heapEnd : Nat}

def Fits (layout : Layout) (current heapEnd a : Nat) : Prop :=
  current ≤ a ∧ layout.align ∣ a ∧ a + layout.size.toNat ≤ heapEnd

theorem isLeast_fits (hfit : layout.alignUp current + layout.size.toNat ≤ heapEnd) :
    IsLeast { a | Fits layout current heapEnd a } (layout.alignUp current) := by
  obtain ⟨⟨hle, hdvd⟩, hleast⟩ := layout.isLeast_alignUp current
  refine ⟨⟨hle, hdvd, hfit⟩, ?_⟩
  intro a ha
  exact hleast ⟨ha.1, ha.2.1⟩

theorem exists_fits_iff (layout : Layout) (current heapEnd : Nat) :
    (∃ a, Fits layout current heapEnd a) ↔
      layout.alignUp current + layout.size.toNat ≤ heapEnd := by
  constructor
  · rintro ⟨a, hle, hdvd, hend⟩
    have hleast := (layout.isLeast_alignUp current).2 ⟨hle, hdvd⟩
    have hsum := Nat.add_le_add_right hleast layout.size.toNat
    exact Nat.le_trans hsum hend
  · intro hfit
    exact ⟨_, (isLeast_fits hfit).1⟩

theorem afterLoads_eq (hne : current ≠ 0) (hlt : current + layout.alignMask < wordLimit)
    (hend : heapEnd < wordLimit) :
    afterLoads layout current heapEnd =
      if layout.alignUp current + layout.size.toNat ≤ heapEnd then
        .exchange layout current (layout.alignUp current)
          (layout.alignUp current + layout.size.toNat)
      else
        .returned layout 0 := by
  have hword : layout.alignUp current + layout.size.toNat ≤ heapEnd →
      layout.alignUp current + layout.size.toNat < wordLimit :=
    fun hfit => Nat.lt_of_le_of_lt hfit hend
  rw [afterLoads_of_lt hne hlt]
  simp only [and_iff_right_of_imp hword]

/-! ## A call that no other call interrupts -/

theorem exec_alloc {c : Nat} (hcall : s.calls c = .loadNext layout) (hne : s.shared.next ≠ 0)
    (hlt : s.shared.next + layout.alignMask < wordLimit) (hend : s.shared.heapEnd < wordLimit) :
    Runs.exec (Interleaving.step next) s [c, c, c] =
      if layout.alignUp s.shared.next + layout.size.toNat ≤ s.shared.heapEnd then
        ⟨{ s.shared with next := layout.alignUp s.shared.next + layout.size.toNat },
          Function.update s.calls c (.returned layout (layout.alignUp s.shared.next))⟩
      else
        ⟨s.shared, Function.update s.calls c (.returned layout 0)⟩ := by
  have hfirst : Interleaving.step next s c =
      ⟨s.shared, Function.update s.calls c (.loadEnd layout s.shared.next)⟩ :=
    Interleaving.step_of_some (by rw [hcall]; rfl)
  simp only [Runs.exec_cons, Runs.exec_nil, hfirst]
  split_ifs with hfit
  · simp only [Interleaving.step, Function.update_self, next, afterLoads_eq hne hlt hend,
      if_pos hfit, if_true, Function.update_idem]
  · simp only [Interleaving.step, Function.update_self, next, afterLoads_eq hne hlt hend,
      if_neg hfit, Function.update_idem]

theorem Sound.cells_of_initialized (h : Sound start size s) (hinit : s.calls 0 = .initialized) :
    s.shared.next ≠ 0 ∧ s.shared.heapEnd = start + size := by
  have hpc := h.pc 0
  rw [hinit] at hpc
  exact ⟨hpc, (h.cells hpc).2.1⟩

theorem alloc_finds_least_fit (hpos : 0 < start) (hfit : start + size < wordLimit)
    (requests : Nat → Request) (schedule : List Nat)
    (hinit : (run start size requests schedule).calls 0 = .initialized) (c : Nat)
    (layout : Layout) (hcall : (run start size requests schedule).calls c = .loadNext layout)
    (hmask : (run start size requests schedule).shared.next + layout.alignMask < wordLimit) :
    let s := run start size requests schedule
    let t := run start size requests (schedule ++ [c, c, c])
    (t.calls c = .returned layout 0 ↔ ¬∃ a, Fits layout s.shared.next s.shared.heapEnd a) ∧
      (t.calls c = .returned layout 0 → t.shared = s.shared ∧
        ∀ later, c ∉ later → ∀ d, d ≠ c →
          (run start size requests (schedule ++ [c, c, c] ++ later)).calls d =
            (run start size requests (schedule ++ later)).calls d) ∧
      ((∃ a, Fits layout s.shared.next s.shared.heapEnd a) →
        ∃ a, IsLeast { a | Fits layout s.shared.next s.shared.heapEnd a } a ∧
          t.calls c = .returned layout a ∧
          t.shared = { s.shared with next := a + layout.size.toNat }) := by
  intro s t
  obtain ⟨hne, hend⟩ := (run_sound hpos hfit requests schedule).cells_of_initialized hinit
  have hrun : t = _ := (run_append start size requests schedule [c, c, c]).trans
    (exec_alloc hcall hne hmask (by omega))
  rw [exists_fits_iff]
  by_cases hroom : layout.alignUp s.shared.next + layout.size.toNat ≤ s.shared.heapEnd
  · rw [if_pos hroom] at hrun
    have hptr : t.calls c = .returned layout (layout.alignUp s.shared.next) := by
      rw [hrun]
      exact Function.update_self _ _ _
    have hnull : t.calls c ≠ .returned layout 0 := by
      have hle := (layout.isLeast_alignUp s.shared.next).1.1
      have hpos : s.shared.next ≠ 0 := hne
      rw [hptr]
      intro heq
      injection heq
      omega
    refine ⟨iff_of_false hnull (not_not.mpr hroom), fun h => absurd h hnull, fun _ => ?_⟩
    exact ⟨_, isLeast_fits hroom, hptr, by rw [hrun]⟩
  · rw [if_neg hroom] at hrun
    have hptr : t.calls c = .returned layout 0 := by
      rw [hrun]
      exact Function.update_self _ _ _
    refine ⟨iff_of_true hptr hroom, fun _ => ⟨by rw [hrun], ?_⟩, fun h => absurd h hroom⟩
    intro later hlater d hd
    have hagree : Interleaving.AgreeOff c t s := by
      rw [hrun]
      exact ⟨rfl, fun e he => Function.update_of_ne he _ _⟩
    rw [run_append _ _ _ (schedule ++ [c, c, c]), run_append _ _ _ schedule later]
    exact (hagree.exec hlater).2 d hd

/-- A heap of 128 bytes holds a block of 24 aligned bytes, and none of 256. -/
theorem alloc_finds_least_fit_small :
    (run 4100 128 (fun _ => .alloc ⟨24, 3⟩) [0, 0, 0, 1, 1, 1]).calls 1 = .returned ⟨24, 3⟩ 4104 ∧
      ¬∃ a, Fits ⟨256, 3⟩ 4100 4228 a := by
  constructor
  · obtain ⟨a, hleast, hcall, -⟩ := (alloc_finds_least_fit (show 0 < 4100 by decide)
      (show 4100 + 128 < wordLimit by decide) (fun _ => .alloc ⟨24, 3⟩) [0, 0, 0]
      (by decide) 1 ⟨24, 3⟩ (by decide) (by decide)).2.2
      ⟨4104, by decide, by decide, by decide⟩
    have hfirst : IsLeast { a | Fits ⟨24, 3⟩ 4100 4228 a } 4104 := isLeast_fits (by decide)
    rw [hleast.unique hfirst] at hcall
    exact hcall
  · exact (alloc_finds_least_fit (show 0 < 4100 by decide)
      (show 4100 + 128 < wordLimit by decide) (fun _ => .alloc ⟨256, 3⟩) [0, 0, 0]
      (by decide) 1 ⟨256, 3⟩ (by decide) (by decide)).1.mp (by decide)

/-! ## The unchecked addition -/

/-- The layouts `Layout::from_size_align` returns: the size rounded up to the
alignment is at most `isize::MAX`. -/
def Layout.Admitted (layout : Layout) : Prop :=
  layout.align * (layout.size.toNat ⌈/⌉ layout.align) < 2 ^ 63

/-- No call has panicked, every pointer is null or the start of a block inside
the heap, and a call that has loaded a cursor with no room behind it is about to
return null. -/
structure Answered (start size : Nat) (s : Config) : Prop where
  panicked : ∀ c reason, s.calls c ≠ .panicked reason
  granted : ∀ c layout ptr, s.calls c = .returned layout ptr →
    ptr = 0 ∨ start ≤ ptr ∧ ptr + layout.size.toNat ≤ start + size
  null : ∀ c layout current, s.calls c = .loadEnd layout current →
    (¬∃ a, Fits layout current s.shared.heapEnd a) →
    next s.shared (s.calls c) = some (s.shared, .returned layout 0)

/-- A call that is about to load the cursor can add its mask to it. -/
def CursorAddable (s : Config) (c : Nat) : Prop :=
  ∀ layout, s.calls c = .loadNext layout →
    s.shared.next = 0 ∨ s.shared.next + layout.alignMask < wordLimit

def PcAddable : Pc → Prop
  | .loadEnd layout current => current = 0 ∨ current + layout.alignMask < wordLimit
  | .panicked _ => False
  | _ => True

theorem Sound.granted_inside (h : Sound start size s) {c ptr : Nat}
    (hcall : s.calls c = .returned layout ptr) :
    ptr = 0 ∨ start ≤ ptr ∧ ptr + layout.size.toNat ≤ start + size := by
  have hpc := h.pc c
  rw [hcall] at hpc
  rcases hpc with hzero | ⟨-, hstart, hend⟩
  · exact .inl hzero
  · by_cases hnext : s.shared.next = 0
    · exact .inl (by omega)
    · exact .inr ⟨hstart, Nat.le_trans hend (h.cells hnext).2.2.2⟩

/-- The sum leaves the words, so no aligned address of the heap is left. -/
theorem not_fits_of_overflow {a : Nat} (hover : wordLimit ≤ current + layout.alignMask)
    (hend : heapEnd < wordLimit) : ¬Fits layout current heapEnd a := by
  rintro ⟨hle, hdvd, hstop⟩
  have hlimit : layout.align ∣ wordLimit :=
    Nat.pow_dvd_pow 2 (Nat.le_of_lt layout.alignLog.isLt)
  have habove := le_of_dvd_of_overflow layout.align_pos hlimit hover hle hdvd
  omega

theorem pcAddable_afterLoads
    (h : current = 0 ∨ current + layout.alignMask < wordLimit) (hend : heapEnd < wordLimit) :
    PcAddable (afterLoads layout current heapEnd) := by
  by_cases hzero : current = 0
  · rw [afterLoads_of_zero hzero]
    trivial
  · rw [afterLoads_eq hzero (h.resolve_left hzero) hend]
    split_ifs <;> trivial

theorem Sound.heapEnd_of_loadEnd (hpos : 0 < start) (h : Sound start size s) {c : Nat}
    (hcall : s.calls c = .loadEnd layout current) (hne : current ≠ 0) :
    s.shared.heapEnd = start + size := by
  have hpc := h.pc c
  rw [hcall] at hpc
  have hcurrent := hpc.resolve_left hne
  exact (h.cells (by omega)).2.1

theorem Sound.pcAddable_next (hpos : 0 < start) (hfit : start + size < wordLimit)
    (h : Sound start size s) {c : Nat} {cells : BumpAllocator} {pc : Pc}
    (hallowed : CursorAddable s c) (hpc : PcAddable (s.calls c))
    (hn : next s.shared (s.calls c) = some (cells, pc)) : PcAddable pc := by
  have hsound := h.pc c
  have hsteps := Steps.of_next hn
  generalize hcall : s.calls c = before at hsound hpc hsteps
  cases hsteps with
  | storeEndOverflow hlt =>
      obtain ⟨rfl, rfl, -⟩ := hsound
      exact absurd hfit hlt
  | loadNext => exact hallowed _ hcall
  | @loadEnd layout current =>
      by_cases hzero : current = 0
      · rw [afterLoads_of_zero hzero]
        trivial
      · apply pcAddable_afterLoads hpc
        rw [h.heapEnd_of_loadEnd hpos hcall hzero]
        exact hfit
  | _ => trivial

def Addable (start size : Nat) (s : Config) : Prop :=
  Sound start size s ∧ ∀ c, PcAddable (s.calls c)

theorem Addable.answered (hpos : 0 < start) (hfit : start + size < wordLimit)
    (h : Addable start size s) : Answered start size s where
  panicked := by
    intro c reason hcall
    have hpc := h.2 c
    rw [hcall] at hpc
    exact hpc
  granted := fun _ _ _ hcall => h.1.granted_inside hcall
  null := by
    intro c layout current hcall hnone
    have hpc := h.2 c
    rw [hcall] at hpc ⊢
    rw [next]
    by_cases hne : current = 0
    · rw [afterLoads_of_zero hne]
    · have hend := h.1.heapEnd_of_loadEnd hpos hcall hne
      rw [afterLoads_eq hne (hpc.resolve_left hne) (by omega),
        if_neg (mt (exists_fits_iff _ _ _).mpr hnone)]

theorem Addable.step (hpos : 0 < start) (hfit : start + size < wordLimit) {c : Nat}
    (h : Addable start size s) (hallowed : CursorAddable s c) :
    Addable start size (Interleaving.step next s c) := by
  cases hn : next s.shared (s.calls c) with
  | none => rwa [Interleaving.step_of_none hn]
  | some x =>
      rw [Interleaving.step_of_some hn]
      refine ⟨h.1.step hpos hfit hn, fun d => ?_⟩
      by_cases hdc : d = c
      · subst hdc
        simpa using h.1.pcAddable_next hpos hfit hallowed (h.2 d) hn
      · simpa [hdc] using h.2 d

/-- A load that is not allowed leaves a call that panics on a request it cannot satisfy. -/
theorem Addable.not_answered_step (hfit : start + size < wordLimit) {c : Nat}
    (h : Addable start size s) (hallowed : ¬CursorAddable s c) :
    ¬Answered start size (Interleaving.step next s c) := by
  intro hanswered
  simp only [CursorAddable, not_forall, not_or, Nat.not_lt] at hallowed
  obtain ⟨layout, hcall, hne, hover⟩ := hallowed
  have hstep : Interleaving.step next s c =
      ⟨s.shared, Function.update s.calls c (.loadEnd layout s.shared.next)⟩ :=
    Interleaving.step_of_some (by rw [hcall]; rfl)
  rw [hstep] at hanswered
  have hend : s.shared.heapEnd < wordLimit := by
    rw [(h.1.cells hne).2.1]
    exact hfit
  have hnull := hanswered.null c layout s.shared.next (by simp)
    (fun hfits => not_fits_of_overflow hover hend hfits.choose_spec)
  simp [next, afterLoads_of_overflow hne hover] at hnull

theorem addable_initial (start size : Nat) (requests : Nat → Request) :
    Addable start size (initial start size requests) := by
  refine ⟨sound_initial start size requests, fun c => ?_⟩
  cases c with
  | zero => trivial
  | succ n => cases hr : requests n <;> simp [initial, Request.entry, hr, PcAddable]

theorem alloc_answers_iff (hpos : 0 < start) (hfit : start + size < wordLimit)
    (requests : Nat → Request) (schedule : List Nat) :
    (∀ n, Answered start size (run start size requests (schedule.take n))) ↔
      Runs.Along (Interleaving.step next) CursorAddable (initial start size requests) schedule :=
  Runs.forall_exec_take_iff_along (P := Addable start size) (fun _ h => h.answered hpos hfit)
    (fun _ _ h hallowed => h.step hpos hfit hallowed)
    (fun _ _ h hallowed => h.not_answered_step hfit hallowed)
    (addable_initial start size requests) schedule

/-- A kernel heap in the last 2 GiB of the address space answers a request of 8
bytes on an 8-byte boundary. -/
theorem alloc_answers_word :
    0xffffffff80200000 + heapSize < wordLimit ∧
      ∀ n, Answered 0xffffffff80200000 heapSize
        (run 0xffffffff80200000 heapSize (fun _ => .alloc ⟨8, 3⟩) ([0, 0, 0, 1, 1, 1].take n)) := by
  refine ⟨by decide, (alloc_answers_iff (by decide) (by decide) _ _).mpr ?_⟩
  refine ⟨?_, ?_, ?_, ?_, ?_, ?_, trivial⟩ <;> intro layout hcall
  · cases hcall
  · cases hcall
  · cases hcall
  · cases hcall
    exact .inr (by decide)
  · cases hcall
  · cases hcall

/-- The same heap panics on a request aligned to 2 GiB. -/
theorem alloc_overflows :
    (⟨8, 31⟩ : Layout).Admitted ∧ 0xffffffff80200000 + heapSize < wordLimit ∧
      (run 0xffffffff80200000 heapSize (fun _ => .alloc ⟨8, 31⟩) [0, 0, 0, 1, 1]).calls 1 =
        .panicked .overflow ∧
      ¬∀ n, Answered 0xffffffff80200000 heapSize
        (run 0xffffffff80200000 heapSize (fun _ => .alloc ⟨8, 31⟩) ([0, 0, 0, 1, 1].take n)) := by
  have hpanic : (run 0xffffffff80200000 heapSize (fun _ => .alloc ⟨8, 31⟩)
      [0, 0, 0, 1, 1]).calls 1 = .panicked .overflow := by decide
  have hadmitted : (⟨8, 31⟩ : Layout).Admitted := by
    unfold Layout.Admitted
    decide
  refine ⟨hadmitted, by decide, hpanic, fun h => ?_⟩
  exact (h 5).panicked 1 .overflow hpanic

end AetherOs.Memory.Heap
