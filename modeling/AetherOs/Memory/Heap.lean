import AetherOs.Support.Interleaving
import AetherOs.Support.Word
/-!
# The kernel heap

`kernel/src/memory/heap.rs`.  The bump allocator is three atomic cells, of
which `alloc` only moves `next`.  Call number 0 is the one call of
`initialize`; every other call is a call of `alloc` or of `heap_used`, and
`next` performs one atomic load, store or exchange together with the local
computation that follows it.

The invariant ties every granted block to the cursor: a block ends at or below
the cursor, and the exchange that grants the next block starts from the cursor.
-/

namespace AetherOs.Memory.Heap

open AetherOs.Support AetherOs.Support.Word

def heapSize : Nat := 128 * 1024

/-- A requested block; the alignment is a power of two. -/
structure Layout where
  size : UInt64
  alignLog : Fin 64
  deriving DecidableEq, Repr

def Layout.align (layout : Layout) : Nat := 2 ^ layout.alignLog.val

/-- `layout.align().saturating_sub(1)` -/
def Layout.alignMask (layout : Layout) : Nat := layout.align - 1

structure BumpAllocator where
  heapStart : Nat
  heapEnd : Nat
  next : Nat
  deriving DecidableEq, Repr

def BumpAllocator.new : BumpAllocator := ⟨0, 0, 0⟩

/-! ## The calls -/

/-- Where a call stands.  `returned` carries the pointer, 0 for `null_mut()`. -/
inductive Pc where
  | storeStart (start size : Nat)
  | storeEnd (start size : Nat)
  | storeNext (start : Nat)
  | initialized
  | loadNext (layout : Layout)
  | loadEnd (layout : Layout) (current : Nat)
  | exchange (layout : Layout) (current aligned following : Nat)
  | returned (layout : Layout) (ptr : Nat)
  | loadStart
  | loadUsed (start : Nat)
  | used (value : Nat)
  | panicked (reason : Panic)
  deriving DecidableEq, Repr

/-- The body of the loop of `alloc` between its loads and the exchange. -/
def afterLoads (layout : Layout) (current heapEnd : Nat) : Pc :=
  if current = 0 then
    .returned layout 0
  else
    match add current layout.alignMask with
    | .error reason => .panicked reason
    | .ok sum =>
        let aligned := sum &&& complement layout.alignMask
        match checkedAdd aligned layout.size.toNat with
        | none => .returned layout 0
        | some following =>
            if heapEnd < following then
              .returned layout 0
            else
              .exchange layout current aligned following

def usedBetween (start next : Nat) : Nat :=
  if start = 0 ∨ next < start then 0 else next - start

def next (cells : BumpAllocator) : Pc → Option (BumpAllocator × Pc)
  | .storeStart start size => some ({ cells with heapStart := start }, .storeEnd start size)
  | .storeEnd start size =>
      match add start size with
      | .error reason => some (cells, .panicked reason)
      | .ok stop => some ({ cells with heapEnd := stop }, .storeNext start)
  | .storeNext start => some ({ cells with next := start }, .initialized)
  | .loadNext layout => some (cells, .loadEnd layout cells.next)
  | .loadEnd layout current => some (cells, afterLoads layout current cells.heapEnd)
  | .exchange layout current aligned following =>
      if cells.next = current then
        some ({ cells with next := following }, .returned layout aligned)
      else
        some (cells, .loadNext layout)
  | .loadStart => some (cells, .loadUsed cells.heapStart)
  | .loadUsed start => some (cells, .used (usedBetween start cells.next))
  | .initialized | .returned _ _ | .used _ | .panicked _ => none

inductive Request where
  | alloc (layout : Layout)
  | heapUsed
  deriving DecidableEq, Repr

def Request.entry : Request → Pc
  | .alloc layout => .loadNext layout
  | .heapUsed => .loadStart

abbrev Config := Interleaving.Config BumpAllocator Pc

/-- `initialize(start, size)` is call 0, and call `n + 1` is the request `requests n`. -/
def initial (start size : Nat) (requests : Nat → Request) : Config where
  shared := .new
  calls
    | 0 => .storeStart start size
    | n + 1 => (requests n).entry

def run (start size : Nat) (requests : Nat → Request) (schedule : List Nat) : Config :=
  Runs.exec (Interleaving.step next) (initial start size requests) schedule

theorem run_append (start size : Nat) (requests : Nat → Request) (schedule later : List Nat) :
    run start size requests (schedule ++ later) =
      Runs.exec (Interleaving.step next) (run start size requests schedule) later :=
  Runs.exec_append _ _ _

def BumpAllocator.heapUsed (cells : BumpAllocator) : Nat := usedBetween cells.heapStart cells.next

/-! ## Alignment -/

theorem Layout.align_pos (layout : Layout) : 0 < layout.align := Nat.two_pow_pos _

def Layout.alignUp (layout : Layout) (current : Nat) : Nat :=
  layout.align * (current ⌈/⌉ layout.align)

theorem Layout.isLeast_alignUp (layout : Layout) (current : Nat) :
    IsLeast { a | current ≤ a ∧ layout.align ∣ a } (layout.alignUp current) :=
  isLeast_mul_ceilDiv layout.align_pos current

/-- `(current + align_mask) & !align_mask` is the next multiple of the alignment. -/
theorem Layout.mask_eq_alignUp {layout : Layout} {current : Nat}
    (h : current + layout.alignMask < wordLimit) :
    (current + layout.alignMask) &&& complement layout.alignMask = layout.alignUp current :=
  add_mask_and_complement h (Nat.le_of_lt layout.alignLog.isLt)

section afterLoads

variable {layout : Layout} {current heapEnd : Nat}

theorem afterLoads_of_zero (hzero : current = 0) :
    afterLoads layout current heapEnd = .returned layout 0 := by
  rw [afterLoads, if_pos hzero]

theorem afterLoads_of_overflow (hne : current ≠ 0)
    (hover : wordLimit ≤ current + layout.alignMask) :
    afterLoads layout current heapEnd = .panicked .overflow := by
  unfold afterLoads add
  rw [if_neg hne, if_neg (Nat.not_lt.mpr hover)]

theorem afterLoads_of_lt (hne : current ≠ 0) (hlt : current + layout.alignMask < wordLimit) :
    afterLoads layout current heapEnd =
      if layout.alignUp current + layout.size.toNat < wordLimit ∧
          layout.alignUp current + layout.size.toNat ≤ heapEnd then
        .exchange layout current (layout.alignUp current)
          (layout.alignUp current + layout.size.toNat)
      else
        .returned layout 0 := by
  unfold afterLoads
  rw [if_neg hne, add_of_lt hlt]
  simp only [Layout.mask_eq_alignUp hlt, checkedAdd]
  by_cases hword : layout.alignUp current + layout.size.toNat < wordLimit
  · rw [if_pos hword]
    simp only
    by_cases hfull : heapEnd < layout.alignUp current + layout.size.toNat
    · rw [if_pos hfull, if_neg (by omega)]
    · rw [if_neg hfull, if_pos (by omega)]
  · rw [if_neg hword, if_neg (by omega)]

/-- The only block the loop body tries to grant. -/
theorem afterLoads_cases (layout : Layout) (current heapEnd : Nat) :
    afterLoads layout current heapEnd = .returned layout 0 ∨
      (∃ reason, afterLoads layout current heapEnd = .panicked reason) ∨
      ∃ aligned, current ≠ 0 ∧ layout.align ∣ aligned ∧ current ≤ aligned ∧
        aligned + layout.size.toNat ≤ heapEnd ∧
        afterLoads layout current heapEnd =
          .exchange layout current aligned (aligned + layout.size.toNat) := by
  by_cases hzero : current = 0
  · exact .inl (afterLoads_of_zero hzero)
  by_cases hlt : current + layout.alignMask < wordLimit
  · obtain ⟨hle, hdvd⟩ := (layout.isLeast_alignUp current).1
    rw [afterLoads_of_lt hzero hlt]
    split_ifs with hfit
    · exact .inr (.inr ⟨_, hzero, hdvd, hle, hfit.2, rfl⟩)
    · exact .inl rfl
  · exact .inr (.inl ⟨_, afterLoads_of_overflow hzero (Nat.le_of_not_lt hlt)⟩)

end afterLoads

/-! ## Steps -/

inductive Steps (cells : BumpAllocator) : Pc → BumpAllocator → Pc → Prop
  | storeStart {start size : Nat} :
      Steps cells (.storeStart start size) { cells with heapStart := start } (.storeEnd start size)
  | storeEnd {start size : Nat} (h : start + size < wordLimit) :
      Steps cells (.storeEnd start size) { cells with heapEnd := start + size } (.storeNext start)
  | storeEndOverflow {start size : Nat} (h : ¬start + size < wordLimit) :
      Steps cells (.storeEnd start size) cells (.panicked .overflow)
  | storeNext {start : Nat} :
      Steps cells (.storeNext start) { cells with next := start } .initialized
  | loadNext {layout : Layout} :
      Steps cells (.loadNext layout) cells (.loadEnd layout cells.next)
  | loadEnd {layout : Layout} {current : Nat} :
      Steps cells (.loadEnd layout current) cells (afterLoads layout current cells.heapEnd)
  | exchanged {layout : Layout} {aligned following : Nat} :
      Steps cells (.exchange layout cells.next aligned following)
        { cells with next := following } (.returned layout aligned)
  | retried {layout : Layout} {current aligned following : Nat} (h : cells.next ≠ current) :
      Steps cells (.exchange layout current aligned following) cells (.loadNext layout)
  | loadStart : Steps cells .loadStart cells (.loadUsed cells.heapStart)
  | loadUsed {start : Nat} :
      Steps cells (.loadUsed start) cells (.used (usedBetween start cells.next))

theorem Steps.of_next {cells cells' : BumpAllocator} {pc pc' : Pc}
    (h : next cells pc = some (cells', pc')) : Steps cells pc cells' pc' := by
  cases pc with
  | storeStart start size => cases h; exact .storeStart
  | storeEnd start size =>
      simp only [next, add] at h
      split_ifs at h with hlt
      · cases h; exact .storeEnd hlt
      · cases h; exact .storeEndOverflow hlt
  | storeNext start => cases h; exact .storeNext
  | loadNext layout => cases h; exact .loadNext
  | loadEnd layout current => cases h; exact .loadEnd
  | exchange layout current aligned following =>
      simp only [next] at h
      split_ifs at h with hcas
      · subst hcas; cases h; exact .exchanged
      · cases h; exact .retried hcas
  | loadStart => cases h; exact .loadStart
  | loadUsed start => cases h; exact .loadUsed
  | initialized => cases h
  | returned _ _ => cases h
  | used _ => cases h
  | panicked _ => cases h

/-! ## The invariant -/

def Pc.Initializing : Pc → Prop
  | .storeStart _ _ | .storeEnd _ _ | .storeNext _ => True
  | _ => False

def PcSound (start size : Nat) (cells : BumpAllocator) : Pc → Prop
  | .storeStart start' size' => start' = start ∧ size' = size ∧ cells.next = 0
  | .storeEnd start' size' =>
      start' = start ∧ size' = size ∧ cells.next = 0 ∧ cells.heapStart = start
  | .storeNext start' =>
      start' = start ∧ cells.next = 0 ∧ cells.heapStart = start ∧ cells.heapEnd = start + size
  | .initialized => cells.next ≠ 0
  | .loadEnd _ current => current = 0 ∨ start ≤ current ∧ current ≤ cells.next
  | .exchange layout current aligned following =>
      start ≤ current ∧ layout.align ∣ aligned ∧ current ≤ aligned ∧
        following = aligned + layout.size.toNat ∧ following ≤ start + size
  | .returned layout ptr =>
      ptr = 0 ∨ layout.align ∣ ptr ∧ start ≤ ptr ∧ ptr + layout.size.toNat ≤ cells.next
  | .loadNext _ | .loadStart | .loadUsed _ | .used _ | .panicked _ => True

def Apart : Pc → Pc → Prop
  | .returned layout ptr, .returned layout' ptr' =>
      ptr ≠ 0 → ptr' ≠ 0 →
        ptr + layout.size.toNat ≤ ptr' ∨ ptr' + layout'.size.toNat ≤ ptr
  | _, _ => True

/-- The cursor is 0 until `initialize` has stored it and in the heap from then on. -/
structure Sound (start size : Nat) (s : Config) : Prop where
  cells : s.shared.next ≠ 0 → s.shared.heapStart = start ∧ s.shared.heapEnd = start + size ∧
    start ≤ s.shared.next ∧ s.shared.next ≤ start + size
  only : ∀ c, (s.calls c).Initializing → c = 0
  pc : ∀ c, PcSound start size s.shared (s.calls c)
  apart : ∀ c d, c ≠ d → Apart (s.calls c) (s.calls d)

variable {start size : Nat} {s : Config}

theorem Apart.symm {pc pc' : Pc} (h : Apart pc pc') : Apart pc' pc := by
  cases pc <;> cases pc' <;> try trivial
  intro hp hp'
  exact (h hp' hp).symm

theorem apart_of_not_returned {pc : Pc} (h : ∀ layout ptr, pc ≠ .returned layout ptr) (pc' : Pc) :
    Apart pc pc' := by
  cases pc <;> cases pc' <;> try trivial
  exact absurd rfl (h _ _)

theorem PcSound.mono {cells cells' : BumpAllocator} {pc : Pc}
    (h : PcSound start size cells pc) (hnot : ¬ pc.Initializing)
    (hle : cells.next ≤ cells'.next) : PcSound start size cells' pc := by
  cases pc with
  | storeStart _ _ => exact absurd trivial hnot
  | storeEnd _ _ => exact absurd trivial hnot
  | storeNext _ => exact absurd trivial hnot
  | initialized =>
      simp only [PcSound] at h ⊢
      omega
  | loadEnd layout current =>
      simp only [PcSound] at h ⊢
      omega
  | exchange layout current aligned following => exact h
  | returned layout ptr =>
      rcases h with h | ⟨hdvd, hstart, hend⟩
      · exact .inl h
      · exact .inr ⟨hdvd, hstart, Nat.le_trans hend hle⟩
  | loadNext _ => trivial
  | loadStart => trivial
  | loadUsed _ => trivial
  | used _ => trivial
  | panicked _ => trivial

/-- A step of call `c` keeps the invariant if it does not lower the cursor, and
if the moved call is sound and apart from the others. -/
theorem Sound.of_move (h : Sound start size s) {c : Nat} {cells : BumpAllocator} {pc : Pc}
    (hle : s.shared.next ≤ cells.next)
    (hcells : cells.next ≠ 0 → cells.heapStart = start ∧ cells.heapEnd = start + size ∧
      start ≤ cells.next ∧ cells.next ≤ start + size)
    (honly : pc.Initializing → c = 0)
    (hpc : PcSound start size cells pc)
    (hothers : ∀ d, d ≠ c → (s.calls d).Initializing → PcSound start size cells (s.calls d))
    (hapart : ∀ d, d ≠ c → Apart pc (s.calls d)) :
    Sound start size ⟨cells, Function.update s.calls c pc⟩ where
  cells := hcells
  only := by
    intro d hd
    by_cases hdc : d = c
    · subst hdc
      simp only [Function.update_self] at hd
      exact honly hd
    · simp only [Function.update_of_ne hdc] at hd
      exact h.only d hd
  pc := by
    intro d
    by_cases hdc : d = c
    · subst hdc
      simpa only [Function.update_self] using hpc
    · simp only [Function.update_of_ne hdc]
      by_cases hinit : (s.calls d).Initializing
      · exact hothers d hdc hinit
      · exact (h.pc d).mono hinit hle
  apart := by
    intro d e hde
    by_cases hdc : d = c
    · subst hdc
      simp only [Function.update_self, Function.update_of_ne (Ne.symm hde)]
      exact hapart e (Ne.symm hde)
    · by_cases hec : e = c
      · subst hec
        simp only [Function.update_self, Function.update_of_ne hdc]
        exact (hapart d hdc).symm
      · simp only [Function.update_of_ne hdc, Function.update_of_ne hec]
        exact h.apart d e hde

theorem Sound.no_other (h : Sound start size s) {c d : Nat} (hc : (s.calls c).Initializing)
    (hdc : d ≠ c) : ¬ (s.calls d).Initializing := by
  intro hd
  exact hdc ((h.only d hd).trans (h.only c hc).symm)

/-- A step that leaves the cells alone and grants nothing. -/
theorem Sound.of_local (h : Sound start size s) {c : Nat} {pc : Pc}
    (hnot : ¬ pc.Initializing) (hpc : PcSound start size s.shared pc)
    (hnull : ∀ layout ptr, pc = .returned layout ptr → ptr = 0) :
    Sound start size ⟨s.shared, Function.update s.calls c pc⟩ := by
  refine h.of_move (Nat.le_refl _) h.cells (fun hinit => absurd hinit hnot) hpc
    (fun d _ _ => h.pc d) (fun d _ => ?_)
  cases pc with
  | returned layout ptr =>
      have hzero := hnull layout ptr rfl
      cases hd : s.calls d <;> try trivial
      exact fun hne => absurd hzero hne
  | _ => exact apart_of_not_returned (fun _ _ heq => by cases heq) _

theorem PcSound.next_eq_zero {cells : BumpAllocator} {pc : Pc}
    (h : PcSound start size cells pc) (hinit : pc.Initializing) : cells.next = 0 := by
  cases pc with
  | storeStart _ _ => exact h.2.2
  | storeEnd _ _ => exact h.2.2.1
  | storeNext _ => exact h.2.1
  | _ => exact absurd hinit id

theorem Sound.of_store (h : Sound start size s) {c : Nat} (hc : (s.calls c).Initializing)
    {cells : BumpAllocator} {pc : Pc}
    (hcells : cells.next ≠ 0 → cells.heapStart = start ∧ cells.heapEnd = start + size ∧
      start ≤ cells.next ∧ cells.next ≤ start + size)
    (hpc : PcSound start size cells pc) (hnot : ∀ layout ptr, pc ≠ .returned layout ptr) :
    Sound start size ⟨cells, Function.update s.calls c pc⟩ := by
  have hzero := (h.pc c).next_eq_zero hc
  refine h.of_move (by omega) hcells (fun _ => h.only c hc) hpc (fun d hdc hd => ?_)
    (fun d _ => apart_of_not_returned hnot _)
  exact absurd hd (h.no_other hc hdc)

/-- A successful exchange grants a block above every block granted before. -/
theorem Sound.of_exchange (hpos : 0 < start) (h : Sound start size s) {c : Nat}
    {layout : Layout} {aligned following : Nat}
    (hcall : s.calls c = .exchange layout s.shared.next aligned following) :
    Sound start size ⟨{ s.shared with next := following },
      Function.update s.calls c (.returned layout aligned)⟩ := by
  have hpc := h.pc c
  rw [hcall] at hpc
  obtain ⟨hstart, hdvd, hle, hfollowing, hstop⟩ := hpc
  have hcells := h.cells (by omega)
  refine h.of_move (show s.shared.next ≤ following by omega)
    (fun _ => ⟨hcells.1, hcells.2.1, show start ≤ following by omega, hstop⟩)
    (fun hinit => absurd hinit id)
    (.inr ⟨hdvd, by omega, hfollowing.ge⟩) (fun d _ hd => ?_) (fun d _ => ?_)
  · have hzero := (h.pc d).next_eq_zero hd
    omega
  · have hd := h.pc d
    cases hcalld : s.calls d <;> try trivial
    rename_i layout' ptr'
    rw [hcalld] at hd
    intro _ hne
    have hend := (hd.resolve_left hne).2.2
    exact .inr (by omega)

theorem Sound.step (hpos : 0 < start) (hfit : start + size < wordLimit)
    (h : Sound start size s) {c : Nat} {cells : BumpAllocator} {pc : Pc}
    (hn : next s.shared (s.calls c) = some (cells, pc)) :
    Sound start size ⟨cells, Function.update s.calls c pc⟩ := by
  have hpc := h.pc c
  have hsteps := Steps.of_next hn
  generalize hcall : s.calls c = before at hpc hsteps
  cases hsteps with
  | storeStart =>
      obtain ⟨rfl, rfl, hzero⟩ := hpc
      exact h.of_store (by rw [hcall]; trivial) (fun hne => absurd hzero hne)
        ⟨rfl, rfl, hzero, rfl⟩ (fun _ _ heq => by cases heq)
  | storeEnd hlt =>
      obtain ⟨rfl, rfl, hzero, hheap⟩ := hpc
      exact h.of_store (by rw [hcall]; trivial) (fun hne => absurd hzero hne)
        ⟨rfl, hzero, hheap, rfl⟩ (fun _ _ heq => by cases heq)
  | storeEndOverflow hlt =>
      obtain ⟨rfl, rfl, -⟩ := hpc
      exact absurd hfit hlt
  | storeNext =>
      obtain ⟨rfl, hzero, hheap, hend⟩ := hpc
      exact h.of_store (by rw [hcall]; trivial)
        (fun _ => ⟨hheap, hend, Nat.le_refl _, Nat.le_add_right _ _⟩)
        (Nat.ne_of_gt hpos) (fun _ _ heq => by cases heq)
  | loadNext =>
      refine h.of_local id ?_ (fun _ _ heq => by cases heq)
      by_cases hzero : s.shared.next = 0
      · exact .inl hzero
      · exact .inr ⟨(h.cells hzero).2.2.1, Nat.le_refl _⟩
  | @loadEnd layout current =>
      rcases afterLoads_cases layout current s.shared.heapEnd with
        heq | ⟨reason, heq⟩ | ⟨aligned, hne, hdvd, hle, hstop, heq⟩
      · rw [heq]
        exact h.of_local id (.inl rfl) (fun _ _ heq => by cases heq; rfl)
      · rw [heq]
        exact h.of_local id trivial (fun _ _ heq => by cases heq)
      · have hcurrent := hpc.resolve_left hne
        have hcells := h.cells (by omega)
        rw [heq]
        exact h.of_local id ⟨hcurrent.1, hdvd, hle, rfl, by omega⟩ (fun _ _ heq => by cases heq)
  | exchanged => exact h.of_exchange hpos hcall
  | retried _ => exact h.of_local id trivial (fun _ _ heq => by cases heq)
  | loadStart => exact h.of_local id trivial (fun _ _ heq => by cases heq)
  | loadUsed => exact h.of_local id trivial (fun _ _ heq => by cases heq)

theorem sound_initial (start size : Nat) (requests : Nat → Request) :
    Sound start size (initial start size requests) where
  cells := fun hne => absurd rfl hne
  only := by
    intro c hc
    cases c with
    | zero => rfl
    | succ n => cases hr : requests n <;> simp [initial, Request.entry, hr, Pc.Initializing] at hc
  pc := by
    intro c
    cases c with
    | zero => exact ⟨rfl, rfl, rfl⟩
    | succ n => cases hr : requests n <;> simp [initial, Request.entry, hr, PcSound]
  apart := by
    intro c d _
    refine apart_of_not_returned (fun layout ptr heq => ?_) _
    cases c with
    | zero => cases heq
    | succ n => cases hr : requests n <;> simp [initial, Request.entry, hr] at heq

theorem run_sound (hpos : 0 < start) (hfit : start + size < wordLimit)
    (requests : Nat → Request) (schedule : List Nat) :
    Sound start size (run start size requests schedule) :=
  Interleaving.invariant (fun _ _ _ _ hs hn => hs.step hpos hfit hn)
    (sound_initial start size requests) schedule

/-! ## `heap_used` -/

theorem Sound.next_le (h : Sound start size s) {c : Nat} {cells : BumpAllocator} {pc : Pc}
    (hn : next s.shared (s.calls c) = some (cells, pc)) : s.shared.next ≤ cells.next := by
  have hpc := h.pc c
  have hsteps := Steps.of_next hn
  generalize s.calls c = before at hpc hsteps
  cases hsteps with
  | storeNext =>
      obtain ⟨-, hzero, -⟩ := hpc
      rw [hzero]
      exact Nat.zero_le _
  | exchanged =>
      obtain ⟨-, -, hle, hfollowing, -⟩ := hpc
      dsimp only
      omega
  | _ => exact Nat.le_refl _

/-- Whatever was stored, the heap in use is what the cursor has left behind. -/
theorem Sound.heapUsed_eq (hpos : 0 < start) (h : Sound start size s) :
    s.shared.heapUsed = s.shared.next - start := by
  unfold BumpAllocator.heapUsed usedBetween
  by_cases hzero : s.shared.next = 0
  · split_ifs <;> omega
  · obtain ⟨hheap, -, hle, -⟩ := h.cells hzero
    rw [hheap, if_neg (by omega)]

theorem Sound.heapUsed_le (hpos : 0 < start) (h : Sound start size s) :
    s.shared.heapUsed ≤ size := by
  rw [h.heapUsed_eq hpos]
  by_cases hzero : s.shared.next = 0
  · omega
  · have hcells := h.cells hzero
    omega

/-- The state of a call of `heap_used` that began when `before` bytes were in use. -/
def Measures (start before now : Nat) : Pc → Prop
  | .loadStart => True
  | .loadUsed start' => start' = start
  | .used value => before ≤ value ∧ value ≤ now
  | _ => False

theorem Measures.mono {before now now' : Nat} {pc : Pc} (h : Measures start before now pc)
    (hle : now ≤ now') : Measures start before now' pc := by
  cases pc with
  | used value => exact ⟨h.1, Nat.le_trans h.2 hle⟩
  | loadStart => trivial
  | loadUsed start' => exact h
  | _ => exact absurd h id

/-- What holds in every state after one in which `initialize` had finished and
`before` bytes were in use. -/
structure Later (start size before : Nat) (calls : Nat → Pc) (s : Config) : Prop where
  sound : Sound start size s
  initialized : s.shared.next ≠ 0
  grown : before ≤ s.shared.heapUsed
  measures : ∀ c, calls c = .loadStart → Measures start before s.shared.heapUsed (s.calls c)

theorem Later.step (hpos : 0 < start) (hfit : start + size < wordLimit) {before : Nat}
    {calls : Nat → Pc} (h : Later start size before calls s) {c : Nat} {cells : BumpAllocator}
    {pc : Pc} (hn : next s.shared (s.calls c) = some (cells, pc)) :
    Later start size before calls ⟨cells, Function.update s.calls c pc⟩ := by
  have hsound := h.sound.step hpos hfit hn
  have hnext := h.sound.next_le hn
  have hused : s.shared.heapUsed ≤ cells.heapUsed := by
    rw [h.sound.heapUsed_eq hpos, hsound.heapUsed_eq hpos]
    exact Nat.sub_le_sub_right hnext start
  have hinit := h.initialized
  refine ⟨hsound, show cells.next ≠ 0 by omega, Nat.le_trans h.grown hused, fun d hd => ?_⟩
  have hmeasures := h.measures d hd
  by_cases hdc : d = c
  · subst hdc
    simp only [Function.update_self]
    have hsteps := Steps.of_next hn
    generalize s.calls d = before at hmeasures hsteps
    cases hsteps with
    | loadStart => exact (h.sound.cells hinit).1
    | loadUsed =>
        have hstart : _ = start := hmeasures
        rw [hstart, ← (h.sound.cells hinit).1]
        exact ⟨h.grown, Nat.le_refl _⟩
    | _ => exact absurd hmeasures id
  · simp only [Function.update_of_ne hdc]
    exact hmeasures.mono hused

theorem exec_later (hpos : 0 < start) (hfit : start + size < wordLimit)
    (h : Sound start size s) (hinit : s.calls 0 = .initialized) (later : List Nat) :
    Later start size s.shared.heapUsed s.calls
      (Runs.exec (Interleaving.step next) s later) := by
  have hpc := h.pc 0
  rw [hinit] at hpc
  refine Interleaving.invariant (fun _ _ _ _ hs hn => hs.step hpos hfit hn)
    ⟨h, hpc, Nat.le_refl _, fun c hc => ?_⟩ later
  rw [hc]
  trivial

/-! ## The heap under any interleaving -/

def Granted (s : Config) (c : Nat) (layout : Layout) (ptr : Nat) : Prop :=
  s.calls c = .returned layout ptr ∧ ptr ≠ 0

theorem heap_blocks_safe (hpos : 0 < start) (hfit : start + size < wordLimit)
    (requests : Nat → Request) (schedule : List Nat) :
    (∀ c layout ptr, Granted (run start size requests schedule) c layout ptr →
      layout.align ∣ ptr ∧ start ≤ ptr ∧ ptr + layout.size.toNat ≤ start + size) ∧
    (∀ c d layout layout' ptr ptr', c ≠ d →
      Granted (run start size requests schedule) c layout ptr →
      Granted (run start size requests schedule) d layout' ptr' →
      ptr + layout.size.toNat ≤ ptr' ∨ ptr' + layout'.size.toNat ≤ ptr) ∧
    ((run start size requests schedule).calls 0 = .initialized → ∀ later,
      (run start size requests schedule).shared.heapUsed ≤
          (run start size requests (schedule ++ later)).shared.heapUsed ∧
        (run start size requests (schedule ++ later)).shared.heapUsed ≤ size ∧
        ∀ c value, (run start size requests schedule).calls c = .loadStart →
          (run start size requests (schedule ++ later)).calls c = .used value →
          (run start size requests schedule).shared.heapUsed ≤ value ∧
            value ≤ (run start size requests (schedule ++ later)).shared.heapUsed) := by
  have hsound := run_sound hpos hfit requests schedule
  refine ⟨?_, ?_, ?_⟩
  · rintro c layout ptr ⟨hcall, hne⟩
    have hpc := hsound.pc c
    rw [hcall] at hpc
    obtain ⟨hdvd, hstart, hend⟩ := hpc.resolve_left hne
    have hcells := hsound.cells (by omega)
    exact ⟨hdvd, hstart, Nat.le_trans hend hcells.2.2.2⟩
  · rintro c d layout layout' ptr ptr' hcd ⟨hc, hne⟩ ⟨hd, hne'⟩
    have hapart := hsound.apart c d hcd
    rw [hc, hd] at hapart
    exact hapart hne hne'
  · intro hinit later
    have hlater := exec_later hpos hfit hsound hinit later
    rw [run_append]
    refine ⟨hlater.grown, hlater.sound.heapUsed_le hpos, fun c value hc hv => ?_⟩
    have hmeasures := hlater.measures c hc
    rw [hv] at hmeasures
    exact hmeasures

/-- Two requests that race for the first block after `initialize(4096, 128)`. -/
theorem heap_blocks_safe_two :
    Granted (run 4096 128 (fun _ => .alloc ⟨24, 3⟩) [0, 0, 0, 1, 1, 2, 2, 1, 2, 2, 2, 2]) 1
        ⟨24, 3⟩ 4096 ∧
      Granted (run 4096 128 (fun _ => .alloc ⟨24, 3⟩) [0, 0, 0, 1, 1, 2, 2, 1, 2, 2, 2, 2]) 2
        ⟨24, 3⟩ 4120 ∧
      (4096 + 24 ≤ 4120 ∨ 4120 + 24 ≤ 4096) := by
  have hfirst : Granted (run 4096 128 (fun _ => .alloc ⟨24, 3⟩)
      [0, 0, 0, 1, 1, 2, 2, 1, 2, 2, 2, 2]) 1 ⟨24, 3⟩ 4096 := by
    refine ⟨by decide, by decide⟩
  have hsecond : Granted (run 4096 128 (fun _ => .alloc ⟨24, 3⟩)
      [0, 0, 0, 1, 1, 2, 2, 1, 2, 2, 2, 2]) 2 ⟨24, 3⟩ 4120 := by
    refine ⟨by decide, by decide⟩
  exact ⟨hfirst, hsecond,
    (heap_blocks_safe (by decide) (by decide) _ _).2.1 1 2 _ _ _ _ (by decide) hfirst hsecond⟩

end AetherOs.Memory.Heap
