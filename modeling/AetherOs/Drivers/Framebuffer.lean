import AetherOs.Drivers.Vga
import AetherOs.Support.Stores
/-!
# What the drawing routines store

Rows of the framebuffer are `pitch` bytes apart and begin with four bytes for
each pixel.  `fillRect` of a rectangle whose far corner is a pair of `u32`
values does not overflow.  It is the stores to the pixels of the rectangle that
are on the screen, in order, up to the first one that `ptr::add` or
`ptr::write_volatile` refuses; where they refuse none it sets each of these
pixels and nothing else.

Every rectangle of the boot screen is of that kind, on every screen.
-/

namespace AetherOs.Drivers.Vga

open AetherOs.Support AetherOs.Support.Word AetherOs.Boot

def pixelOffset (info : FramebufferInfo) (px py : Nat) : Nat := py * info.pitch.toNat + 4 * px

def OnScreen (info : FramebufferInfo) (px py : Nat) : Prop :=
  px < info.width.toNat ∧ py < info.height.toNat

/-- The pixels of a rectangle that are on the screen. -/
def InRect (info : FramebufferInfo) (x y width height px py : Nat) : Prop :=
  (x ≤ px ∧ px < min (x + width) info.width.toNat) ∧
    (y ≤ py ∧ py < min (y + height) info.height.toNat)

instance (info : FramebufferInfo) (x y width height px py : Nat) :
    Decidable (InRect info x y width height px py) :=
  inferInstanceAs (Decidable (_ ∧ _))

/-- Four bytes to a pixel, and rows that hold them. -/
structure FourByte (info : FramebufferInfo) : Prop where
  bpp : info.bpp = 32
  pitch : 4 * info.width.toNat ≤ info.pitch.toNat

/-- The checks of `ptr::add` and `ptr::write_volatile` let a store to this offset pass. -/
def Writable (info : FramebufferInfo) (offset : Nat) : Prop :=
  offset < 2 ^ 63 ∧ info.address.toNat + offset < wordLimit ∧ 4 ∣ info.address.toNat + offset

instance (info : FramebufferInfo) (offset : Nat) : Decidable (Writable info offset) :=
  inferInstanceAs (Decidable (_ ∧ _))

/-- Every pixel of the screen can be stored to. -/
structure Paintable (info : FramebufferInfo) : Prop extends FourByte info where
  writable : ∀ px py, OnScreen info px py → Writable info (pixelOffset info px py)

variable {info : FramebufferInfo}

/-! ## Checked computations -/

theorem lift_ok_bind {α : Type} (a : α) (f : α → Draw Unit) :
    ((liftM (.ok a : Checked α) : Draw α) >>= f) = f a := rfl

theorem forM_congr {α : Type} {l : List α} {f g : α → Draw Unit} (h : ∀ a ∈ l, f a = g a) :
    l.forM f = l.forM g := by
  induction l with
  | nil => rfl
  | cons a l ih =>
      simp only [List.forM_eq_forM, List.forM_cons] at ih ⊢
      rw [h a (by simp), ih fun b hb => h b (by simp [hb])]

theorem addU32_of_lt {a b : Nat} (h : a + b < 2 ^ 32) : addU32 a b = .ok (a + b) := by
  rw [addU32, if_pos h]

theorem mulU32_of_lt {a b : Nat} (h : a * b < 2 ^ 32) : mulU32 a b = .ok (a * b) := by
  rw [mulU32, if_pos h]

/-! ## Stores one after another -/

def writeAll (info : FramebufferInfo) (stores : List PixelStore) : Draw Unit :=
  stores.forM fun store => writePixel info store.offset store.color

theorem writeAll_append (stores stores' : List PixelStore) :
    writeAll info (stores ++ stores') = (do writeAll info stores; writeAll info stores') :=
  List.forM_append

theorem writeAll_flatMap {α : Type} (l : List α) (stores : α → List PixelStore) :
    writeAll info (l.flatMap stores) = l.forM fun a => writeAll info (stores a) := by
  induction l with
  | nil => rfl
  | cons a l ih =>
      rw [List.flatMap_cons, writeAll_append, ih]
      rfl

theorem writePixel_of_writable {offset : Nat} (h : Writable info offset) (color : UInt32)
    (written : List PixelStore) :
    (writePixel info offset color).run.run written = (.ok (), written ++ [⟨offset, color⟩]) := by
  obtain ⟨hoffset, hword, haligned⟩ := h
  simp only [writePixel, pointerAdd, if_pos (And.intro hoffset hword), lift_ok_bind,
    if_pos haligned]
  rfl

/-- A refused store writes nothing, and its reason is not an overflow. -/
theorem writePixel_of_not_writable {offset : Nat} (h : ¬ Writable info offset) (color : UInt32)
    (written : List PixelStore) :
    ∃ reason, reason ≠ .overflow ∧
      (writePixel info offset color).run.run written = (.error reason, written) := by
  by_cases hadd : offset < 2 ^ 63 ∧ info.address.toNat + offset < wordLimit
  · have hmisaligned : ¬ 4 ∣ info.address.toNat + offset := fun haligned =>
      h ⟨hadd.1, hadd.2, haligned⟩
    refine ⟨.misaligned, Panic.noConfusion, ?_⟩
    simp only [writePixel, pointerAdd, if_pos hadd, lift_ok_bind, if_neg hmisaligned]
    rfl
  · refine ⟨.pointerOverflow, Panic.noConfusion, ?_⟩
    simp only [writePixel, pointerAdd, if_neg hadd]
    rfl

theorem writeAll_cons_run (store : PixelStore) (stores written : List PixelStore) :
    (writeAll info (store :: stores)).run.run written =
      match (writePixel info store.offset store.color).run.run written with
      | (.ok _, written') => (writeAll info stores).run.run written'
      | (.error reason, written') => (.error reason, written') := by
  change StateT.run (ExceptT.run (writePixel info store.offset store.color >>= fun _ =>
    writeAll info stores)) written = _
  rw [ExceptT.run_bind, StateT.run_bind]
  rcases (writePixel info store.offset store.color).run.run written with ⟨_ | _, written'⟩ <;> rfl

theorem writeAll_of_writable {stores : List PixelStore}
    (h : ∀ store ∈ stores, Writable info store.offset) (written : List PixelStore) :
    (writeAll info stores).run.run written = (.ok (), written ++ stores) := by
  induction stores generalizing written with
  | nil => rw [List.append_nil]; rfl
  | cons store stores ih =>
      rw [writeAll_cons_run, writePixel_of_writable (h store (by simp))]
      dsimp only
      rw [ih (fun s hs => h s (by simp [hs])), List.append_assoc, List.singleton_append]

/-- The stores in front of the first one that is refused. -/
theorem writeAll_of_not_writable {stores : List PixelStore}
    (h : ¬ ∀ store ∈ stores, Writable info store.offset) (written : List PixelStore) :
    ∃ reason done, reason ≠ .overflow ∧ done <+: stores ∧
      (writeAll info stores).run.run written = (.error reason, written ++ done) := by
  induction stores generalizing written with
  | nil => simp at h
  | cons store stores ih =>
      rw [writeAll_cons_run]
      by_cases hstore : Writable info store.offset
      · have hrest : ¬ ∀ s ∈ stores, Writable info s.offset := by
          intro hall
          exact h (List.forall_mem_cons.mpr ⟨hstore, hall⟩)
        obtain ⟨reason, done, hreason, hdone, hrun⟩ := ih hrest (written ++ [store])
        refine ⟨reason, store :: done, hreason, (List.prefix_cons_inj store).mpr hdone, ?_⟩
        rw [writePixel_of_writable hstore]
        dsimp only
        rw [hrun, List.append_assoc, List.singleton_append]
      · obtain ⟨reason, hreason, hrun⟩ := writePixel_of_not_writable hstore store.color written
        refine ⟨reason, [], hreason, List.nil_prefix, ?_⟩
        rw [hrun, List.append_nil]

/-! ## One rectangle -/

theorem pixelOffset_lt (h : FourByte info) {px py : Nat} (hon : OnScreen info px py) :
    pixelOffset info px py + 4 ≤ info.pitch.toNat * info.height.toNat := by
  obtain ⟨hpx, hpy⟩ := hon
  have hpitch := h.pitch
  calc py * info.pitch.toNat + 4 * px + 4 ≤ py * info.pitch.toNat + info.pitch.toNat := by omega
    _ = info.pitch.toNat * (py + 1) := by ring
    _ ≤ info.pitch.toNat * info.height.toNat := Nat.mul_le_mul_left _ hpy

/-- An aligned framebuffer inside the address space, with aligned rows. -/
theorem paintable_of_aligned (h : FourByte info) (haddress : 4 ∣ info.address.toNat)
    (hpitch : 4 ∣ info.pitch.toNat)
    (hend : info.address.toNat + info.pitch.toNat * info.height.toNat ≤ wordLimit)
    (hsize : info.pitch.toNat * info.height.toNat ≤ 2 ^ 63) : Paintable info := by
  refine ⟨h, fun px py hon => ?_⟩
  have hlt := pixelOffset_lt h hon
  have hdvd : 4 ∣ pixelOffset info px py :=
    Nat.dvd_add (Dvd.dvd.mul_left hpitch py) (Nat.dvd_mul_right 4 px)
  exact ⟨by omega, by omega, Nat.dvd_add haddress hdvd⟩

theorem pitch_mul_height_lt (info : FramebufferInfo) :
    info.pitch.toNat * info.height.toNat < wordLimit := by
  calc info.pitch.toNat * info.height.toNat < 2 ^ 32 * 2 ^ 32 :=
        Nat.mul_lt_mul'' info.pitch.toNat_lt info.height.toNat_lt
    _ = wordLimit := by decide

theorem mul_pitch {py : Nat} (hpy : py < info.height.toNat) :
    mul py info.pitch.toNat = .ok (py * info.pitch.toNat) := by
  have hle : py * info.pitch.toNat ≤ info.pitch.toNat * info.height.toNat := by
    rw [Nat.mul_comm]
    exact Nat.mul_le_mul_left _ (Nat.le_of_lt hpy)
  exact mul_of_lt (Nat.lt_of_le_of_lt hle (pitch_mul_height_lt info))

def rowStores (info : FramebufferInfo) (x width : Nat) (color : UInt32) (py : Nat) :
    List PixelStore :=
  (List.range' x (min (x + width) info.width.toNat - x)).map fun px =>
    ⟨pixelOffset info px py, color⟩

def rectStores (info : FramebufferInfo) (x y width height : Nat) (color : UInt32) :
    List PixelStore :=
  ((List.range' y (min (y + height) info.height.toNat - y)).map
    (rowStores info x width color)).flatten

theorem mem_rowStores {x width py : Nat} {color : UInt32} {store : PixelStore} :
    store ∈ rowStores info x width color py ↔
      ∃ px, (x ≤ px ∧ px < min (x + width) info.width.toNat) ∧
        store = ⟨pixelOffset info px py, color⟩ := by
  simp only [rowStores, List.mem_map, List.mem_range'_1]
  constructor
  · rintro ⟨px, hpx, rfl⟩
    exact ⟨px, by omega, rfl⟩
  · rintro ⟨px, hpx, rfl⟩
    exact ⟨px, by omega, rfl⟩

theorem mem_rectStores {x y width height : Nat} {color : UInt32} {store : PixelStore} :
    store ∈ rectStores info x y width height color ↔
      ∃ px py, InRect info x y width height px py ∧ store = ⟨pixelOffset info px py, color⟩ := by
  simp only [rectStores, InRect, List.mem_flatten, List.mem_map, List.mem_range'_1]
  constructor
  · rintro ⟨_, ⟨py, hpy, rfl⟩, hstore⟩
    obtain ⟨px, hpx, heq⟩ := mem_rowStores.mp hstore
    exact ⟨px, py, ⟨hpx, by omega⟩, heq⟩
  · rintro ⟨px, py, ⟨hpx, hpy⟩, heq⟩
    exact ⟨_, ⟨py, by omega, rfl⟩, mem_rowStores.mpr ⟨px, hpx, heq⟩⟩

theorem rectStores_of_empty {x y width height : Nat} (color : UInt32)
    (h : width = 0 ∨ height = 0) : rectStores info x y width height color = [] := by
  rw [List.eq_nil_iff_forall_not_mem]
  intro store hstore
  obtain ⟨px, py, hrect, -⟩ := mem_rectStores.mp hstore
  unfold InRect at hrect
  omega

theorem offset_eq (h : FourByte info) {px py : Nat} (hon : OnScreen info px py) :
    mul px 4 = .ok (px * 4) ∧
      add (py * info.pitch.toNat) (px * 4) = .ok (pixelOffset info px py) := by
  have hend := pixelOffset_lt h hon
  have hword := pitch_mul_height_lt info
  unfold pixelOffset at hend ⊢
  rw [mul_of_lt (by omega), add_of_lt (by omega), Nat.mul_comm px 4]
  exact ⟨rfl, rfl⟩

theorem fillRect_eq (h : FourByte info) {x y width height : Nat} (color : UInt32)
    (hx : x + width < 2 ^ 32) (hy : y + height < 2 ^ 32) :
    fillRect info x y width height color =
      writeAll info (rectStores info x y width height color) := by
  have hbytes : info.bpp.toNat / 8 = 4 := by
    rw [h.bpp]
    rfl
  have hrow : ∀ py ∈ List.range' y (min (y + height) info.height.toNat - y),
      (do let rowOffset ← mul py info.pitch.toNat
          (List.range' x (min (x + width) info.width.toNat - x)).forM fun px => do
            let offset ← add rowOffset (← mul px 4)
            writePixel info offset color : Draw Unit) =
        writeAll info (rowStores info x width color py) := by
    intro py hpy
    rw [List.mem_range'_1] at hpy
    have hpy : py < info.height.toNat := by omega
    rw [mul_pitch hpy, lift_ok_bind, rowStores, writeAll, List.forM_eq_forM, List.forM_eq_forM,
      List.forM_map]
    apply forM_congr
    intro px hpx
    rw [List.mem_range'_1] at hpx
    obtain ⟨hmul, hadd⟩ := offset_eq h (show OnScreen info px py from ⟨by omega, hpy⟩)
    rw [hmul, lift_ok_bind, hadd, lift_ok_bind]
  unfold fillRect
  split_ifs with hempty
  · rw [rectStores_of_empty color hempty]
    rfl
  · rw [addU32_of_lt hx, addU32_of_lt hy, hbytes, lift_ok_bind, lift_ok_bind, rectStores,
      ← List.flatMap_def, writeAll_flatMap]
    exact forM_congr hrow

/-! ## The bytes of the framebuffer -/

/-- Byte `i` of a colour, in the order of the processor. -/
def colorByte (color : UInt32) (i : Nat) : UInt8 := UInt8.ofNat (color.toNat >>> (8 * i))

/-- What the store of a pixel puts at an offset. -/
def PixelStore.byteAt (store : PixelStore) (offset : Nat) : Option UInt8 :=
  if store.offset ≤ offset ∧ offset < store.offset + 4 then
    some (colorByte store.color (offset - store.offset))
  else none

def paint (memory : Nat → UInt8) (stores : List PixelStore) : Nat → UInt8 :=
  Stores.performAll PixelStore.byteAt memory stores

/-- Two offsets inside their rows are in the same row or rows apart. -/
theorem row_eq_of_offset_eq {pitch row row' k k' : Nat} (hk : k < pitch) (hk' : k' < pitch)
    (h : row * pitch + k = row' * pitch + k') : row = row' ∧ k = k' := by
  have hpos : 0 < pitch := by omega
  have hdiv := congrArg (· / pitch) h
  simp only [Nat.mul_comm _ pitch, Nat.mul_add_div hpos, Nat.div_eq_of_lt hk,
    Nat.div_eq_of_lt hk', Nat.add_zero] at hdiv
  subst hdiv
  exact ⟨rfl, by omega⟩

theorem byteAt_pixel (h : FourByte info) {px row py k : Nat} (color : UInt32)
    (hpx : px < info.width.toNat) (hk : k < info.pitch.toNat) :
    PixelStore.byteAt ⟨pixelOffset info px row, color⟩ (py * info.pitch.toNat + k) =
      if px = k / 4 ∧ row = py then some (colorByte color (k % 4)) else none := by
  have hpitch := h.pitch
  unfold PixelStore.byteAt pixelOffset
  dsimp only
  by_cases hsame : px = k / 4 ∧ row = py
  · obtain ⟨rfl, rfl⟩ := hsame
    rw [if_pos (by omega), if_pos ⟨rfl, rfl⟩]
    congr 2
    omega
  · rw [if_neg hsame, if_neg]
    rintro ⟨hle, hlt⟩
    -- byte `k` of row `py` would be byte `4 * px + i` of row `row`
    obtain ⟨i, hi⟩ := Nat.exists_eq_add_of_le hle
    have hrow : py * info.pitch.toNat + k = row * info.pitch.toNat + (4 * px + i) := by omega
    obtain ⟨hpy, hki⟩ := row_eq_of_offset_eq hk (by omega) hrow
    exact hsame ⟨by omega, hpy.symm⟩

theorem paint_rectStores (h : FourByte info) (memory : Nat → UInt8) (x y width height : Nat)
    (color : UInt32) {py k : Nat} (hk : k < info.pitch.toNat) :
    paint memory (rectStores info x y width height color) (py * info.pitch.toNat + k) =
      if InRect info x y width height (k / 4) py then colorByte color (k % 4)
      else memory (py * info.pitch.toNat + k) := by
  have hbyte : ∀ px row, InRect info x y width height px row →
      PixelStore.byteAt ⟨pixelOffset info px row, color⟩ (py * info.pitch.toNat + k) =
        if px = k / 4 ∧ row = py then some (colorByte color (k % 4)) else none := by
    intro px row hrect
    unfold InRect at hrect
    exact byteAt_pixel h color (by omega) hk
  split_ifs with hrect
  · apply Stores.performAll_of_agree
    · refine ⟨_, mem_rectStores.mpr ⟨k / 4, py, hrect, rfl⟩, ?_⟩
      rw [hbyte _ _ hrect, if_pos ⟨rfl, rfl⟩]
      exact Option.some_ne_none _
    · intro store hstore value hvalue
      obtain ⟨px, row, hpixel, rfl⟩ := mem_rectStores.mp hstore
      rw [hbyte px row hpixel] at hvalue
      split_ifs at hvalue
      exact (Option.some.inj hvalue).symm
  · apply Stores.performAll_of_forall_none
    intro store hstore
    obtain ⟨px, row, hpixel, rfl⟩ := mem_rectStores.mp hstore
    rw [hbyte px row hpixel, if_neg]
    rintro ⟨rfl, rfl⟩
    exact hrect hpixel

def PixelStore.OnScreen (info : FramebufferInfo) (store : PixelStore) : Prop :=
  store.offset + 4 ≤ info.pitch.toNat * info.height.toNat ∧
    ∃ px py, px < info.width.toNat ∧ py < info.height.toNat ∧
      store.offset = py * info.pitch.toNat + 4 * px

/-- The routine comes to the checked stores of a list of pixels of the screen: it
does not overflow, and what it performs of the list is on the screen. -/
structure Draws (info : FramebufferInfo) (routine : Draw Unit) : Prop where
  stores : ∃ stores, routine = writeAll info stores ∧ ∀ store ∈ stores, store.OnScreen info
  no_overflow : routine.perform.1 ≠ .error .overflow
  on_screen : ∀ store ∈ routine.perform.2, store.OnScreen info

theorem draws_writeAll {stores : List PixelStore} (h : ∀ store ∈ stores, store.OnScreen info) :
    Draws info (writeAll info stores) := by
  by_cases hall : ∀ store ∈ stores, Writable info store.offset
  · have hperform : (writeAll info stores).perform = (.ok (), stores) :=
      writeAll_of_writable hall []
    refine ⟨⟨stores, rfl, h⟩, ?_, ?_⟩
    · rw [hperform]
      intro heq
      cases heq
    · rw [hperform]
      exact h
  · obtain ⟨reason, done, hreason, hdone, hrun⟩ := writeAll_of_not_writable hall []
    have hperform : (writeAll info stores).perform = (.error reason, done) := hrun
    refine ⟨⟨stores, rfl, h⟩, ?_, ?_⟩
    · rw [hperform]
      exact fun heq => hreason (Except.error.inj heq)
    · rw [hperform]
      exact fun store hstore => h store (hdone.subset hstore)

theorem Draws.seq {first second : Draw Unit} (hfirst : Draws info first)
    (hsecond : Draws info second) : Draws info (do first; second) := by
  obtain ⟨stores, rfl, hon⟩ := hfirst.stores
  obtain ⟨stores', rfl, hon'⟩ := hsecond.stores
  rw [← writeAll_append]
  apply draws_writeAll
  intro store hstore
  rcases List.mem_append.mp hstore with hmem | hmem
  · exact hon store hmem
  · exact hon' store hmem

/-- On a screen whose pixels can all be stored to, the routine returns. -/
theorem Draws.returns {routine : Draw Unit} (h : Draws info routine) (hpaint : Paintable info) :
    routine.perform.1 = .ok () := by
  obtain ⟨stores, rfl, hon⟩ := h.stores
  have hall : ∀ store ∈ stores, Writable info store.offset := by
    intro store hstore
    obtain ⟨-, px, py, hpx, hpy, hoffset⟩ := hon store hstore
    rw [hoffset]
    exact hpaint.writable px py ⟨hpx, hpy⟩
  exact congrArg Prod.fst (writeAll_of_writable hall [])

theorem draws_fillRect (h : FourByte info) {x y width height : Nat} (color : UInt32)
    (hx : x + width < 2 ^ 32) (hy : y + height < 2 ^ 32) :
    Draws info (fillRect info x y width height color) := by
  rw [fillRect_eq h color hx hy]
  apply draws_writeAll
  intro store hstore
  obtain ⟨px, py, hrect, rfl⟩ := mem_rectStores.mp hstore
  have hon : Vga.OnScreen info px py := by
    unfold InRect at hrect
    exact ⟨by omega, by omega⟩
  exact ⟨pixelOffset_lt h hon, px, py, hon.1, hon.2, rfl⟩

theorem draws_strokeRect (h : FourByte info) {x y width height thickness : Nat} (color : UInt32)
    (hx : x + max width thickness < 2 ^ 32) (hy : y + max height thickness < 2 ^ 32) :
    Draws info (strokeRect info x y width height thickness color) := by
  unfold strokeRect
  rw [addU32_of_lt (by omega), addU32_of_lt (by omega), lift_ok_bind, lift_ok_bind]
  refine .seq ?_ (.seq ?_ (.seq ?_ ?_)) <;> apply draws_fillRect h <;> omega

theorem draws_drawMark (h : FourByte info) {x y size : Nat} (color : UInt32)
    (hx : x + size < 2 ^ 32) (hy : y + size < 2 ^ 32) :
    Draws info (drawMark info x y size color) := by
  unfold drawMark
  dsimp only
  rw [mulU32_of_lt (by omega), lift_ok_bind, addU32_of_lt (by omega), addU32_of_lt (by omega),
    addU32_of_lt (by omega), lift_ok_bind, lift_ok_bind, lift_ok_bind]
  refine .seq ?_ (.seq ?_ ?_) <;> apply draws_fillRect h <;> omega

theorem draws_drawProgress (h : FourByte info) {x y width height : Nat}
    (hx : x + max width 14 < 2 ^ 32) (hy : y + height + 8 < 2 ^ 32) :
    Draws info (drawProgress info x y width height) := by
  have hfilled : saturatingMulU32 width 2 / 5 ≤ width * 2 / 5 := by
    unfold saturatingMulU32
    omega
  unfold drawProgress
  dsimp only
  rw [addU32_of_lt (by omega), addU32_of_lt (by omega), lift_ok_bind, lift_ok_bind]
  refine .seq ?_ (.seq ?_ ?_) <;> apply draws_fillRect h <;> omega

theorem draws_bar (h : FourByte info) {panelY panelWidth top cut barHeight : Nat} (color : UInt32)
    (hx : 88 + panelWidth < 2 ^ 32) (hy : panelY + top + barHeight < 2 ^ 32) :
    Draws info (do
      fillRect info (← addU32 60 28) (← addU32 panelY top) (panelWidth - cut) barHeight color) := by
  rw [addU32_of_lt (by decide), addU32_of_lt (by omega), lift_ok_bind, lift_ok_bind]
  exact draws_fillRect h color (by omega) (by omega)

theorem draws_bootVisual (h : FourByte info) : Draws info (drawBootVisual info) := by
  have hwidth := info.width.toNat_lt
  have hheight := info.height.toNat_lt
  unfold drawBootVisual
  dsimp only
  refine .seq ?_ (.seq ?_ (.seq ?_ (.seq ?_ (.seq ?_ (.seq ?_ (.seq ?_ (.seq ?_ (.seq ?_
    (.seq ?_ ?_)))))))))
  · exact draws_fillRect h _ (by omega) (by omega)
  · exact draws_fillRect h _ (by omega) (by omega)
  · exact draws_fillRect h _ (by omega) (by omega)
  · exact draws_fillRect h _ (by omega) (by omega)
  · exact draws_strokeRect h _ (by omega) (by omega)
  · exact draws_bar h _ (by omega) (by omega)
  · exact draws_bar h _ (by omega) (by omega)
  · exact draws_bar h _ (by omega) (by omega)
  · exact draws_bar h _ (by omega) (by omega)
  · exact draws_bar h _ (by omega) (by omega)
  · rw [addU32_of_lt (by omega), addU32_of_lt (by omega), addU32_of_lt (by decide),
      addU32_of_lt (by omega)]
    simp only [lift_ok_bind]
    refine .seq (draws_drawMark h _ (by omega) (by omega)) (.seq ?_ ?_)
    · exact draws_drawProgress h (by omega) (by omega)
    · exact draws_fillRect h _ (by omega) (by omega)

theorem returns_bootVisual (h : Paintable info) : (drawBootVisual info).perform.1 = .ok () :=
  (draws_bootVisual h.toFourByte).returns h

theorem drawBootVisual_stays_on_screen (info : FramebufferInfo) (hbpp : info.bpp = 32)
    (hpitch : 4 * info.width.toNat ≤ info.pitch.toNat) : Draws info (drawBootVisual info) :=
  draws_bootVisual ⟨hbpp, hpitch⟩

/-- A screen smaller than every margin. -/
theorem drawBootVisual_one_pixel :
    Draws ⟨0x1000, 1, 1, 8, 32⟩ (drawBootVisual ⟨0x1000, 1, 1, 8, 32⟩) :=
  drawBootVisual_stays_on_screen ⟨0x1000, 1, 1, 8, 32⟩ rfl (by decide)

end AetherOs.Drivers.Vga
