import AetherOs.Boot.BootInfo
/-!
# Drawing the boot screen

`kernel/src/arch/x86_64/vga.rs`.  A drawing routine performs pixel stores, in
order, as byte offsets into the framebuffer, until it returns or panics.
Coordinates are checked `u32` values and offsets are checked words, and the
build profile of the kernel also checks what `ptr::add` and
`ptr::write_volatile` ask of their arguments.
-/

namespace AetherOs.Drivers.Vga

open AetherOs.Support.Word AetherOs.Boot

def background : UInt32 := 0x0B1020

def panel : UInt32 := 0x121A31

def panelBorder : UInt32 := 0x2F4F8F

def accent : UInt32 := 0x62D0FF

def accentMuted : UInt32 := 0x24415F

def success : UInt32 := 0x6EE7B7

structure PixelStore where
  offset : Nat
  color : UInt32
  deriving DecidableEq, Repr

def addU32 (a b : Nat) : Checked Nat :=
  if a + b < 2 ^ 32 then .ok (a + b) else .error .overflow

def mulU32 (a b : Nat) : Checked Nat :=
  if a * b < 2 ^ 32 then .ok (a * b) else .error .overflow

def saturatingMulU32 (a b : Nat) : Nat := min (a * b) (2 ^ 32 - 1)

/-- A routine that may panic, with the stores it has performed. -/
abbrev Draw := ExceptT Panic (StateM (List PixelStore))

def Draw.perform (routine : Draw Unit) : Checked Unit × List PixelStore :=
  StateT.run (ExceptT.run routine) []

/-- `base.add(offset)` on a pointer to bytes. -/
def pointerAdd (base offset : Nat) : Checked Nat :=
  if offset < 2 ^ 63 ∧ base + offset < wordLimit then .ok (base + offset)
  else .error .pointerOverflow

/-- `write_volatile` of a `u32`: the check is of the alignment only. -/
def writePixel (info : FramebufferInfo) (offset : Nat) (color : UInt32) : Draw Unit := do
  let pixel ← pointerAdd info.address.toNat offset
  if 4 ∣ pixel then
    modify (· ++ [⟨offset, color⟩])
  else
    throw .misaligned

def fillRect (info : FramebufferInfo) (x y width height : Nat) (color : UInt32) : Draw Unit :=
  if width = 0 ∨ height = 0 then
    return
  else do
    let maxX := min (← addU32 x width) info.width.toNat
    let maxY := min (← addU32 y height) info.height.toNat
    let bytesPerPixel := info.bpp.toNat / 8
    (List.range' y (maxY - y)).forM fun py => do
      let rowOffset ← mul py info.pitch.toNat
      (List.range' x (maxX - x)).forM fun px => do
        let offset ← add rowOffset (← mul px bytesPerPixel)
        writePixel info offset color

def clear (info : FramebufferInfo) (color : UInt32) : Draw Unit :=
  fillRect info 0 0 info.width.toNat info.height.toNat color

def strokeRect (info : FramebufferInfo) (x y width height thickness : Nat) (color : UInt32) :
    Draw Unit := do
  fillRect info x y width thickness color
  fillRect info x (← addU32 y (height - thickness)) width thickness color
  fillRect info x y thickness height color
  fillRect info (← addU32 x (width - thickness)) y thickness height color

def drawMark (info : FramebufferInfo) (x y size : Nat) (color : UInt32) : Draw Unit := do
  let third := size / 3
  fillRect info x (← addU32 y third) third (size - third) color
  fillRect info (← addU32 x third) y third size color
  fillRect info (← addU32 x (← mulU32 third 2)) (← addU32 y third) third (size - third) color

def drawProgress (info : FramebufferInfo) (x y width height : Nat) : Draw Unit := do
  fillRect info x y width height accentMuted
  let filled := saturatingMulU32 width 2 / 5
  fillRect info x y filled height accent
  let markerWidth := 14
  let markerX ← addU32 x (filled - markerWidth / 2)
  fillRect info markerX (y - 4) markerWidth (← addU32 height 8) success

/-- The part of `render_boot_visual` behind its check of `bpp`. -/
def drawBootVisual (framebuffer : FramebufferInfo) : Draw Unit := do
  let width := framebuffer.width.toNat
  let height := framebuffer.height.toNat
  clear framebuffer background
  fillRect framebuffer 0 0 width 28 accentMuted
  fillRect framebuffer 0 (height - 18) width 18 panel
  let panelWidth := width - 120
  let panelHeight := min height 220
  let panelX := 60
  let panelY := (height - panelHeight) / 2
  -- the bars of the panel: offset from its top, cut from its width, height and colour
  let bar (top cut barHeight : Nat) (color : UInt32) : Draw Unit := do
    fillRect framebuffer (← addU32 panelX 28) (← addU32 panelY top) (panelWidth - cut) barHeight
      color
  fillRect framebuffer panelX panelY panelWidth panelHeight panel
  strokeRect framebuffer panelX panelY panelWidth panelHeight 4 panelBorder
  bar 28 56 10 accent
  bar 58 140 18 success
  bar 92 72 10 accentMuted
  bar 116 180 10 accentMuted
  bar 140 240 10 accentMuted
  drawMark framebuffer (← addU32 panelX (panelWidth - 84)) (← addU32 panelY 38) 36 accent
  drawProgress framebuffer (← addU32 panelX 28) (← addU32 panelY (panelHeight - 42))
    (panelWidth - 56) 12
  fillRect framebuffer 64 (height - 84) (width - 128) 48 0x0A0F1D

end AetherOs.Drivers.Vga
