import AetherOs.Support.Text
/-!
# Decoding scancodes

`decode_scancode` of `kernel/src/drivers/keyboard.rs`, as a function of the
scancode and the shift flag.  The scancodes are set 1 make and break codes.
-/

namespace AetherOs.Drivers.Keyboard

inductive KeyEvent where
  | char (character : Char)
  | enter
  | backspace
  deriving DecidableEq, Repr

def alpha (lower : Char) (shift : Bool) : Char := if shift then lower.toUpper else lower

def symbol (shifted plain : Char) (shift : Bool) : Char := if shift then shifted else plain

def decodePrintable (scancode : UInt8) (shift : Bool) : Option Char :=
  match scancode.toNat with
  | 0x02 => some (symbol '!' '1' shift)
  | 0x03 => some (symbol '@' '2' shift)
  | 0x04 => some (symbol '#' '3' shift)
  | 0x05 => some (symbol '$' '4' shift)
  | 0x06 => some (symbol '%' '5' shift)
  | 0x07 => some (symbol '^' '6' shift)
  | 0x08 => some (symbol '&' '7' shift)
  | 0x09 => some (symbol '*' '8' shift)
  | 0x0A => some (symbol '(' '9' shift)
  | 0x0B => some (symbol ')' '0' shift)
  | 0x0C => some (symbol '_' '-' shift)
  | 0x0D => some (symbol '+' '=' shift)
  | 0x10 => some (alpha 'q' shift)
  | 0x11 => some (alpha 'w' shift)
  | 0x12 => some (alpha 'e' shift)
  | 0x13 => some (alpha 'r' shift)
  | 0x14 => some (alpha 't' shift)
  | 0x15 => some (alpha 'y' shift)
  | 0x16 => some (alpha 'u' shift)
  | 0x17 => some (alpha 'i' shift)
  | 0x18 => some (alpha 'o' shift)
  | 0x19 => some (alpha 'p' shift)
  | 0x1A => some (symbol '{' '[' shift)
  | 0x1B => some (symbol '}' ']' shift)
  | 0x1E => some (alpha 'a' shift)
  | 0x1F => some (alpha 's' shift)
  | 0x20 => some (alpha 'd' shift)
  | 0x21 => some (alpha 'f' shift)
  | 0x22 => some (alpha 'g' shift)
  | 0x23 => some (alpha 'h' shift)
  | 0x24 => some (alpha 'j' shift)
  | 0x25 => some (alpha 'k' shift)
  | 0x26 => some (alpha 'l' shift)
  | 0x27 => some (symbol ':' ';' shift)
  | 0x28 => some (symbol '"' '\'' shift)
  | 0x29 => some (symbol '~' (Char.ofNat 0x60) shift)
  | 0x2B => some (symbol '|' '\\' shift)
  | 0x2C => some (alpha 'z' shift)
  | 0x2D => some (alpha 'x' shift)
  | 0x2E => some (alpha 'c' shift)
  | 0x2F => some (alpha 'v' shift)
  | 0x30 => some (alpha 'b' shift)
  | 0x31 => some (alpha 'n' shift)
  | 0x32 => some (alpha 'm' shift)
  | 0x33 => some (symbol '<' ',' shift)
  | 0x34 => some (symbol '>' '.' shift)
  | 0x35 => some (symbol '?' '/' shift)
  | 0x39 => some ' '
  | _ => none

/-- What a scancode is before the shift flag is looked at. -/
inductive Code where
  | shift (pressed : Bool)
  | release
  | enter
  | backspace
  | make
  deriving DecidableEq, Repr

/-- The arms of `decode_scancode`, in their order. -/
def classify (scancode : UInt8) : Code :=
  if scancode = 0x2A ∨ scancode = 0x36 then .shift true
  else if scancode = 0xAA ∨ scancode = 0xB6 then .shift false
  else if scancode &&& 0x80 ≠ 0 then .release
  else if scancode = 0x1C then .enter
  else if scancode = 0x0E then .backspace
  else .make

/-- The shift flag after the scancode, and the event it stands for. -/
def decodeScancode (scancode : UInt8) (shift : Bool) : Bool × Option KeyEvent :=
  match classify scancode with
  | .shift pressed => (pressed, none)
  | .release => (shift, none)
  | .enter => (shift, some .enter)
  | .backspace => (shift, some .backspace)
  | .make => (shift, (decodePrintable scancode shift).map .char)

end AetherOs.Drivers.Keyboard
