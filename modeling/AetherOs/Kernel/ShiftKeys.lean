import AetherOs.Kernel.Scancodes
/-!
# The two Shift keys

A keyboard on which keys go down, repeat and come up, and the scancodes it
sends.  The driver keeps one flag for the two Shift keys: it is raised by the
make code of either and lowered by the break code of either, so it says whether
one of them is held until one comes up while the other is down.
-/

namespace AetherOs.Kernel

open AetherOs.Support AetherOs.Drivers.Keyboard

/-! ## The keyboard -/

/-- A key that is not extended, by its make code. -/
abbrev Key := { make : UInt8 // make < 0x80 }

def leftShift : Key := ⟨0x2A, by decide⟩

def rightShift : Key := ⟨0x36, by decide⟩

/-- A key goes down or repeats, or it comes up. -/
inductive Stroke where
  | press (key : Key)
  | release (key : Key)
  deriving DecidableEq

def Stroke.scancode : Stroke → UInt8
  | .press key => key.val
  | .release key => key.val + 0x80

def strike (held : Key → Bool) : Stroke → Key → Bool
  | .press key => Function.update held key true
  | .release key => Function.update held key false

def heldAfter (strokes : List Stroke) : Key → Bool :=
  Runs.exec strike (fun _ => false) strokes

/-- Only a key that is held comes up. -/
def Possible (strokes : List Stroke) : Prop :=
  Runs.Along strike (fun held stroke => ∀ key, stroke = .release key → held key = true)
    (fun _ => false) strokes

/-- The stroke does not release a Shift key while the other is held. -/
def KeepsShift (held : Key → Bool) (stroke : Stroke) : Prop :=
  (stroke = .release leftShift → held rightShift = false) ∧
    (stroke = .release rightShift → held leftShift = false)

def shiftHeld (held : Key → Bool) : Bool := held leftShift || held rightShift

/-- The driver's flag says whether a Shift key is held, and the next printable
key is decoded accordingly. -/
def ShiftKnown (flag : Bool) (held : Key → Bool) : Prop :=
  flag = shiftHeld held ∧
    ∀ (key : Key) (c : Char), decodePrintable key.val (shiftHeld held) = some c →
      (decodeScancode key.val flag).2 = some (.char c)

/-! ## The flag -/

theorem decodeScancode_flag (code : UInt8) (flag : Bool) :
    (decodeScancode code flag).1 =
      if code = 0x2A ∨ code = 0x36 then true
      else if code = 0xAA ∨ code = 0xB6 then false
      else flag := by
  unfold decodeScancode classify
  split_ifs <;> rfl

theorem Key.toNat_lt (key : Key) : key.val.toNat < 128 := key.property

theorem Key.toNat_release (key : Key) : (key.val + 0x80).toNat = key.val.toNat + 128 := by
  have hlt := Key.toNat_lt key
  rw [UInt8.toNat_add]
  exact Nat.mod_eq_of_lt (by simp only [UInt8.reduceToNat]; omega)

theorem eq_leftShift_iff (key : Key) : key = leftShift ↔ key.val.toNat = 0x2A := by
  rw [Subtype.ext_iff, ← UInt8.toNat_inj]
  rfl

theorem eq_rightShift_iff (key : Key) : key = rightShift ↔ key.val.toNat = 0x36 := by
  rw [Subtype.ext_iff, ← UInt8.toNat_inj]
  rfl

theorem decodeScancode_press (key : Key) (flag : Bool) :
    (decodeScancode key.val flag).1 =
      if key = leftShift ∨ key = rightShift then true else flag := by
  have hlt := Key.toNat_lt key
  have hmake : ¬(key.val = 0xAA ∨ key.val = 0xB6) := by
    simp only [← UInt8.toNat_inj, UInt8.reduceToNat]
    omega
  rw [decodeScancode_flag, if_neg hmake]
  simp only [eq_leftShift_iff, eq_rightShift_iff, ← UInt8.toNat_inj, UInt8.reduceToNat]

theorem decodeScancode_release (key : Key) (flag : Bool) :
    (decodeScancode (key.val + 0x80) flag).1 =
      if key = leftShift ∨ key = rightShift then false else flag := by
  have hbreak := Key.toNat_release key
  rw [decodeScancode_flag]
  simp only [eq_leftShift_iff, eq_rightShift_iff, ← UInt8.toNat_inj, UInt8.reduceToNat, hbreak]
  rw [if_neg (by omega)]
  simp only [Nat.reduceEqDiff]

theorem classify_of_decodePrintable {code : UInt8} {shift : Bool} {c : Char}
    (h : decodePrintable code shift = some c) : classify code = .make := by
  have hcode : code = UInt8.ofNat code.toNat := by simp
  unfold decodePrintable at h
  split at h
  case h_49 => cases h
  all_goals
    rename_i hnat
    rw [hcode, hnat]
    rfl

theorem shiftKnown_iff (flag : Bool) (held : Key → Bool) :
    ShiftKnown flag held ↔ flag = shiftHeld held := by
  constructor
  · exact fun h => h.1
  · rintro rfl
    refine ⟨rfl, fun key c hc => ?_⟩
    rw [decodeScancode, classify_of_decodePrintable hc]
    simp only [hc, Option.map_some]

/-! ## Strokes -/

def strikeFlag (s : (Key → Bool) × Bool) (stroke : Stroke) : (Key → Bool) × Bool :=
  (strike s.1 stroke, (decodeScancode stroke.scancode s.2).1)

def FlagRight (s : (Key → Bool) × Bool) : Prop := s.2 = shiftHeld s.1

theorem exec_strikeFlag (held : Key → Bool) (flag : Bool) (strokes : List Stroke) :
    Runs.exec strikeFlag (held, flag) strokes =
      (Runs.exec strike held strokes, shiftAfter flag (strokes.map Stroke.scancode)) := by
  induction strokes generalizing held flag with
  | nil => rfl
  | cons stroke strokes ih =>
      rw [Runs.exec_cons, strikeFlag, ih]
      rfl

theorem shiftHeld_press (held : Key → Bool) (key : Key) :
    shiftHeld (strike held (.press key)) =
      if key = leftShift ∨ key = rightShift then true else shiftHeld held := by
  have hne : leftShift ≠ rightShift := by decide
  unfold shiftHeld strike
  by_cases hleft : key = leftShift
  · simp [hleft]
  · by_cases hright : key = rightShift
    · simp [hright]
    · simp [hleft, hright, Ne.symm hleft, Ne.symm hright]

theorem shiftHeld_release (held : Key → Bool) (key : Key) :
    shiftHeld (strike held (.release key)) =
      if key = leftShift then held rightShift
      else if key = rightShift then held leftShift
      else shiftHeld held := by
  have hne : leftShift ≠ rightShift := by decide
  unfold shiftHeld strike
  by_cases hleft : key = leftShift
  · simp [hleft, hne.symm]
  · by_cases hright : key = rightShift
    · simp [hright, hne, hne.symm]
    · simp [hleft, hright, Ne.symm hleft, Ne.symm hright]

/-- Within one stroke, the flag stays right exactly if no Shift key hands over to
the other. -/
theorem flagRight_strikeFlag_iff {s : (Key → Bool) × Bool} (h : FlagRight s)
    (stroke : Stroke) : FlagRight (strikeFlag s stroke) ↔ KeepsShift s.1 stroke := by
  have hne : leftShift ≠ rightShift := by decide
  cases stroke with
  | press key =>
      have hkept : FlagRight (strikeFlag s (.press key)) := by
        rw [FlagRight, strikeFlag, shiftHeld_press, ← h]
        exact decodeScancode_press key s.2
      simp [hkept, KeepsShift]
  | release key =>
      have hflag : (strikeFlag s (.release key)).2 =
          if key = leftShift ∨ key = rightShift then false else s.2 :=
        decodeScancode_release key s.2
      rw [FlagRight, hflag, strikeFlag, shiftHeld_release, ← h]
      simp only [KeepsShift, Stroke.release.injEq]
      by_cases hleft : key = leftShift
      · simp [hleft, hne, @eq_comm Bool false]
      · by_cases hright : key = rightShift
        · simp [hright, hne.symm, @eq_comm Bool false]
        · simp [hleft, hright]

theorem shift_known_iff_keepsShift (strokes : List Stroke) :
    (∀ n, ShiftKnown (shiftAfter false ((strokes.take n).map Stroke.scancode))
      (heldAfter (strokes.take n))) ↔
      Runs.Along strike KeepsShift (fun _ => false) strokes := by
  let start : (Key → Bool) × Bool := (fun _ => false, false)
  have hstart : FlagRight start := rfl
  have hruns : (∀ n, FlagRight (Runs.exec strikeFlag start (strokes.take n))) ↔
      Runs.Along strikeFlag (fun s stroke => KeepsShift s.1 stroke) start strokes :=
    Runs.forall_exec_take_iff_along (P := FlagRight) (fun _ h => h)
      (fun _ stroke h => (flagRight_strikeFlag_iff h stroke).mpr)
      (fun _ stroke h hnot hright => hnot ((flagRight_strikeFlag_iff h stroke).mp hright))
      hstart strokes
  have hheld : Runs.Along strikeFlag (fun s stroke => KeepsShift s.1 stroke) start strokes ↔
      Runs.Along strike KeepsShift (fun _ => false) strokes :=
    Runs.along_map_iff (f := Prod.fst) (fun _ _ => rfl) start strokes
  rw [← hheld, ← hruns]
  simp only [start, shiftKnown_iff, FlagRight, exec_strikeFlag, heldAfter]

def handover : List Stroke := [.press leftShift, .press rightShift, .release leftShift]

/-- After the handover `q` is decoded as a small letter, although the right Shift
key is held. -/
theorem shift_lost_in_handover :
    Possible handover ∧ heldAfter handover rightShift = true ∧
      (decodeScancode 0x10 (shiftAfter false (handover.map Stroke.scancode))).2 =
        some (.char 'q') ∧
      ¬∀ n, ShiftKnown (shiftAfter false ((handover.take n).map Stroke.scancode))
        (heldAfter (handover.take n)) := by
  have hpossible : Possible handover := by
    refine ⟨?_, ?_, ?_, trivial⟩ <;> intro key hkey <;> cases hkey
    rfl
  refine ⟨hpossible, rfl, rfl, fun h => ?_⟩
  have hflag : shiftAfter false (handover.map Stroke.scancode) = shiftHeld (heldAfter handover) :=
    (h 3).1
  exact absurd hflag (by decide)

end AetherOs.Kernel
