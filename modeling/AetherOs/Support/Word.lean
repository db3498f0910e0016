import Mathlib.Algebra.Order.Floor.Div
import Mathlib.Data.Nat.Bitwise
import Mathlib.Tactic.Ring
/-!
# 64-bit words as natural numbers

Addresses and sizes are natural numbers below `wordLimit`.  Plain `+` and `*` on
such words are checked in the build profile the kernel is compiled with, so an
overflow is a panic and not a wrapped value; `checkedAdd` and `saturatingAdd`
are the two library variants.

The second part is the arithmetic of rounding to a power of two, in the
division form (`value % align`) and in the mask form (`& !(align - 1)`).
-/

namespace AetherOs.Support.Word

inductive Panic where
  | overflow
  | outOfBounds
  | expectFailed
  /-- a precondition of `ptr::add` -/
  | pointerOverflow
  /-- a precondition of `ptr::write_volatile` -/
  | misaligned
  deriving DecidableEq, Repr

abbrev Checked (α : Type) := Except Panic α

def wordLimit : Nat := 2 ^ 64

/-- Plain `+` on words. -/
def add (a b : Nat) : Checked Nat :=
  if a + b < wordLimit then .ok (a + b) else .error .overflow

def mul (a b : Nat) : Checked Nat :=
  if a * b < wordLimit then .ok (a * b) else .error .overflow

def checkedAdd (a b : Nat) : Option Nat :=
  if a + b < wordLimit then some (a + b) else none

def saturatingAdd (a b : Nat) : Nat :=
  min (a + b) (wordLimit - 1)

theorem add_of_lt {a b : Nat} (h : a + b < wordLimit) : add a b = .ok (a + b) := by
  rw [add, if_pos h]

theorem mul_of_lt {a b : Nat} (h : a * b < wordLimit) : mul a b = .ok (a * b) := by
  rw [mul, if_pos h]

theorem add_eq_ok {a b c : Nat} (h : add a b = .ok c) : c = a + b ∧ a + b < wordLimit := by
  unfold add at h
  split at h
  · rename_i hlt
    exact ⟨(Except.ok.inj h).symm, hlt⟩
  · cases h

/-! ## Multiples of the alignment -/

theorem add_le_of_dvd_of_lt {align a b : Nat} (ha : align ∣ a) (hb : align ∣ b)
    (hlt : a < b) : a + align ≤ b := by
  obtain ⟨m, rfl⟩ := ha
  obtain ⟨n, rfl⟩ := hb
  have hmn : m < n := Nat.lt_of_mul_lt_mul_left hlt
  calc align * m + align = align * (m + 1) := by ring
    _ ≤ align * n := Nat.mul_le_mul_left align hmn

/-- Rounding up gives the first multiple at or above `value`. -/
theorem isLeast_mul_ceilDiv {align : Nat} (hpos : 0 < align) (value : Nat) :
    IsLeast { a | value ≤ a ∧ align ∣ a } (align * (value ⌈/⌉ align)) := by
  refine ⟨⟨(ceilDiv_le_iff_le_mul hpos).mp (Nat.le_refl _), Nat.dvd_mul_right _ _⟩, ?_⟩
  rintro _ ⟨hle, m, rfl⟩
  exact Nat.mul_le_mul_left align ((ceilDiv_le_iff_le_mul hpos).mpr hle)

/-- A sum that leaves the words leaves no multiple between `value` and the limit. -/
theorem le_of_dvd_of_overflow {align limit value a : Nat} (hpos : 0 < align)
    (hlimit : align ∣ limit) (hover : limit ≤ value + (align - 1)) (hle : value ≤ a)
    (ha : align ∣ a) : limit ≤ a := by
  by_contra hlt
  have hstep := add_le_of_dvd_of_lt ha hlimit (Nat.lt_of_not_le hlt)
  omega

theorem sub_mod_eq_div_mul (value align : Nat) :
    value - value % align = value / align * align := by
  have h := Nat.div_add_mod value align
  rw [Nat.mul_comm] at h
  omega

/-! ## Masks -/

def complement (value : Nat) : Nat := wordLimit - 1 - value

theorem testBit_complement {value : Nat} (h : value < wordLimit) (i : Nat) :
    (complement value).testBit i = (decide (i < 64) && !value.testBit i) := by
  rw [complement, wordLimit, Nat.sub_sub, Nat.add_comm 1 value]
  exact Nat.testBit_two_pow_sub_succ h i

/-- Clearing the low `k` bits rounds down to a multiple of `2 ^ k`. -/
theorem and_complement_mask {value k : Nat} (hvalue : value < wordLimit) (hk : k ≤ 64) :
    value &&& complement (2 ^ k - 1) = value / 2 ^ k * 2 ^ k := by
  have hmask : 2 ^ k - 1 < wordLimit := by
    have hle : 2 ^ k ≤ wordLimit := Nat.pow_le_pow_right (by decide) hk
    have hpos : 0 < 2 ^ k := Nat.two_pow_pos k
    omega
  apply Nat.eq_of_testBit_eq
  intro i
  rw [Nat.testBit_and, testBit_complement hmask, Nat.testBit_two_pow_sub_one,
    Nat.testBit_mul_two_pow, Nat.testBit_div_two_pow]
  by_cases hik : k ≤ i
  · rw [Nat.sub_add_cancel hik]
    by_cases hi : i < 64
    · simp [hik, hi, Nat.not_lt.mpr hik]
    · have hpow : wordLimit ≤ 2 ^ i := Nat.pow_le_pow_right (by decide) (by omega)
      have hfalse : value.testBit i = false :=
        Nat.testBit_eq_false_of_lt (lt_of_lt_of_le hvalue hpow)
      simp [hfalse]
  · simp [hik, Nat.lt_of_not_le hik]

/-- `(value + mask) & !mask` rounds up to a multiple of `2 ^ k`. -/
theorem add_mask_and_complement {value k : Nat} (hvalue : value + (2 ^ k - 1) < wordLimit)
    (hk : k ≤ 64) :
    (value + (2 ^ k - 1)) &&& complement (2 ^ k - 1) = 2 ^ k * (value ⌈/⌉ 2 ^ k) := by
  have hpos : 0 < 2 ^ k := Nat.two_pow_pos k
  rw [and_complement_mask hvalue hk, Nat.ceilDiv_eq_add_pred_div, Nat.add_sub_assoc hpos,
    Nat.mul_comm]

end AetherOs.Support.Word
