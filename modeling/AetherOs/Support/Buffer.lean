import AetherOs.Support.Word
/-!
# Fixed-size buffers

A buffer is a list that carries its length.  `copyAt` is `copy_from_slice` into
the part of a buffer that starts at `offset`; it panics when the source does
not fit.  Bytes outside the copied part keep their old values.
-/

namespace AetherOs.Support

open Word

structure Buffer (α : Type) (n : Nat) where
  cells : List α
  length_cells : cells.length = n
  deriving DecidableEq

namespace Buffer

variable {α : Type} {n : Nat}

def filled (n : Nat) (a : α) : Buffer α n := ⟨List.replicate n a, List.length_replicate⟩

def front (buffer : Buffer α n) (len : Nat) : List α := buffer.cells.take len

def overwrite (buffer : Buffer α n) (offset : Nat) (source : List α)
    (h : offset + source.length ≤ n) : Buffer α n where
  cells := buffer.cells.take offset ++ source ++ buffer.cells.drop (offset + source.length)
  length_cells := by
    have hlen := buffer.length_cells
    simp only [List.length_append, List.length_take, List.length_drop]
    omega

def copyAt (buffer : Buffer α n) (offset : Nat) (source : List α) : Checked (Buffer α n) :=
  if h : offset + source.length ≤ n then
    .ok (buffer.overwrite offset source h)
  else
    .error .outOfBounds

theorem copyAt_of_le {buffer : Buffer α n} {offset : Nat} {source : List α}
    (h : offset + source.length ≤ n) :
    buffer.copyAt offset source = .ok (buffer.overwrite offset source h) := by
  rw [copyAt, dif_pos h]

theorem length_front {buffer : Buffer α n} {len : Nat} (h : len ≤ n) :
    (buffer.front len).length = len := by
  rw [front, List.length_take, buffer.length_cells, Nat.min_eq_left h]

theorem front_filled {len : Nat} (a : α) (h : len ≤ n) :
    (filled n a).front len = List.replicate len a := by
  rw [front, filled, List.take_replicate, Nat.min_eq_left h]

/-- The copied part follows what stood before it. -/
theorem front_overwrite (buffer : Buffer α n) {offset : Nat} {source : List α}
    (h : offset + source.length ≤ n) :
    (buffer.overwrite offset source h).front (offset + source.length) =
      buffer.front offset ++ source := by
  have hlen := buffer.length_cells
  have hfront : (buffer.cells.take offset ++ source).length = offset + source.length := by
    simp only [List.length_append, List.length_take]
    omega
  change (buffer.cells.take offset ++ source ++ _).take _ = buffer.cells.take offset ++ source
  exact List.take_left' hfront

/-- Any number of cells after a copy to the start: first the source, then old cells. -/
theorem front_overwrite_zero (buffer : Buffer α n) {source : List α} (h : 0 + source.length ≤ n)
    (len : Nat) :
    (buffer.overwrite 0 source h).front len =
      source.take len ++ (buffer.front len).drop source.length := by
  change (source ++ buffer.cells.drop (0 + source.length)).take len = _
  rw [front, Nat.zero_add, List.take_append, List.drop_take]

end Buffer

end AetherOs.Support
