import Mathlib.Logic.Function.Basic
/-!
# A line of a terminal

What a terminal of unbounded width shows on its current line: a newline starts
an empty line, a backspace moves the cursor one column to the left, and any
other character overwrites the cell under the cursor and moves to the right.

`written text` is the line on which `text` has been printed and nothing else,
with the cursor behind it.
-/

namespace AetherOs.Support

@[ext] structure Terminal where
  cells : Nat → Char
  cursor : Nat

namespace Terminal

def blank : Terminal := ⟨fun _ => ' ', 0⟩

def backspace : Char := Char.ofNat 8

def put (terminal : Terminal) (c : Char) : Terminal :=
  if c = '\n' then
    blank
  else if c = backspace then
    { terminal with cursor := terminal.cursor - 1 }
  else
    ⟨Function.update terminal.cells terminal.cursor c, terminal.cursor + 1⟩

def render (terminal : Terminal) (text : List Char) : Terminal := text.foldl put terminal

def textLeft (terminal : Terminal) : List Char :=
  (List.range terminal.cursor).map terminal.cells

def written (text : List Char) : Terminal := ⟨fun i => text.getD i ' ', text.length⟩

def Plain (c : Char) : Prop := c ≠ '\n' ∧ c ≠ backspace

theorem render_append (terminal : Terminal) (text text' : List Char) :
    terminal.render (text ++ text') = (terminal.render text).render text' :=
  List.foldl_append

theorem update_written (text : List Char) (c : Char) :
    Function.update (written text).cells text.length c = (written (text ++ [c])).cells := by
  funext i
  rcases Nat.lt_trichotomy i text.length with hlt | rfl | hgt
  · rw [Function.update_of_ne (Nat.ne_of_lt hlt)]
    simp [written, List.getElem?_append_left hlt]
  · simp [written]
  · rw [Function.update_of_ne (Nat.ne_of_gt hgt)]
    have hbehind : (text ++ [c]).length ≤ i := by
      rw [List.length_append]
      exact hgt
    simp [written, List.getElem?_eq_none hbehind, List.getElem?_eq_none (Nat.le_of_lt hgt)]

theorem put_written {c : Char} (h : Plain c) (text : List Char) :
    (written text).put c = written (text ++ [c]) := by
  rw [put, if_neg h.1, if_neg h.2]
  apply Terminal.ext
  · exact update_written text c
  · simp [written]

theorem render_written {new : List Char} (h : ∀ c ∈ new, Plain c) (text : List Char) :
    (written text).render new = written (text ++ new) := by
  induction new generalizing text with
  | nil => rw [List.append_nil]; rfl
  | cons c new ih =>
      have hc := put_written (h c (by simp)) text
      have hrest := ih (fun c' hc' => h c' (by simp [hc'])) (text ++ [c])
      calc (written text).render (c :: new) = ((written text).put c).render new := rfl
        _ = (written (text ++ [c])).render new := by rw [hc]
        _ = written (text ++ (c :: new)) := by rw [hrest, List.append_assoc]; rfl

theorem render_line (terminal : Terminal) (text : List Char) :
    terminal.render (text ++ ['\n']) = written [] := by
  rw [render_append]
  rfl

theorem blank_behind_written {text : List Char} {i : Nat} (h : text.length ≤ i) :
    (written text).cells i = ' ' := by
  simp [written, List.getElem?_eq_none h]

/-- Backspace, a space and backspace take the last character away. -/
theorem render_erase (text : List Char) (c : Char) :
    (written (text ++ [c])).render [backspace, ' ', backspace] = written text := by
  have hblank : (written text).cells text.length = ' ' := blank_behind_written (Nat.le_refl _)
  apply Terminal.ext
  · change Function.update (written (text ++ [c])).cells ((text ++ [c]).length - 1) ' ' = _
    rw [← update_written, List.length_append, List.length_singleton, Nat.add_sub_cancel,
      Function.update_idem, ← hblank, Function.update_eq_self]
  · change (text ++ [c]).length - 1 + 1 - 1 = text.length
    simp

theorem textLeft_written (text : List Char) : (written text).textLeft = text := by
  apply List.ext_getElem
  · simp [textLeft, written]
  · intro i _ hi
    simp [textLeft, written, hi]

end Terminal

end AetherOs.Support
