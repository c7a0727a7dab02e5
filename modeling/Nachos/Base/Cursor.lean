import Mathlib.Data.List.Basic

namespace Nachos.Base

/-!
# Base — an array with a cursor

What a file is to a program that has opened it: an array that grows at its end, and a position in it
from which the next transfer starts. The position is never behind the end, so an array with a cursor
carries the proof of it.

* `Cursor.ahead` — what is in front of the cursor, at most so much of it;
* `Cursor.seek`, `Cursor.skip`, `Cursor.write` — the moves.
-/

/-- An array and a position in it. -/
structure Cursor (B : Type*) where
  contents : List B
  position : ℕ
  position_le : position ≤ contents.length

namespace Cursor

variable {B : Type*} (c : Cursor B)

/-- The next `n` elements, or as many as there are. -/
def ahead (n : ℕ) : List B := (c.contents.drop c.position).take n

theorem length_ahead (n : ℕ) : (c.ahead n).length = min n (c.contents.length - c.position) := by
  rw [ahead, List.length_take, List.length_drop]

/-- Go to a position. -/
def seek (p : ℕ) (hp : p ≤ c.contents.length) : Cursor B := ⟨c.contents, p, hp⟩

/-- Go on behind the next `n` elements. -/
def skip (n : ℕ) : Cursor B where
  contents := c.contents
  position := c.position + (c.ahead n).length
  position_le := by
    have hle := c.position_le
    rw [length_ahead]
    omega

/-- Put `data` at the cursor, over what is there and behind the end, and go on behind it. -/
def write (data : List B) : Cursor B where
  contents := c.contents.take c.position ++ data ++ c.contents.drop (c.position + data.length)
  position := c.position + data.length
  position_le := by
    have hle := c.position_le
    simp only [List.length_append, List.length_take, List.length_drop]
    omega

end Cursor

end Nachos.Base
