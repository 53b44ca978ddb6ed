import Downlevel.Position

/-!
# Positions in generated text

Source maps count the columns of generated text in UTF-16 code units: a character beyond the
basic plane takes two. Only a line feed starts a new line, so a carriage return takes a column.

Lines and columns are counted in 32 bits each, and a counter that is full starts again at zero. So
the counters show the position behind a text as long as both of its numbers fit into 32 bits.
-/

namespace Downlevel.Text

/-- The number of UTF-16 code units of a character. -/
def units16 (c : Char) : Nat := if c.toNat < 0x10000 then 1 else 2

/-- What a counter of 32 bits shows of a number. -/
def counted (n : Nat) : Nat := n % 0x100000000

/-- The position after one more character. -/
def advanceChar (p : Position) (c : Char) : Position :=
  if c = '\n' then ⟨counted (p.line + 1), 0⟩ else ⟨p.line, counted (p.column + units16 c)⟩

/-- The position after `text`, which starts at `p`. -/
def advance (p : Position) (text : String) : Position := text.toList.foldl advanceChar p

/-- A text that is cut in two moves a position as it does in one piece. -/
theorem advance_append (p : Position) (first second : String) :
    advance p (first ++ second) = advance (advance p first) second := by
  rw [advance, String.toList_append, List.foldl_append]
  rfl

end Downlevel.Text
