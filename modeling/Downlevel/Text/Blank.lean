/-!
# Blank characters

The characters with the Unicode property `White_Space`, and trimming by them.
-/

namespace Downlevel.Text

/-- The code points with the property `White_Space`, as inclusive intervals. -/
def blankIntervals : List (Nat × Nat) :=
  [(0x09, 0x0D), (0x20, 0x20), (0x85, 0x85), (0xA0, 0xA0), (0x1680, 0x1680), (0x2000, 0x200A),
   (0x2028, 0x2029), (0x202F, 0x202F), (0x205F, 0x205F), (0x3000, 0x3000)]

/-- The character has the property `White_Space`. -/
def isBlank (c : Char) : Bool :=
  blankIntervals.any fun (low, high) => low ≤ c.toNat && c.toNat ≤ high

/-- The text without the blank characters at its ends. -/
def trim (s : String) : String :=
  String.ofList ((s.toList.dropWhile isBlank).reverse.dropWhile isBlank).reverse

end Downlevel.Text
