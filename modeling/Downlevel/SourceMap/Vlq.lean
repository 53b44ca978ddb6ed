/-!
# Variable-length quantities

The integers of a source map are written with Base64 digits. The sign goes into the lowest bit of
a natural number, which is then cut into groups of five bits, lowest group first. A digit holds
one group; its sixth bit says that another digit follows.

Reading stops at the first digit without that bit and gives up after thirteen digits, at a foreign
character, or where the text ends. Thirteen digits hold 65 bits, and the sum is taken as a signed
64-bit word.
-/

namespace Downlevel.Vlq

/-- The digits, in the order of their values. -/
def alphabet : List Char :=
  "ABCDEFGHIJKLMNOPQRSTUVWXYZabcdefghijklmnopqrstuvwxyz0123456789+/".toList

/-- The digit with value `d`. -/
def digit (d : Nat) : Char := alphabet.getD d 'A'

/-- The value of a digit. -/
def digitValue? (c : Char) : Option Nat := alphabet.idxOf? c

/-! ### Writing -/

/-- The sign moves into the lowest bit. -/
def foldSign (v : Int) : Nat := if v < 0 then 2 * v.natAbs + 1 else 2 * v.natAbs

/-- The digits of a natural number, lowest group first. -/
def encodeNat (n : Nat) : List Char :=
  if n < 32 then [digit n] else digit (n % 32 + 32) :: encodeNat (n / 32)
termination_by n

/-- The digits of an integer. -/
def encode (v : Int) : List Char := encodeNat (foldSign v)

/-! ### Reading -/

/-- The most digits that a quantity may have. -/
def maxDigits : Nat := 13

/-- The groups of the quantity at the front of a text, if it ends within `limit` digits. -/
def groups? : (limit : Nat) → List Char → Option (List Nat)
  | 0, _ => none
  | _ + 1, [] => none
  | limit + 1, c :: rest =>
    match digitValue? c with
    | none => none
    | some d => if d < 32 then some [d] else (groups? limit rest).map ((d - 32) :: ·)

/-- The natural number with the given groups, lowest first. -/
def ofGroups : List Nat → Nat
  | [] => 0
  | group :: groups => group + 32 * ofGroups groups

/-- The integer whose sign is the lowest bit of a signed 64-bit word. -/
def unfoldSign (n : Nat) : Int :=
  let magnitude := Int.bmod n (Nat.pow 2 64) / 2
  if n % 2 = 1 then -magnitude else magnitude

/-- The quantity at the front of a text and the number of its digits. -/
def decode? (text : List Char) : Option (Int × Nat) :=
  (groups? maxDigits text).map fun groups => (unfoldSign (ofGroups groups), groups.length)

end Downlevel.Vlq
