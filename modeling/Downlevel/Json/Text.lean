/-!
# Writing JSON

Texts are written compactly. In a string only quotes, backslashes and control characters are
escaped; a control character without a short escape is written with four hexadecimal digits.
-/

namespace Downlevel.Json

/-- A hexadecimal digit, in lower case. -/
def hexDigit (n : Nat) : Char := if n < 10 then Char.ofNat (48 + n) else Char.ofNat (87 + n)

/-- The characters that stand for `c` in a string. -/
def escape (c : Char) : List Char :=
  if c = '"' then ['\\', '"']
  else if c = '\\' then ['\\', '\\']
  else if 0x20 ≤ c.toNat then [c]
  else if c.toNat = 0x08 then ['\\', 'b']
  else if c.toNat = 0x09 then ['\\', 't']
  else if c.toNat = 0x0A then ['\\', 'n']
  else if c.toNat = 0x0C then ['\\', 'f']
  else if c.toNat = 0x0D then ['\\', 'r']
  else ['\\', 'u', '0', '0', hexDigit (c.toNat / 16), hexDigit (c.toNat % 16)]

/-- A string. -/
def writeString (s : String) : List Char := '"' :: (s.toList.flatMap escape ++ ['"'])

/-- A natural number. -/
def writeNatural (n : Nat) : List Char := (toString n).toList

/-- Texts with commas between them. -/
def commaSeparated : List (List Char) → List Char
  | [] => []
  | [item] => item
  | item :: next :: rest => item ++ ',' :: commaSeparated (next :: rest)

/-- An array of the given items. -/
def writeArray (items : List (List Char)) : List Char := '[' :: (commaSeparated items ++ [']'])

/-- An object with the given keys and values. -/
def writeObject (fields : List (String × List Char)) : List Char :=
  '{' :: (commaSeparated (fields.map fun (key, value) => writeString key ++ ':' :: value) ++ ['}'])

end Downlevel.Json
