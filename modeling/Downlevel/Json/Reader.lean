import Downlevel.Json.Number
import Downlevel.Json.Strings

/-!
# Reading values in JSON

A reader for a kind of value rejects any other value. It still reads that value as far as this is
needed to tell a text that is not JSON from one that is not what is wanted: words, numbers and
strings to their ends, arrays and objects only up to their brackets.
-/

namespace Downlevel.Json

/-- What is wrong with a text whose value is not wanted. -/
def unwanted (s : List Char) : Fault :=
  match s with
  | [] => .truncated
  | '[' :: _ => .mismatched
  | '\x7b' :: _ => .mismatched
  | 'n' :: rest => faultOf (expectWord ['u', 'l', 'l'] rest)
  | 't' :: rest => faultOf (expectWord ['r', 'u', 'e'] rest)
  | 'f' :: rest => faultOf (expectWord ['a', 'l', 's', 'e'] rest)
  | '"' :: rest => faultOf (readQuoted rest)
  | c :: rest =>
    if c = '-' || Number.isDigit c then faultOf (Number.read (c :: rest)) else .malformed
where
  /-- The fault of reading a value, or that the value is not wanted. -/
  faultOf {α : Type} : Except Fault α → Fault
    | .error fault => fault
    | .ok _ => .mismatched

/-- A truth value. -/
def readBool : Reader Bool := fun s =>
  match skipBlanks s with
  | 't' :: rest => (expectWord ['r', 'u', 'e'] rest).map (true, ·)
  | 'f' :: rest => (expectWord ['a', 'l', 's', 'e'] rest).map (false, ·)
  | s => .error (unwanted s)

/-- A string. -/
def readString : Reader String := fun s =>
  match skipBlanks s with
  | '"' :: rest => readQuoted rest
  | s => .error (unwanted s)

/-- A natural number of 32 bits. -/
def readNatural : Reader Nat := fun s =>
  match skipBlanks s with
  | [] => .error .truncated
  | c :: rest =>
    if c = '-' || Number.isDigit c then
      match Number.read (c :: rest) with
      | .error fault => .error fault
      | .ok (.natural n, rest) => if n < Nat.pow 2 32 then .ok (n, rest) else .error .mismatched
      | .ok (.other, _) => .error .mismatched
    else .error (unwanted (c :: rest))

/-- A value that may be `null`. -/
def readOptional {α : Type} (read : Reader α) : Reader (Option α) := fun s =>
  match skipBlanks s with
  | 'n' :: rest => (expectWord ['u', 'l', 'l'] rest).map (none, ·)
  | s => (read s).map fun (value, rest) => (some value, rest)

/-- The items of an array and the text behind it; at least one item is to be read. Every item takes
a part of the text, so that `fuel` need not be more than its length. -/
def readItems {α : Type} (read : Reader α) : (fuel : Nat) → Reader (List α)
  | 0, _ => .error .truncated
  | fuel + 1, s =>
    match read s with
    | .error fault => .error fault
    | .ok (item, rest) =>
      match skipBlanks rest with
      | [] => .error .truncated
      | ']' :: rest => .ok ([item], rest)
      | ',' :: rest =>
        match skipBlanks rest with
        | ']' :: _ => .error .malformed
        | _ => (readItems read fuel rest).map fun (items, rest) => (item :: items, rest)
      | _ => .error .malformed

/-- An array. -/
def readArray {α : Type} (read : Reader α) : Reader (List α) := fun s =>
  match skipBlanks s with
  | '[' :: rest =>
    match skipBlanks rest with
    | ']' :: rest => .ok ([], rest)
    | _ => readItems read rest.length rest
  | s => .error (unwanted s)

/-- A value without parts, by its name: a string, or an object with the name as its only key and
`null` as its value. As in every object, anything but a string is malformed where the key has to
stand. -/
def readChoice {α : Type} (ofName? : String → Option α) : Reader α := fun s =>
  match skipBlanks s with
  | [] => .error .truncated
  | '"' :: rest => readName rest
  | '\x7b' :: rest => do
    let (value, rest) ← readName (← expect '"' rest)
    let rest ← expect ':' rest
    let rest ← expectNull (skipBlanks rest)
    let rest ← expect '\x7d' rest
    return (value, rest)
  | _ => .error .malformed
where
  /-- The value with a name whose opening quote is read already. -/
  readName (s : List Char) : Except Fault (α × List Char) :=
    match readQuoted s with
    | .error fault => .error fault
    | .ok (name, rest) =>
      match ofName? name with
      | none => .error .mismatched
      | some value => .ok (value, rest)
  /-- The text behind the word `null`. -/
  expectNull : List Char → Except Fault (List Char)
    | 'n' :: rest => expectWord ['u', 'l', 'l'] rest
    | s => .error (unwanted s)

/-! ## Skipping -/

/-- A bracket that is open while values are skipped. -/
inductive Bracket where
  | square
  | curly
  deriving DecidableEq, Inhabited

mutual

/-- Skips a value within some open brackets, and then what is left within them. Every step takes
a part of the text, so that `fuel` need not be more than twice its length. -/
def skipWithin (fuel : Nat) (brackets : List Bracket) (s : List Char) :
    Except Fault (List Char) :=
  match fuel with
  | 0 => .error .truncated
  | fuel + 1 =>
    match skipBlanks s with
    | [] => .error .truncated
    | '[' :: rest =>
      match skipBlanks rest with
      | ']' :: rest => skipBehind fuel brackets rest
      | [] => .error .truncated
      | _ => skipWithin fuel (.square :: brackets) rest
    | '\x7b' :: rest =>
      match skipBlanks rest with
      | '\x7d' :: rest => skipBehind fuel brackets rest
      | [] => .error .truncated
      | _ => do skipWithin fuel (.curly :: brackets) (← skipKey rest)
    | 'n' :: rest => do skipBehind fuel brackets (← expectWord ['u', 'l', 'l'] rest)
    | 't' :: rest => do skipBehind fuel brackets (← expectWord ['r', 'u', 'e'] rest)
    | 'f' :: rest => do skipBehind fuel brackets (← expectWord ['a', 'l', 's', 'e'] rest)
    | '"' :: rest => do skipBehind fuel brackets (← skipQuoted rest)
    | c :: rest =>
      if c = '-' || Number.isDigit c then do
        skipBehind fuel brackets (← Number.skip (c :: rest))
      else .error .malformed

/-- Skips what is left within some open brackets behind a value. -/
def skipBehind (fuel : Nat) (brackets : List Bracket) (s : List Char) :
    Except Fault (List Char) :=
  match fuel with
  | 0 => .error .truncated
  | fuel + 1 =>
    match brackets with
    | [] => .ok s
    | bracket :: outer =>
      match bracket, skipBlanks s with
      | _, [] => .error .truncated
      | .square, ',' :: rest => skipWithin fuel (.square :: outer) rest
      | .square, ']' :: rest => skipBehind fuel outer rest
      | .curly, ',' :: rest => do skipWithin fuel (.curly :: outer) (← skipKey rest)
      | .curly, '\x7d' :: rest => skipBehind fuel outer rest
      | _, _ => .error .malformed

/-- Skips a key and the colon behind it. -/
def skipKey (s : List Char) : Except Fault (List Char) := do
  expect ':' (← skipQuoted (← expect '"' s))

end

/-- The text behind a value that has no use. -/
def skipValue (s : List Char) : Except Fault (List Char) :=
  skipWithin (2 * s.length + 2) [] s

end Downlevel.Json
