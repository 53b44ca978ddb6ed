import Downlevel.Json.Fault

/-!
# Numbers in JSON

Only natural numbers of 64 bits have a use here; every other number is just told apart from what
is no number at all. A number that is too large for a double is rejected like a malformed one, and
that decision is made by the rules by which doubles are read: the digits are taken into
a significand for as long as it fits in 64 bits, both the significand and the power of ten are
rounded to 53 bits, and their product has to be below the bound from which doubles are infinite.
-/

namespace Downlevel.Json

/-- A number, as far as it matters. -/
inductive Number where
  /-- A natural number of 64 bits, written without a sign, a fraction or an exponent. -/
  | natural (n : Nat)
  | other
  deriving DecidableEq, Inhabited

namespace Number

/-- The character is a decimal digit. -/
def isDigit (c : Char) : Bool := '0' ≤ c && c ≤ '9'

/-- The value of a decimal digit. -/
def digitValue (c : Char) : Nat := c.toNat - 48

/-- Takes digits into a significand for as long as it fits in 64 bits; the second number counts
the digits that are left out. -/
def accumulate (significand : Nat) : List Char → Nat × Nat
  | [] => (significand, 0)
  | c :: rest =>
    let longer := significand * 10 + digitValue c
    if longer < Nat.pow 2 64 then accumulate longer rest else (significand, rest.length + 1)

/-- The number rounded to 53 significant bits; a tie goes to the even neighbour. -/
def roundToDouble (n : Nat) : Nat :=
  let unit := Nat.pow 2 (n.log2 - 52)
  let low := n % unit
  let up := unit < 2 * low || (unit == 2 * low && n / unit % 2 == 1)
  (n / unit + if up then 1 else 0) * unit

/-- The double nearest to `significand * 10 ^ exponent` is infinite. -/
def isInfinite (significand : Nat) (exponent : Int) : Bool :=
  match exponent with
  | .negSucc _ => false
  | .ofNat e =>
    significand != 0 &&
      (308 < e ||
        Nat.pow 2 1024 - Nat.pow 2 970 ≤
          roundToDouble significand * roundToDouble (Nat.pow 10 e))

/-- The value of decimal digits. -/
def ofDigits (digits : List Char) : Nat := digits.foldl (fun n c => n * 10 + digitValue c) 0

/-- The exponent behind its letter. -/
def readExponent (s : List Char) : Except Fault (Int × List Char) :=
  let (negative, s) := match s with
    | '+' :: rest => (false, rest)
    | '-' :: rest => (true, rest)
    | s => (false, s)
  match s with
  | [] => .error .truncated
  | c :: _ =>
    if isDigit c then
      let e : Int := ofDigits (s.takeWhile isDigit)
      .ok (if negative then -e else e, s.dropWhile isDigit)
    else .error .malformed

/-- Decides about a number that is not written as an integer. -/
def inexact (significand : Nat) (exponent : Int) (rest : List Char) :
    Except Fault (Number × List Char) :=
  if isInfinite significand exponent then .error .malformed else .ok (other, rest)

/-- What follows the digits of a number with a fraction: an exponent, or nothing. -/
def readScale (significand : Nat) (exponent : Int) (s : List Char) :
    Except Fault (Number × List Char) :=
  match s with
  | c :: rest =>
    if c = 'e' || c = 'E' then
      match readExponent rest with
      | .error fault => .error fault
      | .ok (e, rest) => inexact significand (exponent + e) rest
    else inexact significand exponent s
  | [] => inexact significand exponent []

/-- What follows the integer digits of a number. -/
def readTail (negative : Bool) (digits : List Char) (s : List Char) :
    Except Fault (Number × List Char) :=
  let (significand, left) := accumulate 0 digits
  match s with
  | '.' :: rest =>
    match rest.takeWhile isDigit with
    | [] => .error (if rest.isEmpty then .truncated else .malformed)
    | fraction =>
      let (significand, leftBehind) := accumulate significand fraction
      readScale significand ((left : Int) - ((fraction.length : Int) - leftBehind))
        (rest.dropWhile isDigit)
  | s =>
    if s.head? = some 'e' || s.head? = some 'E' || left != 0 then readScale significand left s
    else .ok (if negative then other else natural significand, s)

/-- The digits of a number without its sign. There is no zero in front of another digit. -/
def readUnsigned (negative : Bool) (s : List Char) : Except Fault (Number × List Char) :=
  match s with
  | [] => .error .truncated
  | '0' :: rest =>
    if rest.head?.any isDigit then .error .malformed else readTail negative ['0'] rest
  | c :: _ =>
    if isDigit c then readTail negative (s.takeWhile isDigit) (s.dropWhile isDigit)
    else .error .malformed

/-- A number at the front of a text. -/
def read : Reader Number
  | '-' :: rest => readUnsigned true rest
  | s => readUnsigned false s

/-! ## Numbers that are not wanted

A value that is skipped has to have the form of a number, but its size does not matter, and
a number that is cut short is malformed. -/

/-- Skips the exponent of a number, if it has one. -/
def skipExponent (s : List Char) : Except Fault (List Char) :=
  match s with
  | [] => .ok []
  | c :: rest =>
    if c = 'e' || c = 'E' then
      let digits := match rest with
        | '+' :: digits => digits
        | '-' :: digits => digits
        | digits => digits
      if digits.head?.any isDigit then .ok (digits.dropWhile isDigit) else .error .malformed
    else .ok s

/-- Skips the fraction and the exponent of a number. -/
def skipTail (s : List Char) : Except Fault (List Char) :=
  match s with
  | '.' :: rest =>
    if rest.head?.any isDigit then skipExponent (rest.dropWhile isDigit) else .error .malformed
  | s => skipExponent s

/-- Skips a number. -/
def skip (s : List Char) : Except Fault (List Char) :=
  let unsigned := match s with
    | '-' :: rest => rest
    | s => s
  match unsigned with
  | '0' :: rest => if rest.head?.any isDigit then .error .malformed else skipTail rest
  | c :: _ => if isDigit c then skipTail (unsigned.dropWhile isDigit) else .error .malformed
  | [] => .error .malformed

end Number

end Downlevel.Json
