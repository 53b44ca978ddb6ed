import Downlevel.Json.Fault

/-!
# Reading strings in JSON

A string ends at the first quote that is not escaped. Characters beyond the basic plane may be
escaped as two surrogates, and a surrogate without its partner is malformed. Where a string is
skipped, surrogates are not paired.
-/

namespace Downlevel.Json

/-- The value of a hexadecimal digit. -/
def hexValue? (c : Char) : Option Nat :=
  if '0' ≤ c && c ≤ '9' then some (c.toNat - 48)
  else if 'a' ≤ c && c ≤ 'f' then some (c.toNat - 87)
  else if 'A' ≤ c && c ≤ 'F' then some (c.toNat - 55)
  else none

/-- The number of bytes of a text in UTF-8. -/
def byteCount (s : List Char) : Nat := s.foldl (fun n c => n + c.utf8Size) 0

/-- Four hexadecimal digits. The text is cut short if it has not even four bytes. -/
def readHex : Reader Nat
  | a :: b :: c :: d :: rest =>
    match hexValue? a, hexValue? b, hexValue? c, hexValue? d with
    | some a, some b, some c, some d => .ok (((a * 16 + b) * 16 + c) * 16 + d, rest)
    | _, _, _, _ => .error .malformed
  | s => .error (if byteCount s < 4 then .truncated else .malformed)

/-- The character of an escape with a single letter. -/
def shortEscape? (c : Char) : Option Char :=
  if c = '"' || c = '\\' || c = '/' then some c
  else if c = 'b' then some (Char.ofNat 0x08)
  else if c = 'f' then some (Char.ofNat 0x0C)
  else if c = 'n' then some '\n'
  else if c = 'r' then some '\r'
  else if c = 't' then some '\t'
  else none

/-- The second half of a character that is escaped as two surrogates. -/
def readTrailing (leading : Nat) : Reader Char
  | [] => .error .truncated
  | '\\' :: [] => .error .truncated
  | '\\' :: 'u' :: rest =>
    match readHex rest with
    | .error fault => .error fault
    | .ok (n, rest) =>
      if 0xDC00 ≤ n && n ≤ 0xDFFF then
        .ok (Char.ofNat ((leading - 0xD800) * 0x400 + (n - 0xDC00) + 0x10000), rest)
      else .error .malformed
  | _ => .error .malformed

/-- The character of an escape whose letter is `u`. -/
def readUnicode : Reader Char := fun s =>
  match readHex s with
  | .error fault => .error fault
  | .ok (n, rest) =>
    if 0xDC00 ≤ n && n ≤ 0xDFFF then .error .malformed
    else if 0xD800 ≤ n && n ≤ 0xDBFF then readTrailing n rest
    else .ok (Char.ofNat n, rest)

/-- The character of an escape, behind its backslash. -/
def readEscape : Reader Char
  | [] => .error .truncated
  | c :: rest =>
    if c = 'u' then readUnicode rest
    else match shortEscape? c with
      | some d => .ok (d, rest)
      | none => .error .malformed

/-! ### Reading makes texts shorter -/

theorem length_readHex {s rest : List Char} {n : Nat} (h : readHex s = .ok (n, rest)) :
    rest.length < s.length := by
  unfold readHex at h
  split at h
  · split at h <;> simp_all
    omega
  · simp at h

theorem length_readTrailing {leading : Nat} {s rest : List Char} {c : Char}
    (h : readTrailing leading s = .ok (c, rest)) : rest.length < s.length := by
  unfold readTrailing at h
  split at h <;> try simp at h
  split at h
  · simp at h
  · next hex =>
    have := length_readHex hex
    split at h <;> simp_all
    omega

theorem length_readEscape {s rest : List Char} {c : Char} (h : readEscape s = .ok (c, rest)) :
    rest.length < s.length := by
  unfold readEscape at h
  split at h
  · simp at h
  · split at h
    · unfold readUnicode at h
      split at h
      · simp at h
      · next hex =>
        have := length_readHex hex
        split at h
        · simp at h
        · split at h
          · have := length_readTrailing h
            simp only [List.length_cons]
            omega
          · simp_all
            omega
    · split at h <;> simp_all

/-! ### Strings -/

/-- The characters of a string and the text behind it; the opening quote is read already. -/
def readChars (s : List Char) : Except Fault (List Char × List Char) :=
  match s with
  | [] => .error .truncated
  | c :: rest =>
    if c = '"' then .ok ([], rest)
    else if c = '\\' then
      match h : readEscape rest with
      | .error fault => .error fault
      | .ok (d, behind) =>
        have : behind.length < rest.length := length_readEscape h
        match readChars behind with
        | .error fault => .error fault
        | .ok (chars, rest) => .ok (d :: chars, rest)
    else if c.toNat < 0x20 then .error .malformed
    else
      match readChars rest with
      | .error fault => .error fault
      | .ok (chars, rest) => .ok (c :: chars, rest)
termination_by s.length

/-- A string; the opening quote is read already. -/
def readQuoted : Reader String := fun s =>
  match readChars s with
  | .error fault => .error fault
  | .ok (chars, rest) => .ok (String.ofList chars, rest)

/-- The text behind a string; the opening quote is read already. -/
def skipQuoted : List Char → Except Fault (List Char)
  | [] => .error .truncated
  | '"' :: rest => .ok rest
  | '\\' :: [] => .error .truncated
  | '\\' :: 'u' :: a :: b :: c :: d :: rest =>
    if [a, b, c, d].all fun x => (hexValue? x).isSome then skipQuoted rest
    else .error .malformed
  | '\\' :: c :: rest =>
    if c = 'u' then .error (if byteCount rest < 4 then .truncated else .malformed)
    else if (shortEscape? c).isSome then skipQuoted rest
    else .error .malformed
  | c :: rest => if c.toNat < 0x20 then .error .malformed else skipQuoted rest

end Downlevel.Json
