/-!
# String literals

A string literal is its value between quotes, with every quote of the value written twice.

Reading a literal is lenient: it takes off one quote at the front and one at the back where they
are there, then reads the rest from the left, two adjacent quotes as one. So it gives every text
a value, and reading back what was written gives the value.
-/

namespace Downlevel.Text

/-- Every quote is written twice. -/
def doubleQuotes : List Char → List Char
  | [] => []
  | c :: rest => if c = '"' then '"' :: '"' :: doubleQuotes rest else c :: doubleQuotes rest

/-- Two adjacent quotes are read as one, from the left. -/
def mergeQuotes : List Char → List Char
  | '"' :: '"' :: rest => '"' :: mergeQuotes rest
  | c :: rest => c :: mergeQuotes rest
  | [] => []

/-- The text without the quote at its front, if it has one. -/
def dropFirstQuote : List Char → List Char
  | [] => []
  | c :: rest => if c = '"' then rest else c :: rest

/-- The text without the quote at its back, if it has one. -/
def dropLastQuote : List Char → List Char
  | [] => []
  | [c] => if c = '"' then [] else [c]
  | c :: next :: rest => c :: dropLastQuote (next :: rest)

/-- The literal of a value. -/
def quoteChars (value : List Char) : List Char := '"' :: (doubleQuotes value ++ ['"'])

/-- The value of a literal, also of one that is not well formed. -/
def unquoteChars (literal : List Char) : List Char :=
  mergeQuotes (dropLastQuote (dropFirstQuote literal))

/-- The literal of a value. -/
def quote (value : String) : String := String.ofList (quoteChars value.toList)

/-- The value of a literal, also of one that is not well formed. -/
def unquote (literal : String) : String := String.ofList (unquoteChars literal.toList)

/-! ### Reading back -/

theorem mergeQuotes_doubleQuotes (value : List Char) :
    mergeQuotes (doubleQuotes value) = value := by
  induction value with
  | nil => rfl
  | cons c rest ih =>
    by_cases h : c = '"'
    · simp [doubleQuotes, mergeQuotes, h, ih]
    · simp only [doubleQuotes, if_neg h]
      rw [mergeQuotes.eq_2 _ _ (by rintro _ rfl; exact absurd rfl h), ih]

theorem dropLastQuote_append_quote (text : List Char) : dropLastQuote (text ++ ['"']) = text := by
  induction text with
  | nil => rfl
  | cons c rest ih =>
    cases rest with
    | nil => simp [dropLastQuote]
    | cons next rest => simpa [dropLastQuote] using ih

theorem unquoteChars_quoteChars (value : List Char) : unquoteChars (quoteChars value) = value := by
  simp [unquoteChars, quoteChars, dropFirstQuote, dropLastQuote_append_quote,
    mergeQuotes_doubleQuotes]

end Downlevel.Text
