/-!
# Reading JSON

A reader takes a value off the front of a text. Texts are read once, from left to right, and the
first fault decides; so it matters in which order a reader looks at things.
-/

namespace Downlevel.Json

/-- What is wrong with a text. -/
inductive Fault where
  /-- The text ends too early. -/
  | truncated
  /-- The text is not JSON. -/
  | malformed
  /-- The text is JSON so far, but not what is wanted. -/
  | mismatched
  deriving DecidableEq, Inhabited

/-- Takes a value off the front of a text and leaves the rest. -/
abbrev Reader (α : Type) := List Char → Except Fault (α × List Char)

/-- The character may stand between the parts of a text. -/
def isBlank (c : Char) : Bool := c == ' ' || c == '\t' || c == '\n' || c == '\r'

/-- The text behind the blanks at its front. -/
def skipBlanks (s : List Char) : List Char := s.dropWhile isBlank

/-- The text behind a word that has to stand at its front. -/
def expectWord : (word : List Char) → List Char → Except Fault (List Char)
  | [], s => .ok s
  | _ :: _, [] => .error .truncated
  | c :: word, d :: s => if c = d then expectWord word s else .error .malformed

/-- The text behind a character that has to stand there after blanks. -/
def expect (c : Char) (s : List Char) : Except Fault (List Char) :=
  match skipBlanks s with
  | [] => .error .truncated
  | d :: rest => if c = d then .ok rest else .error .malformed

end Downlevel.Json
