import Downlevel.Position

/-!
# Construction errors

A tree that breaks a structural rule is refused when it is built, so that emitting a tree never
fails.
-/

namespace Downlevel

/-- The most arguments with which the target runtime dispatches a call. -/
def maxArguments : Nat := 32

/-- Why a node cannot be built. -/
inductive ConstructionError where
  /-- A call has more arguments than the runtime accepts. -/
  | tooManyArguments (count : Nat) (range : Range)
  /-- A name was expected, but the expression is not an identifier under dotted accesses. -/
  | notDottedName (range : Range)
  /-- A comment has no comment tokens. -/
  | emptyComment
  deriving DecidableEq, Inhabited

namespace ConstructionError

/-- Where the refused node sits; a comment without tokens is nowhere. -/
def range? : ConstructionError → Option Range
  | tooManyArguments _ range => some range
  | notDottedName range => some range
  | emptyComment => none

/-- The error in words. -/
def message : ConstructionError → String
  | tooManyArguments count range =>
    "call at " ++ range.start.text ++ " has " ++ toString count ++ " arguments, at most " ++
      toString maxArguments ++ " are allowed"
  | notDottedName range =>
    "expression at " ++ range.start.text ++ " is not a dotted name rooted at an identifier"
  | emptyComment => "comment has no comment tokens"

end ConstructionError

end Downlevel
