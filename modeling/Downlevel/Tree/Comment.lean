import Downlevel.Token
import Downlevel.Tree.Error

/-!
# Comments

A comment is one or more consecutive comment lines, each a token. It stands either among the
statements of a sequence or among the members of a bracketed literal.
-/

namespace Downlevel

/-- Where a comment stands. -/
inductive CommentPlacement where
  /-- Among statements. -/
  | statement
  /-- Among the members of an array or record literal. -/
  | element
  deriving DecidableEq, Inhabited

/-- One or more comment lines. -/
structure Comment where
  first : Token
  others : List Token
  placement : CommentPlacement
  deriving DecidableEq, Inhabited

namespace Comment

/-- The comment with the given lines, of which there has to be one. -/
def ofTokens (placement : CommentPlacement) : List Token → Except ConstructionError Comment
  | [] => .error .emptyComment
  | first :: others => .ok ⟨first, others, placement⟩

/-- The lines of the comment. -/
def tokens (c : Comment) : List Token := c.first :: c.others

/-- The range of all its lines. -/
def range (c : Comment) : Range := c.first.range.coverList (c.others.map Token.range)

end Comment

end Downlevel
