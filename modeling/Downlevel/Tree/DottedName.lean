import Downlevel.Text.Split
import Downlevel.Token

/-!
# Dotted names

`A.B.c` is an identifier under dotted accesses. Source text spells it with dots; the target
language has no namespaces, and there the same name is flattened to `A_B_c`.
-/

namespace Downlevel

/-- The two spellings of a dotted name. -/
inductive NameStyle where
  /-- As in source text: `A.B.c`. -/
  | dotted
  /-- As in emitted text: `A_B_c`. -/
  | flattened
  deriving DecidableEq, Inhabited

namespace NameStyle

/-- What stands between two parts. -/
def separator : NameStyle → String
  | dotted => "."
  | flattened => "_"

/-- The spelling of the name with the given parts. -/
def spell (style : NameStyle) (parts : List String) : String := Text.join style.separator parts

end NameStyle

/-- A dot and the name behind it. -/
structure Link where
  dot : Token
  name : Token
  deriving DecidableEq, Inhabited

/-- An identifier and the links behind it. -/
structure DottedName where
  root : Token
  links : List Link
  deriving DecidableEq, Inhabited

namespace DottedName

/-- The name with one more link at its end. -/
def extend (n : DottedName) (link : Link) : DottedName := { n with links := n.links ++ [link] }

/-- The identifiers, from the root on. -/
def tokens (n : DottedName) : List Token := n.root :: n.links.map Link.name

/-- The texts of the identifiers, from the root on. -/
def parts (n : DottedName) : List String := n.tokens.map Token.text

/-- The text of the last identifier. -/
def last (n : DottedName) : String := (n.links.getLast?.map (·.name.text)).getD n.root.text

/-- The name in the given spelling. -/
def text (n : DottedName) (style : NameStyle) : String := style.spell n.parts

/-- The range of all its identifiers. -/
def range (n : DottedName) : Range := n.root.range.coverList (n.links.map (·.name.range))

/-- Where the name starts. -/
def start (n : DottedName) : Position := n.range.start

end DottedName

end Downlevel
