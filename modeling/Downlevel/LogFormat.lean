import Downlevel.Text.Blank
import Downlevel.Text.CaseFold

/-!
# Log formats

The layout of diagnostics, as a setting names it.
-/

namespace Downlevel

/-- The layout of diagnostics. -/
inductive LogFormat where
  /-- A line for every event. -/
  | text
  /-- Events indented below the file that they belong to. -/
  | tree
  /-- A JSON object for every event. -/
  | json
  deriving DecidableEq, Inhabited

namespace LogFormat

/-- The layout that a setting names. Case and surrounding blanks do not matter, and an unknown name
stands for lines of text. -/
def ofSetting (value : String) : LogFormat :=
  let name := Text.foldCase (Text.trim value)
  if name = "tree" then tree else if name = "json" then json else text

end LogFormat

end Downlevel
