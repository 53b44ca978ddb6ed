/-!
# Case folding

Names of the language are compared without regard to the case of the letters `A` to `Z`; every
other character only matches itself.
-/

namespace Downlevel.Text

/-- The text with the letters `A` to `Z` in lower case. -/
def foldCase (s : String) : String := String.ofList (s.toList.map Char.toLower)

end Downlevel.Text
