/-!
# Options

How emitted text is laid out, and what is produced beside it.
-/

namespace Downlevel

/-- The line breaks between emitted lines. -/
inductive NewLine where
  /-- A line feed. -/
  | lf
  /-- A carriage return and a line feed. -/
  | crlf
  deriving DecidableEq, Inhabited

namespace NewLine

/-- The characters of the line break. -/
def text : NewLine → String
  | lf => "\n"
  | crlf => "\r\n"

end NewLine

/-- The choices that a caller has. -/
structure Options where
  /-- What every level of nesting is indented by. -/
  indentUnit : String := "    "
  newLine : NewLine := .lf
  /-- Whether a source map is made. -/
  sourceMap : Bool := true
  /-- The `sourceRoot` of the source map. -/
  sourceRoot : Option String := none
  /-- What the names of runtime helpers start with. -/
  helperPrefix : String := "bslib"
  /-- Whether the keyword behind an empty block starts a line, as it does behind any other. -/
  newlineBeforeEmptyBlockEnd : Bool := false
  deriving DecidableEq, Inhabited

end Downlevel
