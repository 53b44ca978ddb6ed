import Downlevel.Json.Record
import Downlevel.Options

/-!
# Options in JSON

Every field of the options can be left out and then has its default.
-/

namespace Downlevel

namespace NewLine

/-- The name under which a line break is written down. -/
def name : NewLine → String
  | lf => "lf"
  | crlf => "crlf"

/-- The line break with the given name. -/
def ofName? (s : String) : Option NewLine := [lf, crlf].find? fun newLine => newLine.name == s

end NewLine

namespace Options

open Json

/-- How options are read. -/
def record : Json.Record Options Options where
  fields := [
    .of "indentUnit" readString fun v o => { o with indentUnit := v },
    .of "newLine" (readChoice NewLine.ofName?) fun v o => { o with newLine := v },
    .of "sourceMap" readBool fun v o => { o with sourceMap := v },
    .of "sourceRoot" (readOptional readString) fun v o => { o with sourceRoot := v },
    .of "helperPrefix" readString fun v o => { o with helperPrefix := v },
    .of "newlineBeforeEmptyBlockEnd" readBool fun v o =>
      { o with newlineBeforeEmptyBlockEnd := v }]
  empty := {}
  finish := some

/-- The options that a text of JSON gives. -/
def ofJson (text : String) : Except Json.Fault Options := record.ofText text

end Options

end Downlevel
