import Downlevel.Json.Record
import Downlevel.Json.Text
import Downlevel.SourceMap.Basic

/-!
# Source maps in JSON

A source map is written as an object, without `sourceRoot` if it has none. Reading needs every
field but that one.
-/

namespace Downlevel.SourceMap

open Json

/-- The source map as a text of JSON. -/
def toJson (m : SourceMap) : String :=
  let root := match m.sourceRoot with
    | none => []
    | some root => [("sourceRoot", writeString root)]
  String.ofList (writeObject (
    ("version", writeNatural m.version) :: ("file", writeString m.file) :: root ++
      [("sources", writeArray (m.sources.map writeString)),
        ("names", writeArray (m.names.map writeString)),
        ("mappings", writeString m.mappings)]))

/-- A source map of which not everything has been read. -/
structure Draft where
  version : Option Nat := none
  file : Option String := none
  sourceRoot : Option String := none
  sources : Option (List String) := none
  names : Option (List String) := none
  mappings : Option String := none

/-- How source maps are read. -/
def record : Json.Record Draft SourceMap where
  fields := [
    .of "version" readNatural fun v d => { d with version := some v },
    .of "file" readString fun v d => { d with file := some v },
    .of "sourceRoot" (readOptional readString) fun v d => { d with sourceRoot := v },
    .of "sources" (readArray readString) fun v d => { d with sources := some v },
    .of "names" (readArray readString) fun v d => { d with names := some v },
    .of "mappings" readString fun v d => { d with mappings := some v }]
  empty := {}
  finish d := do
    return ⟨← d.version, ← d.file, d.sourceRoot, ← d.sources, ← d.names, ← d.mappings⟩

/-- The source map that a text of JSON gives. -/
def ofJson (text : String) : Except Json.Fault SourceMap := record.ofText text

end Downlevel.SourceMap
