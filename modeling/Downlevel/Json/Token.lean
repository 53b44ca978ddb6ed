import Downlevel.Json.Record
import Downlevel.Token

/-!
# Tokens in JSON

Positions, ranges and tokens are records of which every field is needed.
-/

namespace Downlevel

open Json

namespace Position

/-- A position of which not everything has been read. -/
structure Draft where
  line : Option Nat := none
  column : Option Nat := none

/-- How positions are read. -/
def record : Json.Record Draft Position where
  fields := [
    .of "line" readNatural fun v d => { d with line := some v },
    .of "column" readNatural fun v d => { d with column := some v }]
  empty := {}
  finish d := do return ⟨← d.line, ← d.column⟩

end Position

namespace Range

/-- A range of which not everything has been read. -/
structure Draft where
  start : Option Position := none
  stop : Option Position := none

/-- How ranges are read. -/
def record : Json.Record Draft Range where
  fields := [
    .of "start" Position.record.read fun v d => { d with start := some v },
    .of "end" Position.record.read fun v d => { d with stop := some v }]
  empty := {}
  finish d := do return ⟨← d.start, ← d.stop⟩

end Range

namespace Token

/-- A token of which not everything has been read. -/
structure Draft where
  kind : Option TokenKind := none
  text : Option String := none
  range : Option Range := none

/-- How tokens are read. -/
def record : Json.Record Draft Token where
  fields := [
    .of "kind" (readChoice TokenKind.ofName?) fun v d => { d with kind := some v },
    .of "text" readString fun v d => { d with text := some v },
    .of "range" Range.record.read fun v d => { d with range := some v }]
  empty := {}
  finish d := do return ⟨← d.kind, ← d.text, ← d.range⟩

/-- The token that a text of JSON gives. -/
def ofJson (text : String) : Except Json.Fault Token := record.ofText text

end Token

end Downlevel
