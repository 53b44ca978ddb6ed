import Downlevel.Position
import Downlevel.SourceMap.Registry
import Downlevel.SourceMap.Vlq

/-!
# Source maps

A mapping says that the text generated at one position stems from a position of a source file. A
generator collects mappings and writes them in the compact form of revision 3: one group of
segments for each generated line, every number as the difference from its predecessor.

Two things happen on the way. File paths and names are *interned*: each is registered once and
from then on called by its index. And a mapping that continues the one added before it, on the same
line and with the same origin, is not kept.
-/

namespace Downlevel

/-- Text generated at `generated` stems from `origin` in the source with the given index. -/
structure Mapping where
  generated : Position
  source : Nat
  origin : Position
  name : Option Nat
  deriving DecidableEq, Inhabited

namespace Mapping

/-- The second mapping adds nothing to the first: same line, same origin. -/
def continues (m previous : Mapping) : Bool :=
  previous.generated.line == m.generated.line && previous.source == m.source &&
    previous.origin == m.origin && previous.name == m.name

/-- The generated position of the first is not after that of the second. -/
def notAfter (m n : Mapping) : Bool := m.generated ≤ n.generated

end Mapping

/-- A source map of revision 3. -/
structure SourceMap where
  version : Nat
  file : String
  sourceRoot : Option String
  sources : List String
  names : List String
  mappings : String
  deriving DecidableEq, Inhabited

/-! ## The text of the mappings -/

namespace SourceMap

/-- What the next segment is relative to: the numbers of the segment before it, its generated
position, and whether the line has a segment already. -/
structure Cursor where
  generated : Position := ⟨0, 0⟩
  lineStarted : Bool := false
  source : Nat := 0
  origin : Position := ⟨0, 0⟩
  name : Nat := 0
  deriving DecidableEq, Inhabited

namespace Cursor

/-- A difference of two numbers in digits. -/
def difference (new old : Nat) : List Char := Vlq.encode ((new : Int) - (old : Int))

/-- The cursor at the start of a later line. -/
def startLine (cursor : Cursor) (line : Nat) : Cursor :=
  if cursor.generated.line < line then
    { cursor with generated := ⟨line, 0⟩, lineStarted := false }
  else cursor

/-- The digits of the segment for `m`. -/
def segment (cursor : Cursor) (m : Mapping) : List Char :=
  difference m.generated.column cursor.generated.column ++ difference m.source cursor.source ++
    difference m.origin.line cursor.origin.line ++
    difference m.origin.column cursor.origin.column ++
    (match m.name with
      | none => []
      | some name => difference name cursor.name)

/-- The cursor behind the segment for `m`. -/
def after (cursor : Cursor) (m : Mapping) : Cursor :=
  { generated := ⟨cursor.generated.line, m.generated.column⟩
    lineStarted := true
    source := m.source
    origin := m.origin
    name := m.name.getD cursor.name }

end Cursor

/-- The text of mappings that are in order of their generated positions: a semicolon for every new
line, a comma between the segments of a line. -/
def encodeSorted (cursor : Cursor) : List Mapping → List Char
  | [] => []
  | m :: rest =>
    let here := cursor.startLine m.generated.line
    List.replicate (m.generated.line - cursor.generated.line) ';' ++
      (if here.lineStarted then [','] else []) ++ here.segment m ++
      encodeSorted (here.after m) rest

/-- The text of mappings in any order. Those at one generated position keep their order. -/
def encodeMappings (mappings : List Mapping) : String :=
  String.ofList (encodeSorted {} (mappings.mergeSort Mapping.notAfter))

/-! ## Generators -/

/-- A source map under construction. -/
structure Generator where
  file : String
  sourceRoot : Option String := none
  sources : Registry := {}
  names : Registry := {}
  kept : Array Mapping := #[]
  deriving DecidableEq, Inhabited

namespace Generator

/-- Says where the paths of the sources start, if anywhere. -/
def setSourceRoot (g : Generator) (sourceRoot : Option String) : Generator := { g with sourceRoot }

/-- Registers a source path; the result also gives its index. -/
def addSource (g : Generator) (path : String) : Generator × Nat :=
  let (sources, index) := g.sources.add path
  ({ g with sources }, index)

/-- Registers a name; the result also gives its index. -/
def addName (g : Generator) (name : String) : Generator × Nat :=
  let (names, index) := g.names.add name
  ({ g with names }, index)

/-- Adds a mapping, unless it continues the last one kept. -/
def addMapping (g : Generator) (m : Mapping) : Generator :=
  if g.kept.back?.any m.continues then g else { g with kept := g.kept.push m }

/-- The source map of everything added so far. -/
def generate (g : Generator) : SourceMap :=
  { version := 3
    file := g.file
    sourceRoot := g.sourceRoot
    sources := g.sources.entries
    names := g.names.entries
    mappings := encodeMappings g.kept.toList }

end Generator

end SourceMap

end Downlevel
