import Downlevel.Fragment
import Downlevel.SourceMap.Basic
import Downlevel.Text.Units

/-!
# Assembly of code and source map

The code is the concatenation of the fragments. Every fragment with a source position is mapped at
the position where its text begins in the code, also if its text is empty.
-/

namespace Downlevel

namespace Fragment

/-- Adds the mapping of a fragment that begins at `p`. -/
def addTo (g : SourceMap.Generator) (p : Position) : Fragment → SourceMap.Generator
  | plain _ => g
  | mapped position path _ =>
    let (g, source) := g.addSource path
    g.addMapping { generated := p, source, origin := position, name := none }

/-- Adds the mappings of fragments of which the first begins at `p`. -/
def addAllTo (g : SourceMap.Generator) (p : Position) : List Fragment → SourceMap.Generator
  | [] => g
  | f :: rest => addAllTo (f.addTo g p) (Text.advance p f.text) rest

/-- The code of the fragments, and its source map. -/
def assemble (fragments : List Fragment) (file : String) (sourceRoot : Option String) :
    String × SourceMap :=
  (code fragments, (addAllTo { file, sourceRoot } ⟨0, 0⟩ fragments).generate)

end Fragment

end Downlevel
