import Downlevel.Position

/-!
# Fragments

Emitted code is a list of fragments. The texts of the fragments, one after the other, are the
code; those that carry a source position are what a source map is made of.
-/

namespace Downlevel

/-- A stretch of emitted code. -/
inductive Fragment where
  /-- Text without a place in a source file. -/
  | plain (text : String)
  /-- Text that stems from a position of a source file. -/
  | mapped (position : Position) (source : String) (text : String)
  deriving DecidableEq, Inhabited

namespace Fragment

/-- The text of the fragment. -/
def text : Fragment → String
  | plain text => text
  | mapped _ _ text => text

/-- The fragment has no text. -/
def isEmpty (f : Fragment) : Bool := f.text.isEmpty

/-- The code that the fragments make up. -/
def code (fragments : List Fragment) : String := String.join (fragments.map text)

theorem code_cons (f : Fragment) (rest : List Fragment) :
    code (f :: rest) = f.text ++ code rest := by
  simp [code]

theorem code_append (fragments more : List Fragment) :
    code (fragments ++ more) = code fragments ++ code more := by
  simp [code]

end Fragment

end Downlevel
