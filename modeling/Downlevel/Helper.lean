/-!
# Runtime helpers

Forms that the target language lacks are emitted as calls of a support library. Which of its
functions a file calls is recorded beside its code, so that they can be linked.
-/

namespace Downlevel

/-- A function of the support library. -/
inductive Helper where
  | simpleTernary
  | scopeSafeTernary
  | simpleCoalesce
  | scopeSafeCoalesce
  | toText
  deriving DecidableEq, Inhabited

namespace Helper

/-- All helpers, in the order in which they are listed. -/
def all : List Helper :=
  [simpleTernary, scopeSafeTernary, simpleCoalesce, scopeSafeCoalesce, toText]

/-- The name within the library. -/
def baseName : Helper → String
  | simpleTernary => "simpleTernary"
  | scopeSafeTernary => "scopeSafeTernary"
  | simpleCoalesce => "simpleCoalesce"
  | scopeSafeCoalesce => "scopeSafeCoalesce"
  | toText => "toString"

/-- The helper with the given name within the library. -/
def ofBaseName? (name : String) : Option Helper := all.find? fun helper => helper.baseName == name

/-- The name by which the helper is called in a library of the given name. -/
def callName (library : String) (helper : Helper) : String :=
  if library.isEmpty then helper.baseName else library ++ "_" ++ helper.baseName

theorem mem_all (helper : Helper) : helper ∈ all := by
  cases helper <;> decide

end Helper

/-! ## Sets of helpers -/

/-- A set of helpers. -/
structure HelperSet where
  simpleTernary : Bool := false
  scopeSafeTernary : Bool := false
  simpleCoalesce : Bool := false
  scopeSafeCoalesce : Bool := false
  toText : Bool := false
  deriving DecidableEq, Inhabited

namespace HelperSet

/-- The helper is in the set. -/
def contains (s : HelperSet) : Helper → Bool
  | .simpleTernary => s.simpleTernary
  | .scopeSafeTernary => s.scopeSafeTernary
  | .simpleCoalesce => s.simpleCoalesce
  | .scopeSafeCoalesce => s.scopeSafeCoalesce
  | .toText => s.toText

/-- The set with one more helper. -/
def insert (s : HelperSet) : Helper → HelperSet
  | .simpleTernary => { s with simpleTernary := true }
  | .scopeSafeTernary => { s with scopeSafeTernary := true }
  | .simpleCoalesce => { s with simpleCoalesce := true }
  | .scopeSafeCoalesce => { s with scopeSafeCoalesce := true }
  | .toText => { s with toText := true }

/-- The set with more helpers. -/
def insertList (s : HelperSet) (helpers : List Helper) : HelperSet := helpers.foldl insert s

/-- The helpers of the set, in the order in which helpers are listed. -/
def toList (s : HelperSet) : List Helper := Helper.all.filter s.contains

/-- The helpers of both sets. -/
def union (s t : HelperSet) : HelperSet := s.insertList t.toList

/-- The set has a helper. -/
def any (s : HelperSet) : Bool := Helper.all.any s.contains

theorem contains_insert (s : HelperSet) (a b : Helper) :
    (s.insert a).contains b = (a == b || s.contains b) := by
  cases a <;> cases b <;> rfl

theorem contains_insertList (s : HelperSet) (helpers : List Helper) (b : Helper) :
    (s.insertList helpers).contains b = (helpers.contains b || s.contains b) := by
  induction helpers generalizing s with
  | nil => simp [insertList]
  | cons a rest ih =>
    have step : s.insertList (a :: rest) = (s.insert a).insertList rest := rfl
    rw [step, ih, contains_insert, List.contains_cons]
    cases rest.contains b <;> cases s.contains b <;> cases a <;> cases b <;> rfl

end HelperSet

end Downlevel
