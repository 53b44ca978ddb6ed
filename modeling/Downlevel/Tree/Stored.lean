import Downlevel.Tree.Construction

/-!
# Stored ranges

The range of a node is a function of its parts. A node may keep it from when it was built, because
its parts stay what they are, with one exception: a function can have its body and its closing
keyword replaced. Then the function computes its range anew, and so does its declaration, from the
range that the function keeps.
-/

namespace Downlevel

/-- What can be replaced in a function. -/
inductive Replacement where
  | body (body : Block)
  | endToken (token : Token)

namespace FunctionLiteral

/-- The function with a part replaced. -/
def replace (f : FunctionLiteral) : Replacement → FunctionLiteral
  | .body body => (f.replaceBody body).1
  | .endToken token => (f.replaceEnd token).1

/-- The function with parts replaced, one after the other. -/
def replaceAll (f : FunctionLiteral) (edits : List Replacement) : FunctionLiteral :=
  edits.foldl replace f

end FunctionLiteral

/-- A function and the range that it keeps. -/
structure StoredFunction where
  literal : FunctionLiteral
  range : Range

namespace StoredFunction

/-- The function as it is built. -/
def build (literal : FunctionLiteral) : StoredFunction := ⟨literal, literal.range⟩

/-- The function with a part replaced, and its range computed anew. -/
def replace (f : StoredFunction) (r : Replacement) : StoredFunction :=
  let literal := f.literal.replace r
  { f with literal, range := literal.range }

/-- The function with parts replaced, one after the other. -/
def replaceAll (f : StoredFunction) (edits : List Replacement) : StoredFunction :=
  edits.foldl replace f

/-- The function with a part replaced and its range computed anew, and the part it had. -/
def exchange (f : StoredFunction) : Replacement → StoredFunction × Replacement
  | .body body =>
    let (literal, previous) := f.literal.replaceBody body
    ({ f with literal, range := literal.range }, .body previous)
  | .endToken token =>
    let (literal, previous) := f.literal.replaceEnd token
    ({ f with literal, range := literal.range }, .endToken previous)

@[simp] theorem exchange_fst (f : StoredFunction) (r : Replacement) :
    (f.exchange r).1 = f.replace r := by
  cases r <;> rfl

end StoredFunction

/-- A declaration of a function and the range that it keeps. -/
structure StoredDeclaration where
  name : Token
  function : StoredFunction
  range : Range

namespace StoredDeclaration

/-- The declaration as it is built. -/
def build (name : Token) (function : StoredFunction) : StoredDeclaration :=
  ⟨name, function, name.range.cover function.range⟩

/-- The declaration with a part of its function replaced, and its range computed anew. -/
def replace (d : StoredDeclaration) (r : Replacement) : StoredDeclaration :=
  let function := d.function.replace r
  { d with function, range := d.name.range.cover function.range }

/-- The declaration with parts of its function replaced, one after the other. -/
def replaceAll (d : StoredDeclaration) (edits : List Replacement) : StoredDeclaration :=
  edits.foldl replace d

/-- The declaration with a part of its function replaced and its range computed anew, and the part
that the function had. -/
def exchange (d : StoredDeclaration) (r : Replacement) : StoredDeclaration × Replacement :=
  let (function, previous) := d.function.exchange r
  ({ d with function, range := d.name.range.cover function.range }, previous)

@[simp] theorem exchange_fst (d : StoredDeclaration) (r : Replacement) :
    (d.exchange r).1 = d.replace r := by
  cases r <;> rfl

/-- The declaration as a statement. -/
def statement (d : StoredDeclaration) : Statement := .function d.name d.function.literal

end StoredDeclaration

end Downlevel
