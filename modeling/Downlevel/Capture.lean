import Downlevel.Namespace
import Downlevel.Piece
import Downlevel.Tree.Reach

/-!
# Captured variables and deferred operands

An operand that must not be evaluated at once is emitted as a function literal. Such a function
does not see the variables of its surroundings, so they are passed to it in an object: the caller
builds a *scope object* of the captured variables, and the function binds each of them again before
it returns the operand.

Variables that resolve to a namespace or to a function of one are global and are not captured.
Names that differ only in case are one variable.
-/

namespace Downlevel

namespace Expression

/-- The name that the expression is. -/
def identifier? : Expression → Option Token
  | identifier name => some name
  | _ => none

/-- The names read by the expression, in the order in which they are reached. -/
def names (e : Expression) : List Token := e.reachable.filterMap identifier?

end Expression

namespace Capture

/-- The name by which a variable is known, whatever its case. -/
def key (name : Token) : String := Text.foldCase name.text

/-- The name stands for something global. -/
def isGlobal (resolver : Resolver) (enclosing : Option String) (name : Token) : Bool :=
  resolver.startsWithNamespace [name.text] || resolver.isNamespaceFunction name.text enclosing

/-- The captured names with one more among them, in the order of their keys. A name that is there
already is not taken again. -/
def add (captured : List Token) (name : Token) : List Token :=
  match captured with
  | [] => [name]
  | first :: rest =>
    if key name < key first then name :: first :: rest
    else if key name = key first then first :: rest
    else first :: add rest name

/-- The variables that the operands read and that are not global: of each its first occurrence, in
the order of their keys. -/
def ofOperands (resolver : Resolver) (enclosing : Option String) (operands : List Expression) :
    List Token :=
  ((operands.flatMap Expression.names).filter (!isGlobal resolver enclosing ·)).foldl add []

/-! ## Pieces -/

/-- The object that holds the captured variables under their names. -/
def scopeObject : (captured : List Token) → List Piece
  | [] => [.text "\x7b\x7d"]
  | captured =>
    .text "\x7b" ::
      Piece.separated ", " (captured.map fun name =>
        [.text ("\"" ++ name.text ++ "\": "), name.piece]) ++ [.text "\x7d"]

/-- The line that binds a captured variable again. -/
def binding (name : Token) : Piece := .text (name.text ++ " = scope[\"" ++ name.text ++ "\"]")

/-- The function literal that binds the captured variables and returns the operand. -/
def deferred (captured : List Token) (operand : List Piece) : List Piece :=
  .text "function(scope)" ::
    Piece.nested (captured.flatMap (fun name => Piece.newLine ++ [binding name]) ++
      Piece.newLine ++ .text "return " :: operand) ++
    Piece.newLine ++ [.text "end function"]

end Capture

end Downlevel
