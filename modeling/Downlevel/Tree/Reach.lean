import Downlevel.Tree.Basic

/-!
# Evaluated sub-expressions

An expression is evaluated together with its sub-expressions, except for what stands inside a
function literal, which is evaluated when the function is called. The name of a class is no
sub-expression, and a comment is not evaluated.
-/

namespace Downlevel

namespace Member

/-- The value of a pair. -/
def value? : Member → Option Expression
  | pair _ _ value => some value
  | comment _ => none

end Member

namespace TemplatePart

/-- The expression whose value stands in the text. -/
def expression? : TemplatePart → Option Expression
  | expression e => some e
  | text _ => none

end TemplatePart

namespace Expression

/-- The direct sub-expressions that are evaluated with an expression, in the order in which they
are written. -/
def evaluated : Expression → List Expression
  | binary left _ right => [left, right]
  | unary _ operand => [operand]
  | call callee _ arguments _ => callee :: arguments
  | callfunc receiver _ _ _ arguments _ => receiver :: arguments
  | function _ => []
  | member object _ _ => [object]
  | identifier _ => []
  | index object _ key _ => [object, key]
  | xmlAttribute object _ _ => [object]
  | group _ inner _ => [inner]
  | literal _ => []
  | array _ elements _ => elements.filter (!·.isComment)
  | record _ members _ => members.filterMap Member.value?
  | construct _ _ _ arguments _ => arguments
  | conditional test _ consequent _ alternate => [test, consequent, alternate]
  | coalesce left _ right => [left, right]
  | template _ parts _ => parts.filterMap TemplatePart.expression?
  | comment _ => []

/-- Evaluating the expression itself may have a side effect. A dotted access may run a getter. -/
def isMutating : Expression → Bool
  | call .. => true
  | callfunc .. => true
  | construct .. => true
  | member .. => true
  | _ => false

end Expression

/-! ## Everything evaluated with an expression -/

mutual

/-- The expression and all that is evaluated with it, an expression before its parts. -/
def Expression.reachable : Expression → List Expression
  | .binary left operator right =>
    .binary left operator right :: (left.reachable ++ right.reachable)
  | .unary operator operand => .unary operator operand :: operand.reachable
  | .call callee opening arguments closing =>
    .call callee opening arguments closing :: (callee.reachable ++ reachableArguments arguments)
  | .callfunc receiver operator method opening arguments closing =>
    .callfunc receiver operator method opening arguments closing ::
      (receiver.reachable ++ reachableArguments arguments)
  | .function literal => [.function literal]
  | .member object dot name => .member object dot name :: object.reachable
  | .identifier name => [.identifier name]
  | .index object opening key closing =>
    .index object opening key closing :: (object.reachable ++ key.reachable)
  | .xmlAttribute object sign name => .xmlAttribute object sign name :: object.reachable
  | .group opening inner closing => .group opening inner closing :: inner.reachable
  | .literal token => [.literal token]
  | .array opening elements closing =>
    .array opening elements closing :: reachableElements elements
  | .record opening members closing => .record opening members closing :: reachableMembers members
  | .construct keyword className opening arguments closing =>
    .construct keyword className opening arguments closing :: reachableArguments arguments
  | .conditional test question consequent colon alternate =>
    .conditional test question consequent colon alternate ::
      (test.reachable ++ (consequent.reachable ++ alternate.reachable))
  | .coalesce left operator right =>
    .coalesce left operator right :: (left.reachable ++ right.reachable)
  | .template opening parts closing => .template opening parts closing :: reachableParts parts
  | .comment comment => [.comment comment]

/-- What is reachable from the arguments of a call. -/
def reachableArguments : List Expression → List Expression
  | [] => []
  | argument :: rest => argument.reachable ++ reachableArguments rest

/-- What is reachable from the elements of an array, comments left out. -/
def reachableElements : List Expression → List Expression
  | [] => []
  | element :: rest =>
    (if element.isComment then [] else element.reachable) ++ reachableElements rest

/-- What is reachable from the values of a record. -/
def reachableMembers : List Member → List Expression
  | [] => []
  | .pair _ _ value :: rest => value.reachable ++ reachableMembers rest
  | .comment _ :: rest => reachableMembers rest

/-- What is reachable from the expressions of a template string. -/
def reachableParts : List TemplatePart → List Expression
  | [] => []
  | .text _ :: rest => reachableParts rest
  | .expression expression :: rest => expression.reachable ++ reachableParts rest

end

namespace Expression

/-- Evaluating the expression may have a side effect. -/
def containsMutating (e : Expression) : Bool := e.reachable.any isMutating

end Expression

end Downlevel
